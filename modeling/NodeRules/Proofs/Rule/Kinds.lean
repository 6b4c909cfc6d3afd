import NodeRules.Proofs.Rule.Faults

namespace NodeRules

/-- Both results are values, in the relation `r`, or both are errors of one code. -/
inductive ReadError.Agree {α β : Type} (r : α → β → Prop) :
    Except ReadError α → Except ReadError β → Prop
  | ok {a : α} {b : β} (h : r a b) : Agree r (.ok a) (.ok b)
  | error {e e' : ReadError} (h : e.cause.code = e'.cause.code) : Agree r (.error e) (.error e')

open ReadError (Agree)

namespace ReadError.Agree

variable {α β γ δ : Type} {r : α → β → Prop} {s : γ → δ → Prop}

theorem bind {x : Except ReadError α} {y : Except ReadError β} (h : Agree r x y)
    {f : α → Except ReadError γ} {g : β → Except ReadError δ}
    (hnext : ∀ a b, r a b → Agree s (f a) (g b)) : Agree s (x >>= f) (y >>= g) := by
  cases h with
  | ok h => exact hnext _ _ h
  | error h => exact .error h

theorem map {x : Except ReadError α} {y : Except ReadError β} (h : Agree r x y)
    {f : α → γ} {g : β → δ} (hnext : ∀ a b, r a b → s (f a) (g b)) :
    Agree s (f <$> x) (g <$> y) := by
  cases h with
  | ok h => exact .ok (hnext _ _ h)
  | error h => exact .error h

end ReadError.Agree

namespace Place

variable {p q : Place}

theorem kind_eq_head? (p : Place) : p.kind = p.kinds.head?.getD .stop := by
  cases h : p.unread <;> simp [kind, current, kinds, h]

theorem kinds_forward_eq (p : Place) :
    p.forward.kinds = if p.kind = .stop then p.kinds else p.kinds.tail := by
  cases h : p.unread with
  | nil => simp [kind, current, kinds, forward, h]
  | cons t ts => by_cases ht : t.kind = .stop <;> simp [kind, current, kinds, forward, h, ht]

theorem kind_congr (h : p.kinds = q.kinds) : p.kind = q.kind := by
  rw [kind_eq_head?, kind_eq_head?, h]

theorem kinds_forward_congr (h : p.kinds = q.kinds) : p.forward.kinds = q.forward.kinds := by
  rw [kinds_forward_eq, kinds_forward_eq, kind_congr h, h]

theorem demandName_error (h : ∀ name, p.kind ≠ .name name) (expected : ReadError.Expected) :
    p.demandName expected = .error (p.mismatch expected) := by
  rw [demandName]
  split
  · rename_i name hname
    exact absurd hname (h name)
  · rfl

theorem demandEnd_agree (h : p.kinds = q.kinds) :
    Agree (fun _ _ => True) p.demandEnd q.demandEnd := by
  rw [demandEnd, demandEnd, kind_congr h]
  split
  · exact .ok trivial
  · exact .error rfl

end Place

/-- The same value, and places in front of the same kinds. -/
def Place.SameRead {α : Type} (a b : α × Place) : Prop := a.1 = b.1 ∧ a.2.kinds = b.2.kinds

theorem requireCapital_agree (name : String) (span span' : Span) :
    Agree (fun _ _ => True) (requireCapital name span) (requireCapital name span') := by
  rw [requireCapital, requireCapital]
  split
  · exact .ok trivial
  · exact .error rfl

def Child.Placed.unplaced (c : Child.Placed) : Child.Placed := ⟨c.child, .nowhere⟩

namespace NodeRule

theorem readSubtypes_step (rule : String) (seen : List String) (p : Place) :
    readSubtypes rule seen p =
      match p.kind with
      | .name name => requireCapital name p.span >>= fun _ =>
        if name ∈ seen then .error ⟨.repeatedSubtype rule name, p.span, 1⟩
        else if p.forward.kind = .bar then
          (fun (names, p') => (name :: names, p')) <$>
            readSubtypes rule (name :: seen) p.forward.forward
        else .ok ([name], p.forward)
      | _ => .error (p.mismatch .subtype) := by
  by_cases hname : ∃ name, p.kind = .name name
  · obtain ⟨name, hkind⟩ := hname
    have hkinds := Place.kinds_of_kind (p := p) (by simp [hkind])
    rw [hkind] at hkinds
    obtain ⟨hlt, hread⟩ := Place.demandName_ok hkinds .subtype
    rw [readSubtypes, hread, hkind]
    dsimp only
    cases requireCapital name p.span with
    | error e => rfl
    | ok _ =>
        dsimp only [bind, Except.bind]
        split
        · rfl
        split
        · rename_i htake
          rw [if_neg]
          intro hbar
          rw [Place.take?, if_pos hbar] at htake
          cases htake
        · rename_i p₂ htake
          obtain ⟨hbar, rfl⟩ := Place.forward_of_take? htake
          rw [if_pos hbar]
          cases readSubtypes rule (name :: seen) p.forward.forward <;> rfl
  · have hnone := not_exists.mp hname
    rw [readSubtypes, Place.demandName_error hnone]
    dsimp only
    split
    · rename_i name hkind
      exact absurd hkind (hnone name)
    · rfl

theorem readSubtypes_agree (rule : String) (seen : List String) {p q : Place}
    (h : p.kinds = q.kinds) :
    Agree Place.SameRead (readSubtypes rule seen p) (readSubtypes rule seen q) := by
  have hforward := Place.kinds_forward_congr h
  rw [readSubtypes_step, readSubtypes_step, ← Place.kind_congr h]
  split
  · rename_i name hname
    refine (requireCapital_agree name p.span q.span).bind fun _ _ _ => ?_
    split
    · exact .error rfl
    rw [← Place.kind_congr hforward]
    split
    · rename_i hbar
      have hfirst := Place.length_forward (p := p) (by simp [hname])
      have hsecond := Place.length_forward (p := p.forward) (by simp [hbar])
      refine (readSubtypes_agree rule (name :: seen) (Place.kinds_forward_congr hforward)).map ?_
      rintro ⟨names, p'⟩ ⟨names', q'⟩ ⟨rfl, hrest⟩
      exact ⟨rfl, hrest⟩
    · exact .ok ⟨rfl, hforward⟩
  · exact .error rfl
termination_by p.unread.length

theorem readAbstract_agree (name : String) {p q : Place} (h : p.kinds = q.kinds) :
    Agree (· = ·) (readAbstract name p) (readAbstract name q) := by
  refine (readSubtypes_agree name [] h).bind ?_
  rintro ⟨names, p'⟩ ⟨names', q'⟩ ⟨rfl, hrest⟩
  exact (Place.demandEnd_agree hrest).bind fun _ _ _ => .ok rfl

theorem childError?_unplaced (rule : String) (alone : Bool) (c : Child.Placed) :
    (childError? rule alone c.unplaced).map ReadError.cause =
      (childError? rule alone c).map ReadError.cause := by
  obtain ⟨child, span⟩ := c
  cases child with
  | empty => cases alone <;> rfl
  | descriptor d =>
      simp only [childError?, Child.Placed.unplaced]
      repeat' split
      all_goals rfl

theorem childrenError?_unplaced (rule : String) (cs : List Child.Placed) (stop : Span) :
    (childrenError? rule (cs.map Child.Placed.unplaced) .nowhere).map ReadError.cause =
      (childrenError? rule cs stop).map ReadError.cause := by
  have hlist : (fun c : Child.Placed => c.child.isList) ∘ Child.Placed.unplaced =
      fun c => c.child.isList := rfl
  have hchild (alone : Bool) : Option.map ReadError.cause ∘ childError? rule alone ∘
      Child.Placed.unplaced = Option.map ReadError.cause ∘ childError? rule alone :=
    funext fun c => childError?_unplaced rule alone c
  rw [childrenError?, childrenError?, List.isEmpty_map, List.length_map]
  split
  · rfl
  · rw [List.find?_map, hlist]
    cases cs.length == 1 with
    | true => simp [List.map_findSome?, List.findSome?_map, hchild]
    | false =>
        cases cs.find? fun c => c.child.isList with
        | none => simp [List.map_findSome?, List.findSome?_map, hchild]
        | some c => rfl

theorem childrenError?_cause (rule : String) {cs cs' : List Child.Placed}
    (h : cs.map Child.Placed.child = cs'.map Child.Placed.child) (stop stop' : Span) :
    (childrenError? rule cs stop).map ReadError.cause =
      (childrenError? rule cs' stop').map ReadError.cause := by
  have hunplaced : cs.map Child.Placed.unplaced = cs'.map Child.Placed.unplaced := by
    have hplaced := congrArg (List.map fun c => Child.Placed.mk c .nowhere) h
    rwa [List.map_map, List.map_map] at hplaced
  rw [← childrenError?_unplaced, hunplaced, childrenError?_unplaced]

theorem readOrdinary_agree (name : String) {ts ts' : List Token}
    (h : ts.map Token.kind = ts'.map Token.kind) :
    Agree (· = ·) (readOrdinary name (.ofTokens ts)) (readOrdinary name (.ofTokens ts')) := by
  have hkinds : Token.lineKinds ts = Token.lineKinds ts' := by
    rw [Token.lineKinds, Token.lineKinds, h]
  by_cases hlist : ∃ cs, Child.ListDerives (Token.lineKinds ts) cs
  · obtain ⟨cs, hcs⟩ := hlist
    obtain ⟨placed, hplaced, hchildren⟩ := hcs.exists_placed
    rw [hkinds] at hcs
    obtain ⟨placed', hplaced', hchildren'⟩ := hcs.exists_placed
    rw [readOrdinary_eq ((hplaced placed).mpr rfl), readOrdinary_eq ((hplaced' placed').mpr rfl),
      hchildren, hchildren']
    have hcause := childrenError?_cause name (hchildren.trans hchildren'.symm)
      (Place.lineEnd ts).span (Place.lineEnd ts').span
    cases herror : childrenError? name placed (Place.lineEnd ts).span with
    | none =>
        rw [herror] at hcause
        rw [Option.map_eq_none_iff.mp hcause.symm]
        exact .ok rfl
    | some e =>
        rw [herror] at hcause
        obtain ⟨e', he', hsame⟩ := Option.map_eq_some_iff.mp hcause.symm
        rw [he']
        exact .error (congrArg ReadError.Cause.code hsame.symm)
  · obtain ⟨p, expected, -, hfails⟩ := Child.ofTokens_fails hlist
    rw [hkinds] at hlist
    obtain ⟨p', expected', -, hfails'⟩ := Child.ofTokens_fails hlist
    rw [readOrdinary_error hfails, readOrdinary_error hfails']
    exact .error rfl

theorem ofTokens_agree (name : String) (span span' : Span) {ts ts' : List Token}
    (h : ts.map Token.kind = ts'.map Token.kind) :
    Agree (· = ·) (ofTokens name span ts) (ofTokens name span' ts') := by
  have hkinds : (Place.ofTokens ts).kinds = (Place.ofTokens ts').kinds := h
  refine (requireCapital_agree name span span').bind fun _ _ _ => ?_
  have hstarts : startsAbstract (.ofTokens ts) = startsAbstract (.ofTokens ts') := by
    rw [Bool.eq_iff_iff, startsAbstract_iff, startsAbstract_iff, hkinds]
  dsimp only
  rw [hstarts]
  split
  · exact readAbstract_agree name hkinds
  · exact readOrdinary_agree name h

end NodeRule

namespace LiteralRule

theorem readParts_agree (rule : String) (done : List String) {p q : Place}
    (h : p.kinds = q.kinds) :
    Agree Place.SameRead (readParts rule done p) (readParts rule done q) := by
  have hkind := Place.kind_congr h
  have hforward := Place.kinds_forward_congr h
  have hnext := Place.kind_congr hforward
  cases htext : p.kind.template? with
  | none =>
      by_cases hstop : p.kind = .stop
      · rw [readParts_stop rule done hstop, readParts_stop rule done (hkind ▸ hstop)]
        exact .error rfl
      · rw [readParts_mismatch rule done htext hstop,
          readParts_mismatch rule done (hkind ▸ htext) (hkind ▸ hstop)]
        exact .error rfl
  | some text =>
      by_cases hcomma : p.forward.kind = .comma
      · have hfirst := Place.length_forward_le p
        have hsecond := Place.length_forward (p := p.forward) (by simp [hcomma])
        rw [readParts_comma rule done htext (if_pos hcomma),
          readParts_comma rule done (hkind ▸ htext) (if_pos (hnext ▸ hcomma))]
        split
        · exact .error rfl
        · exact readParts_agree rule _ (Place.kinds_forward_congr hforward)
      · rw [readParts_noComma rule done htext (if_neg hcomma),
          readParts_noComma rule done (hkind ▸ htext) (if_neg (hnext ▸ hcomma))]
        exact .ok ⟨rfl, hforward⟩
termination_by p.unread.length

theorem ofTokens_agree (name : String) (span span' : Span) {ts ts' : List Token}
    (h : ts.map Token.kind = ts'.map Token.kind) :
    Agree (· = ·) (ofTokens name span ts) (ofTokens name span' ts') := by
  refine (requireCapital_agree name span span').bind fun _ _ _ => ?_
  refine (readParts_agree name [] (p := .ofTokens ts) (q := .ofTokens ts') h).bind ?_
  rintro ⟨parts, p⟩ ⟨parts', q⟩ ⟨rfl, hrest⟩
  refine (Place.demandEnd_agree hrest).bind fun _ _ _ => ?_
  dsimp only
  split
  · exact .ok rfl
  · exact .error rfl

end LiteralRule

namespace Rule

theorem ofTokens_agree (name : String) (span span' : Span) {ts ts' : List Token}
    (h : ts.map Token.kind = ts'.map Token.kind) :
    Agree (· = ·) (ofTokens name span ts) (ofTokens name span' ts') := by
  have hhead : ts.head?.any (·.kind.isTemplate) = ts'.head?.any (·.kind.isTemplate) := by
    have hany := congrArg (fun ks => ks.head?.any Token.Kind.isTemplate) h
    simpa [List.head?_map, Option.any_map] using hany
  rw [ofTokens, ofTokens, hhead]
  split
  · exact (LiteralRule.ofTokens_agree name span span' h).map fun _ _ he => congrArg literal he
  · exact (NodeRule.ofTokens_agree name span span' h).map fun _ _ he => congrArg node he

end Rule

end NodeRules
