import NodeRules.Program.Reader
import NodeRules.Proofs.Rule.Parts

namespace NodeRules

def Token.HasSpan (ts : List Token) (span : Span) : Prop :=
  span = .nowhere ∨ ∃ t ∈ ts, span = t.span

theorem Place.Reaches.hasSpan {ts : List Token} {p : Place} (h : (Place.ofTokens ts).Reaches p) :
    Token.HasSpan ts p.span := by
  obtain ⟨front, hts, -⟩ := h
  dsimp only [Place.ofTokens] at hts
  rw [Place.span, Place.current]
  cases hunread : p.unread with
  | nil => exact .inl rfl
  | cons t rest => exact .inr ⟨t, by simp [hts, hunread], rfl⟩

theorem Token.hasSpan_lineEnd (ts : List Token) : Token.HasSpan ts (Place.lineEnd ts).span := by
  have hreaches : (Place.ofTokens ts).Reaches (Place.lineEnd ts) :=
    ⟨Token.line ts, List.takeWhile_append_dropWhile.symm, by simp [Place.lineEnd, Place.ofTokens]⟩
  exact hreaches.hasSpan

theorem Token.hasSpan_of_line {ts front rest : List Token} {t : Token}
    (h : Token.line ts = front ++ t :: rest) : Token.HasSpan ts t.span := by
  have hmem : t ∈ Token.line ts := by simp [h]
  exact .inr ⟨t, (List.takeWhile_sublist _).subset hmem, rfl⟩

inductive ReadError.Cause.OfToken : ReadError.Cause → Prop
  | unexpectedToken (expected : ReadError.Expected) (found : Token.Kind) :
      OfToken (.unexpectedToken expected found)
  | nameNotCapital (name : String) : OfToken (.nameNotCapital name)
  | repeatedSubtype (rule name : String) : OfToken (.repeatedSubtype rule name)
  | missingPart (rule : String) (part : LiteralRule.Part) : OfToken (.missingPart rule part)
  | tooManyParts (rule : String) : OfToken (.tooManyParts rule)

/-- The error lies in one of the tokens. -/
structure ReadError.AtToken (ts : List Token) (e : ReadError) : Prop where
  cause : e.cause.OfToken
  span : Token.HasSpan ts e.span

theorem requireCapital_error {name : String} {span : Span} {e : ReadError}
    (h : requireCapital name span = .error e) :
    ¬ StartsCapital name ∧ e = ⟨.nameNotCapital name, span, 1⟩ := by
  rw [requireCapital] at h
  split at h
  · cases h
  · rename_i hname
    cases h
    exact ⟨mt startsCapital_iff.mpr hname, rfl⟩

namespace NodeRule

section Subtypes

variable {rule : String} {seen names : List String} {p p' : Place} {e : ReadError}

theorem readSubtypes_reaches (h : readSubtypes rule seen p = .ok (names, p')) : p.Reaches p' := by
  fun_induction readSubtypes rule seen p generalizing names p' with
  | case1 => cases h
  | case2 => cases h
  | case3 => cases h
  | case4 seen p name p₁ h₁ hname hcapital hseen htake =>
      cases h
      exact (p.demandName_reads .subtype).reaches hname
  | case5 => cases h
  | case6 seen p name p₁ h₁ hname hcapital hseen p₂ htake hlt names p₃ hread ih =>
      cases h
      have hp₁ := (p.demandName_reads .subtype).reaches hname
      exact (hp₁.trans (Place.reaches_of_take? htake)).trans (ih hread)

theorem readSubtypes_fails (h : readSubtypes rule seen p = .error e) :
    ∃ p', p.Reaches p' ∧ e.cause.OfToken ∧ e.span = p'.span := by
  fun_induction readSubtypes rule seen p with
  | case1 seen p e' hname =>
      cases h
      obtain ⟨p', expected, hp', rfl⟩ := (p.demandName_reads .subtype).exists_mismatch hname
      exact ⟨p', hp', .unexpectedToken _ _, rfl⟩
  | case2 seen p name p₁ h₁ hname e' hcapital =>
      cases h
      obtain ⟨-, rfl⟩ := requireCapital_error hcapital
      exact ⟨p, .refl p, .nameNotCapital _, rfl⟩
  | case3 seen p name p₁ h₁ hname hcapital hseen =>
      cases h
      exact ⟨p, .refl p, .repeatedSubtype _ _, rfl⟩
  | case4 => cases h
  | case5 seen p name p₁ h₁ hname hcapital hseen p₂ htake hlt e' hread ih =>
      cases h
      have hp₁ := (p.demandName_reads .subtype).reaches hname
      obtain ⟨p', hp', hcause, hspan⟩ := ih hread
      exact ⟨p', (hp₁.trans (Place.reaches_of_take? htake)).trans hp', hcause, hspan⟩
  | case6 => cases h

end Subtypes

section Lines

variable {name : String} {ts : List Token} {e : ReadError}

theorem readAbstract_fails (h : readAbstract name (.ofTokens ts) = .error e) : e.AtToken ts := by
  rcases bind_error h with hread | ⟨⟨subtypes, p⟩, hread, h⟩
  · obtain ⟨p, hp, hcause, hspan⟩ := readSubtypes_fails hread
    exact ⟨hcause, hspan ▸ hp.hasSpan⟩
  rcases bind_error h with hend | ⟨u, -, h⟩
  · obtain ⟨p', expected, hp', rfl⟩ := p.demandEnd_reads.exists_mismatch hend
    exact ⟨.unexpectedToken _ _, ((readSubtypes_reaches hread).trans hp').hasSpan⟩
  · cases h

theorem readOrdinary_refuses {placed : List Child.Placed}
    (hplaced : Child.ListPlaced (Token.line ts) placed)
    (h : readOrdinary name (.ofTokens ts) = .error e) :
    Refuses name (Place.lineEnd ts).span placed e := by
  rw [readOrdinary_eq hplaced] at h
  rw [← childrenError?_eq_some_iff]
  split at h
  · rename_i herror
    cases h
    exact herror
  · cases h

theorem readOrdinary_fails (h : readOrdinary name (.ofTokens ts) = .error e) :
    e.AtToken ts ∨ ∃ placed, Child.ListPlaced (Token.line ts) placed ∧
      Refuses name (Place.lineEnd ts).span placed e := by
  by_cases hlist : ∃ cs, Child.ListDerives (Token.lineKinds ts) cs
  · obtain ⟨cs, hcs⟩ := hlist
    obtain ⟨placed, hplaced, -⟩ := hcs.exists_placed
    have hlisted := (hplaced placed).mpr rfl
    exact .inr ⟨placed, hlisted, readOrdinary_refuses hlisted h⟩
  · obtain ⟨p, expected, hp, hfails⟩ := Child.ofTokens_fails hlist
    rw [readOrdinary_error hfails] at h
    cases h
    exact .inl ⟨.unexpectedToken _ _, hp.hasSpan⟩

end Lines

end NodeRule

theorem LiteralRule.ofTokens_fails {name : String} (hname : StartsCapital name) {span : Span}
    {ts : List Token} {e : ReadError} (h : LiteralRule.ofTokens name span ts = .error e) :
    e.AtToken ts := by
  obtain ⟨parts, hparts⟩ | ⟨index, hindex⟩ | ⟨comma, hcomma⟩ | ⟨expected, t, hunfit, herror⟩ :=
    takes_or_fails hname span ts
  · obtain ⟨r, hread, -⟩ := ofTokens_of_takes hname span hparts
    rw [h] at hread
    cases hread
  · obtain ⟨part, -, herror⟩ := ofTokens_of_lacks hname span hindex
    rw [h] at herror
    cases herror
    exact ⟨.missingPart _ _, Token.hasSpan_lineEnd ts⟩
  · rw [ofTokens_of_goesOn hname span hcomma] at h
    cases h
    obtain ⟨front, parts, rest, hline, -⟩ := hcomma
    exact ⟨.tooManyParts _, Token.hasSpan_of_line hline⟩
  · rw [h] at herror
    cases herror
    refine ⟨.unexpectedToken _ _, ?_⟩
    cases hunfit with
    | part _ _ _ hline => exact Token.hasSpan_of_line hline
    | comma _ _ _ hline => exact Token.hasSpan_of_line hline

/-- The ways in which the rule `name <- ts` is refused. -/
inductive Rule.Refused (name : String) (span : Span) (ts : List Token) : ReadError → Prop
  | name (hname : ¬ StartsCapital name) : Refused name span ts ⟨.nameNotCapital name, span, 1⟩
  | token {e : ReadError} (h : e.AtToken ts) : Refused name span ts e
  | children {e : ReadError} {placed : List Child.Placed} (hname : StartsCapital name)
      (hplaced : Child.ListPlaced (Token.line ts) placed)
      (h : NodeRule.Refuses name (Place.lineEnd ts).span placed e) : Refused name span ts e

theorem Rule.refused {name : String} {span : Span} {ts : List Token} {e : ReadError}
    (h : Rule.ofTokens name span ts = .error e) : Rule.Refused name span ts e := by
  rw [Rule.ofTokens] at h
  split at h
  · have hliteral := map_error h
    rcases bind_error hliteral with herror | ⟨u, hok, -⟩
    · obtain ⟨hname, rfl⟩ := requireCapital_error herror
      exact .name hname
    · have hname := startsCapital_iff.mp (requireCapital_ok hok)
      exact .token (LiteralRule.ofTokens_fails hname hliteral)
  · have hnode := map_error h
    rcases bind_error hnode with herror | ⟨u, hok, -⟩
    · obtain ⟨hname, rfl⟩ := requireCapital_error herror
      exact .name hname
    have hname := startsCapital_iff.mp (requireCapital_ok hok)
    by_cases hbar : NodeRule.StartsWithBar ts
    · rw [(NodeRule.ofTokens_of_capital hname span).1 hbar] at hnode
      exact .token (NodeRule.readAbstract_fails hnode)
    · rw [(NodeRule.ofTokens_of_capital hname span).2 hbar] at hnode
      rcases NodeRule.readOrdinary_fails hnode with htoken | ⟨placed, hplaced, hrefuses⟩
      · exact .token htoken
      · exact .children hname hplaced hrefuses

section Children

variable {ts : List Token} {cs : List Child}

theorem Child.Derives.exists_head {ks : List Token.Kind} {c : Child} (h : Child.Derives ks c) :
    ∃ k ks', ks = k :: ks' ∧ k.isTemplate = false := by
  cases h with
  | empty => exact ⟨_, _, rfl, rfl⟩
  | descriptor h =>
      obtain ⟨name, ks', rfl⟩ := h.exists_name
      exact ⟨_, ks', rfl, rfl⟩

theorem Child.ListDerives.head_not_template {ks : List Token.Kind} (h : Child.ListDerives ks cs) :
    ∀ k ∈ ks.head?, k.isTemplate = false := by
  cases h with
  | nothing => simp
  | some h =>
      cases h with
      | last h =>
          obtain ⟨k, ks', rfl, hk⟩ := h.exists_head
          simpa using hk
      | more h =>
          obtain ⟨k, ks', rfl, hk⟩ := h.exists_head
          simpa using hk

theorem Child.ListDerives.bar_not_mem {ks : List Token.Kind} (h : Child.ListDerives ks cs) :
    .bar ∉ ks := by
  cases h with
  | nothing => simp
  | some h => exact h.outer_not_mem (.inr rfl)

theorem NodeRule.not_startsWithBar (h : Child.ListDerives (Token.lineKinds ts) cs) :
    ¬ NodeRule.StartsWithBar ts := by
  rintro ⟨first, more, hkinds⟩
  obtain ⟨rest, hts, hrest⟩ := Token.exists_lineKinds ts
  have hbar := h.bar_not_mem
  rw [hkinds] at hts
  match Token.lineKinds ts, hts, hbar with
  | [], hts, _ =>
      subst hts
      cases hrest _ rfl
  | [k], hts, _ =>
      obtain ⟨-, rfl⟩ := List.cons.inj hts
      cases hrest _ rfl
  | k :: k' :: ks, hts, hbar =>
      simp only [List.cons_append, List.cons.injEq] at hts
      exact hbar (by simp [← hts.2.1])

theorem Rule.ofTokens_children {name : String} (hname : StartsCapital name) (span : Span)
    (h : Child.ListDerives (Token.lineKinds ts) cs) :
    Rule.ofTokens name span ts = Rule.node <$> NodeRule.readOrdinary name (.ofTokens ts) := by
  have htemplate : ts.head?.any (·.kind.isTemplate) = false := by
    have hhead := h.head_not_template
    cases ts with
    | nil => rfl
    | cons t ts =>
        by_cases hstop : t.kind = .stop
        · simp [hstop, Token.Kind.isTemplate, Token.Kind.template?]
        · simpa [Token.lineKinds, hstop] using hhead
  rw [Rule.ofTokens, htemplate, (NodeRule.ofTokens_of_capital hname span).2
    (NodeRule.not_startsWithBar h)]
  rfl

/-- The child that an ordinary rule with the children `cs` is refused for. -/
inductive NodeRule.Blames (rule : String) (cs : List Child) : ReadError.Cause → Child → Prop
  | list {c : Child} (hmany : 1 < cs.length)
      (hfirst : First (fun _ c => c.isList = true) cs c) : Blames rule cs (.listNotAlone rule) c
  | child {c : Child} {cause : ReadError.Cause}
      (halone : cs.length = 1 ∨ ∀ c ∈ cs, c.isList = false)
      (hfirst : First (fun _ c => ∃ cause, NodeRule.Offends rule cs.length c cause) cs c)
      (hcause : NodeRule.Offends rule cs.length c cause) : Blames rule cs cause c

theorem NodeRule.Refuses.exists_blamed {rule : String} {stop : Span} {placed : List Child.Placed}
    {e : ReadError} (h : NodeRule.Refuses rule stop placed e) (hne : placed ≠ []) :
    ∃ c ∈ placed, e.span = c.span ∧
      NodeRule.Blames rule (placed.map Child.Placed.child) e.cause c.child := by
  cases h with
  | nothing => exact absurd rfl hne
  | list hmany hfirst =>
      exact ⟨_, hfirst.holds.1, rfl, .list (by simpa using hmany)
        (First.map Child.Placed.child (fun c => c.isList = true) hfirst)⟩
  | child halone hfirst hcause =>
      refine ⟨_, hfirst.holds.1, rfl, .child (by simpa using halone) ?_ (by simpa using hcause)⟩
      rw [List.length_map]
      exact First.map Child.Placed.child
        (fun c => ∃ cause, Offends rule placed.length c cause) hfirst

theorem Child.SomePlaced.exists_tokens {placed : List Child.Placed}
    (h : Child.SomePlaced ts placed) :
    ∀ c ∈ placed, ∃ front mid back, ts = front ++ (mid ++ back) ∧
      Child.Derives (mid.map Token.kind) c.child ∧ c.span = Token.extent mid := by
  induction h with
  | @last ts c h =>
      intro d hd
      obtain rfl := List.mem_singleton.mp hd
      exact ⟨[], ts, [], by simp, h, rfl⟩
  | @more ts ts' comma c placed h hcomma hmore ih =>
      intro d hd
      rcases List.mem_cons.mp hd with rfl | hd
      · exact ⟨[], ts, comma :: ts', rfl, h, rfl⟩
      · obtain ⟨front, mid, back, rfl, hmid, hspan⟩ := ih d hd
        exact ⟨ts ++ comma :: front, mid, back, by simp, hmid, hspan⟩

end Children

end NodeRules
