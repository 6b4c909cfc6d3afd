import Mathlib.Data.List.TakeWhile
import NodeRules.Proofs.Descriptor.Children

namespace NodeRules

namespace Place

variable {p p' p'' : Place}

/-- The tokens between two places were read one after another. -/
def Reaches (p p' : Place) : Prop :=
  ∃ ts, p.unread = ts ++ p'.unread ∧ p'.read = ts.reverse ++ p.read

theorem Reaches.refl (p : Place) : p.Reaches p := ⟨[], rfl, rfl⟩

theorem Reaches.trans (h : p.Reaches p') (h' : p'.Reaches p'') : p.Reaches p'' := by
  obtain ⟨ts, hu, hr⟩ := h
  obtain ⟨ts', hu', hr'⟩ := h'
  refine ⟨ts ++ ts', ?_, ?_⟩
  · rw [hu, hu', List.append_assoc]
  · rw [hr', hr, List.reverse_append, List.append_assoc]

theorem reaches_forward (p : Place) : p.Reaches p.forward := by
  rw [forward]
  split
  · exact .refl p
  · rename_i t ts hu
    split
    · exact .refl p
    · exact ⟨[t], hu, rfl⟩

theorem reaches_of_take? {k : Token.Kind} (h : p.take? k = some p') : p.Reaches p' := by
  rw [(forward_of_take? h).2]
  exact p.reaches_forward

theorem take?_cons {done ts : List Token} {t : Token} (ht : t.kind ≠ .stop) :
    (Place.mk done (t :: ts)).take? t.kind = some ⟨t :: done, ts⟩ := by
  simp [take?, kind, current, forward, ht]

/-- The result of a reader that started at `p`: it is at a place behind, or it failed at one. -/
inductive Reads (p : Place) {α : Type} (rest : α → Place) : Except ReadError α → Prop
  | ok {a : α} (h : p.Reaches (rest a)) : Reads p rest (.ok a)
  | error {p' : Place} {expected : ReadError.Expected} (h : p.Reaches p') :
      Reads p rest (.error (p'.mismatch expected))

namespace Reads

variable {α β : Type} {rest : α → Place} {rest' : β → Place} {x : Except ReadError α}

theorem reaches {a : α} (h : Reads p rest x) (hx : x = .ok a) : p.Reaches (rest a) := by
  subst hx
  cases h with
  | ok h => exact h

theorem fails {e : ReadError} (h : Reads p rest x) (hx : x = .error e) (hp : p'.Reaches p) :
    Reads p' rest' (.error e) := by
  subst hx
  cases h with
  | error h => exact .error (hp.trans h)

theorem exists_mismatch {e : ReadError} (h : Reads p rest x) (hx : x = .error e) :
    ∃ p' expected, p.Reaches p' ∧ e = p'.mismatch expected := by
  subst hx
  cases h with
  | error h => exact ⟨_, _, h, rfl⟩

end Reads

theorem demand_reads (p : Place) (k : Token.Kind) (hk : k ≠ .stop) :
    Reads p Step.rest (p.demand k hk) := by
  rw [demand]
  split
  · rename_i htake
    exact .ok (reaches_of_take? htake)
  · exact .error (.refl p)

theorem demandName_reads (p : Place) (expected : ReadError.Expected) :
    Reads p Step.rest (p.demandName expected) := by
  rw [demandName]
  split
  · exact .ok p.reaches_forward
  · exact .error (.refl p)

theorem demandEnd_reads (p : Place) : Reads p (fun _ => p) p.demandEnd := by
  rw [demandEnd]
  split
  · exact .ok (.refl p)
  · exact .error (.refl p)

end Place

namespace Descriptor

open Place (Reads)

theorem readHead_reads (p : Place) : Reads p Place.Step.rest (readHead p) := by
  have hfirst := p.demandName_reads .descriptor
  rw [readHead]
  split
  · rename_i herror
    exact hfirst.fails herror (.refl p)
  rename_i first p₁ h₁ hok
  have hp₁ := hfirst.reaches hok
  split
  · exact .ok hp₁
  rename_i p₂ htake
  have hp₂ := hp₁.trans (Place.reaches_of_take? htake)
  have hsecond := p₂.demandName_reads .taggedType
  split
  · rename_i herror
    exact hsecond.fails herror hp₂
  · rename_i hok
    exact .ok (hp₂.trans (hsecond.reaches hok))

theorem readData_reads (p : Place) : Reads p Prod.snd (readData p) := by
  rw [readData]
  split
  · exact .ok (.refl p)
  rename_i p₁ htake
  have hp₁ := Place.reaches_of_take? htake
  split
  · exact .error hp₁
  have hp₂ := hp₁.trans p₁.reaches_forward
  have hclose := p₁.forward.demand_reads .rightAngle (by simp)
  split
  · rename_i herror
    exact hclose.fails herror hp₂
  · rename_i hok
    exact .ok (hp₂.trans (hclose.reaches hok))

theorem reaches_readMultiplicity (p : Place) : p.Reaches (readMultiplicity p).2 := by
  rw [readMultiplicity]
  split
  · rename_i htake
    exact Place.reaches_of_take? htake
  split
  · rename_i htake
    exact Place.reaches_of_take? htake
  · exact .refl p

theorem readTail_reads (tag : Option String) (typeName : String) (ds : List Descriptor)
    (p : Place) : Reads p Prod.snd (readTail tag typeName ds p) := by
  have hdata := readData_reads p
  rw [readTail]
  split
  · rename_i herror
    exact hdata.fails herror (.refl p)
  · rename_i data p₁ hok
    exact .ok ((hdata.reaches hok).trans (reaches_readMultiplicity p₁))

mutual

theorem read_reads (p : Place) : Reads p Place.Step.rest (read p) := by
  have hhead := readHead_reads p
  rw [read]
  split
  · rename_i herror
    exact hhead.fails herror (.refl p)
  rename_i tag typeName p₁ h₁ hok
  have hp₁ := hhead.reaches hok
  split
  · have htail := readTail_reads tag typeName [] p₁
    split
    · rename_i herror
      exact htail.fails herror hp₁
    · rename_i hok
      exact .ok (hp₁.trans (htail.reaches hok))
  rename_i p₂ htake
  have hlt := Place.length_take? htake (by simp)
  have hp₂ := hp₁.trans (Place.reaches_of_take? htake)
  have hparameters := readParameters_reads p₂
  dsimp only
  split
  · rename_i herror
    exact hparameters.fails herror hp₂
  rename_i ds p₃ h₃ hok
  have hp₃ := hp₂.trans (hparameters.reaches hok)
  have hclose := p₃.demand_reads .rightParen (by simp)
  split
  · rename_i herror
    exact hclose.fails herror hp₃
  rename_i p₄ h₄ hok
  have hp₄ := hp₃.trans (hclose.reaches hok)
  have htail := readTail_reads tag typeName ds p₄
  split
  · rename_i herror
    exact htail.fails herror hp₄
  · rename_i hok
    exact .ok (hp₄.trans (htail.reaches hok))
termination_by 2 * p.unread.length

theorem readParameters_reads (p : Place) : Reads p Place.Step.rest (readParameters p) := by
  have hread := read_reads p
  rw [readParameters]
  split
  · rename_i herror
    exact hread.fails herror (.refl p)
  rename_i d p₁ h₁ hok
  have hp₁ := hread.reaches hok
  split
  · exact .ok hp₁
  rename_i p₂ htake
  have hlt := Place.length_take? htake (by simp)
  have hp₂ := hp₁.trans (Place.reaches_of_take? htake)
  have hmore := readParameters_reads p₂
  dsimp only
  split
  · rename_i herror
    exact hmore.fails herror hp₂
  · rename_i hok
    exact .ok (hp₂.trans (hmore.reaches hok))
termination_by 2 * p.unread.length + 1

end

end Descriptor

namespace Child

open Place (Reads)

theorem read_reads (p : Place) : Reads p Place.Step.rest (read p) := by
  have hread := Descriptor.read_reads p
  rw [read]
  split
  · exact .ok p.reaches_forward
  split
  · rename_i herror
    exact hread.fails herror (.refl p)
  · rename_i hok
    exact .ok (hread.reaches hok)

theorem readSome_reads (p : Place) : Reads p Place.Step.rest (readSome p) := by
  fun_induction readSome p with
  | case1 p e herror => exact (read_reads p).fails herror (.refl p)
  | case2 p child p₁ h₁ hok => exact .ok ((read_reads p).reaches hok)
  | case3 p child p₁ h₁ hok p₂ htake hlt e herror ih =>
      have hp₂ := ((read_reads p).reaches hok).trans (Place.reaches_of_take? htake)
      exact ih.fails herror hp₂
  | case4 p child p₁ h₁ hok placed p₂ htake hlt more p₃ h₃ hmore ih =>
      have hp₂ := ((read_reads p).reaches hok).trans (Place.reaches_of_take? htake)
      exact .ok (hp₂.trans (ih.reaches hmore))

theorem readAll_reads (p : Place) : Reads p Prod.snd (readAll p) := by
  have hsome := readSome_reads p
  rw [readAll]
  split
  · exact .ok (.refl p)
  split
  · rename_i herror
    exact hsome.fails herror (.refl p)
  · rename_i hok
    exact .ok (hsome.reaches hok)

end Child

namespace Token

def line (ts : List Token) : List Token := ts.takeWhile (·.kind ≠ .stop)

def extent (ts : List Token) : Span :=
  (ts.headD ⟨.stop, .nowhere⟩).span.cover (ts.getLastD ⟨.stop, .nowhere⟩).span

theorem map_kind_line (ts : List Token) : (line ts).map Token.kind = lineKinds ts := by
  rw [line, lineKinds, List.takeWhile_map]
  rfl

end Token

def Place.lineEnd (ts : List Token) : Place :=
  ⟨(Token.line ts).reverse, ts.dropWhile (·.kind ≠ .stop)⟩

theorem Place.head?_kinds_lineEnd (ts : List Token) :
    ∀ k ∈ (Place.lineEnd ts).kinds.head?, k = .stop := by
  intro k hk
  have hnot := List.head?_dropWhile_not (fun t : Token => decide (t.kind ≠ .stop)) ts
  rw [kinds, List.head?_map] at hk
  obtain ⟨t, ht, rfl⟩ := Option.map_eq_some_iff.mp hk
  dsimp only [lineEnd] at ht
  rw [ht] at hnot
  simpa using hnot

theorem Place.ofTokens_eq (ts : List Token) :
    Place.ofTokens ts = ⟨[], Token.line ts ++ (Place.lineEnd ts).unread⟩ := by
  rw [Token.line, Place.lineEnd, List.takeWhile_append_dropWhile]
  rfl

theorem Place.kind_lineEnd (ts : List Token) : (Place.lineEnd ts).kind = .stop :=
  Place.kind_eq_stop_iff.mpr (Place.head?_kinds_lineEnd ts)

theorem Token.ne_stop_of_line {ts : List Token} {t : Token} (h : t ∈ Token.line ts) :
    t.kind ≠ .stop := by
  simpa using List.mem_takeWhile_imp h

namespace Child

/-- One child or more with commas between them, each placed where its tokens are. -/
inductive SomePlaced : List Token → List Placed → Prop
  | last {ts : List Token} {c : Child} (h : Derives (ts.map Token.kind) c) :
      SomePlaced ts [⟨c, Token.extent ts⟩]
  | more {ts ts' : List Token} {comma : Token} {c : Child} {placed : List Placed}
      (h : Derives (ts.map Token.kind) c) (hcomma : comma.kind = .comma)
      (hmore : SomePlaced ts' placed) :
      SomePlaced (ts ++ comma :: ts') (⟨c, Token.extent ts⟩ :: placed)

inductive ListPlaced : List Token → List Placed → Prop
  | nothing : ListPlaced [] []
  | some {ts : List Token} {placed : List Placed} (h : SomePlaced ts placed) : ListPlaced ts placed

theorem SomePlaced.someDerive {ts : List Token} {placed : List Placed} (h : SomePlaced ts placed) :
    SomeDerive (ts.map Token.kind) (placed.map Placed.child) := by
  induction h with
  | last h => exact .last h
  | more h hcomma _ ih =>
      rw [List.map_append, List.map_cons, hcomma]
      exact .more h ih

theorem ListPlaced.listDerives {ts : List Token} {placed : List Placed} (h : ListPlaced ts placed) :
    ListDerives (ts.map Token.kind) (placed.map Placed.child) := by
  cases h with
  | nothing => exact .nothing
  | some h => exact .some h.someDerive

theorem SomeDerive.exists_placed {ks : List Token.Kind} {cs : List Child} (h : SomeDerive ks cs)
    {ts : List Token} (hts : ts.map Token.kind = ks) :
    ∃ placed, SomePlaced ts placed ∧ placed.map Placed.child = cs := by
  induction h generalizing ts with
  | last h =>
      subst hts
      exact ⟨_, .last h, rfl⟩
  | more h _ ih =>
      obtain ⟨front, back, rfl, rfl, hback⟩ := List.map_eq_append_iff.mp hts
      obtain ⟨comma, ts', rfl, hcomma, hts'⟩ := List.map_eq_cons_iff.mp hback
      obtain ⟨placed, hplaced, rfl⟩ := ih hts'
      exact ⟨_, .more h hcomma hplaced, rfl⟩

theorem Derives.ne_nil {ks : List Token.Kind} {c : Child} (h : Derives ks c) : ks ≠ [] :=
  (SomeDerive.last h).ne_nil

section Complete

variable {ts rest : List Token}

theorem read_eq (done : List Token) {c : Child} (h : Derives (ts.map Token.kind) c)
    (hrest : Descriptor.Follows (rest.map Token.kind)) :
    ∃ hlt, read ⟨done, ts ++ rest⟩ = .ok ⟨c, ⟨ts.reverse ++ done, rest⟩, hlt⟩ := by
  have hkinds : (Place.mk done (ts ++ rest)).kinds = ts.map Token.kind ++ rest.map Token.kind :=
    List.map_append
  obtain ⟨⟨c, ⟨done', rest'⟩, hlt⟩, hread, rfl, hstep⟩ := read_complete h hkinds hrest
  obtain ⟨ts', hunread, hdone⟩ := (read_reads _).reaches hread
  dsimp only [Place.kinds] at hunread hdone hstep
  have hlength : rest.length = rest'.length := by
    simpa using (congrArg List.length hstep).symm
  obtain ⟨rfl, rfl⟩ := List.append_inj' hunread hlength
  subst hdone
  exact ⟨hlt, hread⟩

theorem extent_eq (done rest : List Token) (hts : ts ≠ []) :
    (Place.mk done (ts ++ rest)).span.cover (Place.mk (ts.reverse ++ done) rest).spanBefore =
      Token.extent ts := by
  have hlast (t : Token) : (ts.reverse ++ done).headD t = ts.getLastD t := by
    rw [List.headD_eq_head?_getD, List.head?_append_of_ne_nil _ (by simpa using hts),
      List.head?_reverse, List.getLastD_eq_getLast?]
  obtain ⟨t, ts, rfl⟩ := List.exists_cons_of_ne_nil hts
  rw [Token.extent, Place.spanBefore, hlast]
  rfl

theorem readSome_eq (done : List Token) {placed : List Placed} (h : SomePlaced ts placed)
    (hrest : ∀ k ∈ (rest.map Token.kind).head?, k = .stop) :
    ∃ hlt, readSome ⟨done, ts ++ rest⟩ = .ok ⟨placed, ⟨ts.reverse ++ done, rest⟩, hlt⟩ := by
  induction h generalizing done with
  | @last ts c h =>
      obtain ⟨hlt, hread⟩ := read_eq done h fun k hk => .inr (.inr (hrest k hk))
      have hcomma : (Place.mk (ts.reverse ++ done) rest).take? .comma = none := by
        apply Place.take?_of_head? _ (by simp)
        intro hk
        cases hrest _ hk
      have hne : ts ≠ [] := mt List.map_eq_nil_iff.mpr h.ne_nil
      rw [readSome_last hread hcomma, extent_eq _ _ hne]
      exact ⟨hlt, rfl⟩
  | @more ts ts' comma c placed h hcomma _ ih =>
      have hfollows : Descriptor.Follows ((comma :: (ts' ++ rest)).map Token.kind) := by
        simp [Descriptor.Follows, hcomma]
      obtain ⟨hlt, hread⟩ := read_eq done h hfollows
      have htake : (Place.mk (ts.reverse ++ done) (comma :: (ts' ++ rest))).take? .comma =
          some ⟨comma :: (ts.reverse ++ done), ts' ++ rest⟩ := by
        rw [← hcomma]
        exact Place.take?_cons (by simp [hcomma])
      obtain ⟨hlt₂, hmore⟩ := ih (comma :: (ts.reverse ++ done))
      obtain ⟨hlt', hok⟩ := readSome_more hread htake hmore
      have hne : ts ≠ [] := mt List.map_eq_nil_iff.mpr h.ne_nil
      rw [extent_eq _ _ hne] at hok
      have hback : (ts ++ comma :: ts').reverse ++ done =
          ts'.reverse ++ comma :: (ts.reverse ++ done) := by simp
      rw [List.append_assoc, List.cons_append, hback]
      exact ⟨hlt', hok⟩

end Complete

section Lines

variable {ts : List Token} {placed : List Placed}

theorem readAll_eq (h : ListPlaced (Token.line ts) placed) :
    readAll (.ofTokens ts) = .ok (placed, .lineEnd ts) := by
  have hstop := Place.head?_kinds_lineEnd ts
  rw [Place.ofTokens_eq]
  generalize hline : Token.line ts = line at h
  cases h with
  | nothing =>
      have hkind : (Place.mk [] (Place.lineEnd ts).unread).kind = .stop :=
        Place.kind_eq_stop_iff.mpr hstop
      rw [List.nil_append, readAll, if_pos hkind, Place.lineEnd, hline]
      rfl
  | some h =>
      obtain ⟨hlt, hread⟩ := readSome_eq [] h hstop
      have hkind : (Place.mk [] (line ++ (Place.lineEnd ts).unread)).kind ≠ .stop := by
        have hnot := h.someDerive.stop_not_mem
        obtain ⟨t, line, rfl⟩ :=
          List.exists_cons_of_ne_nil (mt List.map_eq_nil_iff.mpr h.someDerive.ne_nil)
        intro he
        exact hnot (by rw [← he]; exact List.mem_cons_self)
      rw [readAll, if_neg hkind, hread, List.append_nil]
      subst hline
      rfl

theorem ListDerives.exists_placed {cs : List Child} (h : ListDerives (Token.lineKinds ts) cs) :
    ∃ placed, (∀ other, ListPlaced (Token.line ts) other ↔ other = placed) ∧
      placed.map Placed.child = cs := by
  have hexists : ∃ placed, ListPlaced (Token.line ts) placed ∧ placed.map Placed.child = cs := by
    have hline := Token.map_kind_line ts
    generalize Token.lineKinds ts = ks at h hline
    cases h with
    | nothing =>
        rw [List.map_eq_nil_iff.mp hline]
        exact ⟨[], .nothing, rfl⟩
    | some h =>
        obtain ⟨placed, hplaced, hcs⟩ := h.exists_placed hline
        exact ⟨placed, .some hplaced, hcs⟩
  obtain ⟨placed, hplaced, hcs⟩ := hexists
  refine ⟨placed, fun other => ⟨fun hother => ?_, fun he => he ▸ hplaced⟩, hcs⟩
  have hread := readAll_eq hother
  rw [readAll_eq hplaced] at hread
  cases hread
  rfl

/-- Where a line lists no children, reading fails at a token that is not expected. -/
theorem ofTokens_fails (h : ¬ ∃ cs, ListDerives (Token.lineKinds ts) cs) :
    ∃ p expected, (Place.ofTokens ts).Reaches p ∧
      ofTokens ts = .error (p.mismatch expected) := by
  cases hresult : ofTokens ts with
  | ok cs => exact absurd ⟨cs, listDerives_of_ofTokens hresult⟩ h
  | error e =>
      have hall := readAll_reads (.ofTokens ts)
      rcases bind_error hresult with hread | ⟨⟨placed, p⟩, hread, hresult⟩
      · obtain ⟨p, expected, hp, rfl⟩ := hall.exists_mismatch hread
        exact ⟨p, expected, hp, rfl⟩
      rcases bind_error hresult with hend | ⟨u, -, hresult⟩
      · obtain ⟨p', expected, hp', rfl⟩ := p.demandEnd_reads.exists_mismatch hend
        exact ⟨p', expected, (hall.reaches hread).trans hp', rfl⟩
      · cases hresult

end Lines

end Child

end NodeRules
