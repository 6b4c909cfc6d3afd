import NodeRules.Proofs.Descriptor.Extents

namespace NodeRules

namespace Token

def upToStop : List Token → List Token
  | [] => []
  | t :: ts => if t.kind = .stop then [t] else t :: upToStop ts

/-- The tokens that a reader can see, the end of the line last. -/
def seen : List Token → List Token
  | [] => [⟨.stop, .nowhere⟩]
  | t :: ts => if t.kind = .stop then [t] else t :: seen ts

theorem seen_upToStop (ts : List Token) : seen (upToStop ts) = seen ts := by
  induction ts with
  | nil => rfl
  | cons t ts ih => by_cases ht : t.kind = .stop <;> simp [upToStop, seen, ht, ih]

theorem seen_append_stop {ts : List Token} (h : ∀ t ∈ ts, t.kind ≠ .stop) :
    seen (ts ++ [⟨.stop, .nowhere⟩]) = seen ts := by
  induction ts with
  | nil => rfl
  | cons t ts ih =>
      obtain ⟨ht, hts⟩ := List.forall_mem_cons.mp h
      simp [seen, ht, ih hts]

end Token

namespace Place

def position (p : Place) : Nat := p.read.length

/-- The places to which the steps of a reader of `ts` lead. -/
inductive Visited (ts : List Token) : Place → Prop
  | start : Visited ts (.ofTokens ts)
  | forward {p : Place} (h : Visited ts p) : Visited ts p.forward

namespace Visited

variable {ts : List Token} {p : Place} (h : Visited ts p)

include h

theorem tokens_eq : p.read.reverse ++ p.unread = ts := by
  have hreaches : (Place.ofTokens ts).Reaches p := by
    induction h with
    | start => exact .refl _
    | forward _ ih => exact ih.trans (reaches_forward _)
  obtain ⟨front, hunread, hread⟩ := hreaches
  rw [hread, show ts = front ++ p.unread from hunread]
  simp [Place.ofTokens]

theorem position_le : p.position ≤ ts.length := by
  rw [← h.tokens_eq, List.length_append, List.length_reverse, position]
  omega

theorem current_eq : p.current = ts.getD p.position ⟨.stop, .nowhere⟩ := by
  rw [← h.tokens_eq, position, ← List.length_reverse, List.getD_eq_getElem?_getD,
    List.getElem?_append_right le_rfl, Nat.sub_self, current]
  cases p.unread <;> rfl

theorem spanBefore_eq (hpos : 0 < p.position) :
    ∃ t, ts[p.position - 1]? = some t ∧ p.spanBefore = t.span := by
  have htokens := h.tokens_eq
  cases hread : p.read with
  | nil => simp [position, hread] at hpos
  | cons t front =>
      refine ⟨t, ?_, by rw [spanBefore, hread, List.headD_cons]⟩
      rw [← htokens, position, hread]
      simp

end Visited

/-- Readers of `ts` and of `ts'` come to places where they have read the same tokens and see the
same ones. -/
structure Alike (ts ts' : List Token) (p q : Place) : Prop where
  visited : Visited ts p
  visited' : Visited ts' q
  read : p.read = q.read
  seen : Token.seen p.unread = Token.seen q.unread

theorem alike_start {ts ts' : List Token} (h : Token.seen ts = Token.seen ts') :
    Alike ts ts' (.ofTokens ts) (.ofTokens ts') :=
  ⟨.start, .start, rfl, h⟩

theorem alike_self {ts : List Token} {p : Place} (h : Visited ts p) : Alike ts ts p p :=
  ⟨h, h, rfl, rfl⟩

theorem head?_seen (p : Place) : (Token.seen p.unread).head? = some p.current := by
  cases hu : p.unread with
  | nil => simp [Token.seen, current, hu]
  | cons t ts => by_cases ht : t.kind = .stop <;> simp [Token.seen, current, hu, ht]

theorem read_forward (p : Place) :
    p.forward.read = if p.kind = .stop then p.read else p.current :: p.read := by
  cases hu : p.unread with
  | nil => simp [forward, kind, current, hu]
  | cons t ts => by_cases ht : t.kind = .stop <;> simp [forward, kind, current, hu, ht]

theorem seen_forward (p : Place) : Token.seen p.forward.unread =
    if p.kind = .stop then Token.seen p.unread else (Token.seen p.unread).tail := by
  cases hu : p.unread with
  | nil => simp [forward, kind, current, hu]
  | cons t ts => by_cases ht : t.kind = .stop <;> simp [forward, kind, current, Token.seen, hu, ht]

theorem kindAfter_eq_forward {p : Place} (h : p.kind ≠ .stop) : p.kindAfter = p.forward.kind := by
  cases hu : p.unread with
  | nil => simp [kind, current, hu] at h
  | cons t ts =>
      have ht : t.kind ≠ .stop := by simpa [kind, current, hu] using h
      simp [kindAfter, forward, kind, current, hu, ht]

namespace Alike

variable {ts ts' : List Token} {p q : Place} (h : Alike ts ts' p q)

include h

theorem current : p.current = q.current := by
  have hhead := p.head?_seen
  rw [h.seen, q.head?_seen] at hhead
  exact (Option.some.inj hhead).symm

theorem kind : p.kind = q.kind := congrArg Token.kind h.current

theorem span : p.span = q.span := congrArg Token.span h.current

theorem spanBefore : p.spanBefore = q.spanBefore := by
  rw [Place.spanBefore, Place.spanBefore, h.read]

theorem mismatch (expected : ReadError.Expected) : p.mismatch expected = q.mismatch expected := by
  rw [Place.mismatch, Place.mismatch, h.kind, h.span]

theorem forward : Alike ts ts' p.forward q.forward where
  visited := h.visited.forward
  visited' := h.visited'.forward
  read := by rw [read_forward, read_forward, h.kind, h.read, h.current]
  seen := by rw [seen_forward, seen_forward, h.kind, h.seen]

theorem kindAfter (hstop : p.kind ≠ .stop) : p.kindAfter = q.kindAfter := by
  rw [kindAfter_eq_forward hstop, kindAfter_eq_forward (h.kind ▸ hstop), h.forward.kind]

theorem demandEnd : p.demandEnd = q.demandEnd := by
  rw [Place.demandEnd, Place.demandEnd, h.kind, h.mismatch]

end Alike

/-- Both results are one value at places that are alike, or one error. -/
inductive SameResult (ts ts' : List Token) {α : Type} :
    Except ReadError (α × Place) → Except ReadError (α × Place) → Prop
  | ok {p q : Place} (a : α) (h : Alike ts ts' p q) : SameResult ts ts' (.ok (a, p)) (.ok (a, q))
  | error (e : ReadError) : SameResult ts ts' (.error e) (.error e)

namespace SameResult

variable {ts ts' : List Token} {α β : Type} {x y : Except ReadError (α × Place)}

theorem visited (h : SameResult ts ts' x y) {a : α} {p : Place} (hx : x = .ok (a, p)) :
    Visited ts p := by
  subst hx
  cases h with
  | ok _ h => exact h.visited

theorem bind (h : SameResult ts ts' x y) {f : α × Place → Except ReadError (β × Place)}
    (hnext : ∀ a p q, x = .ok (a, p) → Alike ts ts' p q →
      SameResult ts ts' (f (a, p)) (f (a, q))) :
    SameResult ts ts' (x >>= f) (y >>= f) := by
  cases h with
  | ok a h => exact hnext a _ _ rfl h
  | error e => exact .error e

theorem map (h : SameResult ts ts' x y) {f : α × Place → β × Place}
    (hf : ∀ a p q, Alike ts ts' p q → SameResult ts ts' (.ok (f (a, p))) (.ok (f (a, q)))) :
    SameResult ts ts' (f <$> x) (f <$> y) := by
  cases h with
  | ok a h => exact hf a _ _ h
  | error e => exact .error e

theorem bind_eq (h : SameResult ts ts' x y) {f : α × Place → Except ReadError β}
    (hnext : ∀ a p q, Alike ts ts' p q → f (a, p) = f (a, q)) : x >>= f = y >>= f := by
  cases h with
  | ok a h => exact hnext a _ _ h
  | error e => rfl

end SameResult

namespace Step

variable {p p' : Place} {α : Type} {a : α}

def pair (s : Step p α) : α × Place := (s.value, s.rest)

theorem shorter_of_pair {x : Except ReadError (Step p α)} (h : pair <$> x = .ok (a, p')) :
    p'.unread.length < p.unread.length := by
  obtain ⟨s, -, hs⟩ := map_ok h
  cases hs
  exact s.shorter

end Step

theorem kind_ne_of_take? {p : Place} {k : Token.Kind} (h : p.take? k = none) : p.kind ≠ k := by
  intro hk
  rw [take?, if_pos hk] at h
  cases h

theorem demand_step (p : Place) (k : Token.Kind) (hk : k ≠ .stop) : Step.pair <$> p.demand k hk =
    if p.kind = k then .ok ((), p.forward) else .error (p.mismatch (.token k)) := by
  rw [demand]
  split
  · rename_i htake
    obtain ⟨hkind, rfl⟩ := forward_of_take? htake
    rw [if_pos hkind]
    rfl
  · rename_i htake
    rw [if_neg (kind_ne_of_take? htake)]
    rfl

theorem demandName_step (p : Place) (expected : ReadError.Expected) :
    Step.pair <$> p.demandName expected =
      match p.kind with
      | .name value => .ok (value, p.forward)
      | _ => .error (p.mismatch expected) := by
  rw [demandName]
  split
  · rename_i value hname
    change Except.ok (value, p.forward) = _
    rw [hname]
  · rename_i hnone
    split
    · rename_i hname
      exact absurd hname (hnone _)
    · rfl

section Alike

variable {ts ts' : List Token} {p q : Place} (h : Alike ts ts' p q)

include h

theorem demand_same (k : Token.Kind) (hk : k ≠ .stop) :
    SameResult ts ts' (Step.pair <$> p.demand k hk) (Step.pair <$> q.demand k hk) := by
  rw [demand_step, demand_step, h.kind, h.mismatch]
  split
  · exact .ok _ h.forward
  · exact .error _

theorem demandName_same (expected : ReadError.Expected) :
    SameResult ts ts' (Step.pair <$> p.demandName expected)
      (Step.pair <$> q.demandName expected) := by
  rw [demandName_step, demandName_step, h.kind, h.mismatch]
  split
  · exact .ok _ h.forward
  · exact .error _

end Alike

end Place

end NodeRules
