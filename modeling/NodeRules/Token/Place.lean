import NodeRules.Rule.Error

namespace NodeRules

structure Place where
  /-- The tokens in front of the place, the nearest first. -/
  read : List Token
  unread : List Token

namespace Place

def ofTokens (ts : List Token) : Place := ⟨[], ts⟩

def current (p : Place) : Token := p.unread.headD ⟨.stop, .nowhere⟩

def kind (p : Place) : Token.Kind := p.current.kind

def span (p : Place) : Span := p.current.span

def kindAfter (p : Place) : Token.Kind := (p.unread.tail.headD ⟨.stop, .nowhere⟩).kind

def spanBefore (p : Place) : Span := (p.read.headD ⟨.stop, .nowhere⟩).span

def forward (p : Place) : Place :=
  match p.unread with
  | [] => p
  | t :: ts => if t.kind = .stop then p else ⟨t :: p.read, ts⟩

def take? (p : Place) (k : Token.Kind) : Option Place := if p.kind = k then some p.forward else none

def mismatch (p : Place) (expected : ReadError.Expected) : ReadError :=
  ⟨.unexpectedToken expected p.kind, p.span, 1⟩

theorem length_forward {p : Place} (h : p.kind ≠ .stop) :
    p.forward.unread.length < p.unread.length := by
  unfold forward
  split
  · rename_i hu; simp [kind, current, hu] at h
  · rename_i t ts hu; simp [kind, current, hu] at h ⊢; simp [h]

theorem length_forward_le (p : Place) : p.forward.unread.length ≤ p.unread.length := by
  by_cases h : p.kind = .stop
  · unfold forward
    split
    · exact Nat.le_refl _
    · split <;> simp_all
  · exact Nat.le_of_lt (length_forward h)

theorem length_take? {p p' : Place} {k : Token.Kind} (h : p.take? k = some p') (hk : k ≠ .stop) :
    p'.unread.length < p.unread.length := by
  unfold take? at h
  split at h
  · rename_i he
    obtain rfl := Option.some.inj h
    exact length_forward (he ▸ hk)
  · cases h

/-- A value that was read, and the place behind it: at least one token behind `p`. -/
structure Step (p : Place) (α : Type) where
  value : α
  rest : Place
  shorter : rest.unread.length < p.unread.length

def demand (p : Place) (k : Token.Kind) (hk : k ≠ .stop) :
    Except ReadError (Step p Unit) :=
  match h : p.take? k with
  | some p' => .ok ⟨(), p', length_take? h hk⟩
  | none => .error (p.mismatch (.token k))

def demandName (p : Place) (expected : ReadError.Expected) : Except ReadError (Step p String) :=
  match h : p.kind with
  | .name value => .ok ⟨value, p.forward, length_forward (by simp [h])⟩
  | _ => .error (p.mismatch expected)

def demandEnd (p : Place) : Except ReadError Unit :=
  if p.kind = .stop then .ok () else .error (p.mismatch .endOfList)

end Place

end NodeRules
