import NodeRules.Token.Place

namespace NodeRules

namespace Descriptor

open Place (Step)

def readHead (p : Place) : Except ReadError (Step p (Option String × String)) :=
  match p.demandName .descriptor with
  | .error e => .error e
  | .ok ⟨first, p₁, h₁⟩ =>
    match h : p₁.take? .atSign with
    | none => .ok ⟨(none, first), p₁, h₁⟩
    | some p₂ =>
      match p₂.demandName .taggedType with
      | .error e => .error e
      | .ok ⟨second, p₃, h₃⟩ =>
        have := Place.length_take? h (by simp)
        .ok ⟨(some first, second), p₃, by omega⟩

def Data.ofKind? : Token.Kind → Option Data
  | .hole h => some (.hole h)
  | .text value => some (.text value)
  | _ => none

def readData (p : Place) : Except ReadError (Option Data × Place) :=
  match p.take? .leftAngle with
  | none => .ok (none, p)
  | some p₁ =>
    match Data.ofKind? p₁.kind with
    | none => .error (p₁.mismatch .data)
    | some data =>
      match p₁.forward.demand .rightAngle (by simp) with
      | .error e => .error e
      | .ok ⟨_, p₂, _⟩ => .ok (some data, p₂)

def readMultiplicity (p : Place) : Multiplicity × Place :=
  match p.take? .question with
  | some p₁ => (.optional, p₁)
  | none =>
    match p.take? .star with
    | some p₁ => (.list, p₁)
    | none => (.one, p)

theorem length_readData {p p' : Place} {data : Option Data} (h : readData p = .ok (data, p')) :
    p'.unread.length ≤ p.unread.length := by
  unfold readData at h
  split at h
  · cases h; exact Nat.le_refl _
  · rename_i p₁ h₁
    have := Place.length_take? h₁ (by simp)
    split at h
    · cases h
    · split at h
      · cases h
      · rename_i p₂ h₂ _
        cases h
        have := Place.length_forward_le p₁
        omega

theorem length_readMultiplicity (p : Place) :
    (readMultiplicity p).2.unread.length ≤ p.unread.length := by
  unfold readMultiplicity
  split
  · rename_i h; exact Nat.le_of_lt (Place.length_take? h (by simp))
  · split
    · rename_i h; exact Nat.le_of_lt (Place.length_take? h (by simp))
    · exact Nat.le_refl _

def readTail (tag : Option String) (typeName : String) (parameters : List Descriptor) (p : Place) :
    Except ReadError (Descriptor × Place) :=
  match readData p with
  | .error e => .error e
  | .ok (data, p₁) =>
    let (multiplicity, p₂) := readMultiplicity p₁
    .ok (⟨tag, typeName, parameters, data, multiplicity⟩, p₂)

theorem length_readTail {tag : Option String} {typeName : String} {parameters : List Descriptor}
    {p p' : Place} {d : Descriptor} (h : readTail tag typeName parameters p = .ok (d, p')) :
    p'.unread.length ≤ p.unread.length := by
  unfold readTail at h
  split at h
  · cases h
  · rename_i data p₁ h₁
    cases h
    exact Nat.le_trans (length_readMultiplicity p₁) (length_readData h₁)

mutual

/-- Reads what the rule `descriptor` of the grammar derives:

    descriptor ::= name ["@" name] ["(" descriptor {"," descriptor} ")"] ["<" data ">"] ["?" | "*"]
    data       ::= hole | text
-/
def read (p : Place) : Except ReadError (Step p Descriptor) :=
  match readHead p with
  | .error e => .error e
  | .ok ⟨(tag, typeName), p₁, h₁⟩ =>
    match h₂ : p₁.take? .leftParen with
    | none =>
      match h₃ : readTail tag typeName [] p₁ with
      | .error e => .error e
      | .ok (d, p₂) =>
        have := length_readTail h₃
        .ok ⟨d, p₂, by omega⟩
    | some p₂ =>
      have := Place.length_take? h₂ (by simp)
      match readParameters p₂ with
      | .error e => .error e
      | .ok ⟨parameters, p₃, h₃⟩ =>
        match p₃.demand .rightParen (by simp) with
        | .error e => .error e
        | .ok ⟨_, p₄, h₄⟩ =>
          match h₅ : readTail tag typeName parameters p₄ with
          | .error e => .error e
          | .ok (d, p₅) =>
            have := length_readTail h₅
            .ok ⟨d, p₅, by omega⟩
termination_by 2 * p.unread.length

def readParameters (p : Place) : Except ReadError (Step p (List Descriptor)) :=
  match read p with
  | .error e => .error e
  | .ok ⟨d, p₁, h₁⟩ =>
    match h₂ : p₁.take? .comma with
    | none => .ok ⟨[d], p₁, h₁⟩
    | some p₂ =>
      have := Place.length_take? h₂ (by simp)
      match readParameters p₂ with
      | .error e => .error e
      | .ok ⟨ds, p₃, h₃⟩ => .ok ⟨d :: ds, p₃, by omega⟩
termination_by 2 * p.unread.length + 1

end

end Descriptor

namespace Child

open Place (Step)

def read (p : Place) : Except ReadError (Step p Child) :=
  if h : p.kind = .number 0 then .ok ⟨.empty, p.forward, Place.length_forward (by simp [h])⟩
  else
    match Descriptor.read p with
    | .error e => .error e
    | .ok ⟨d, p₁, h₁⟩ => .ok ⟨.descriptor d, p₁, h₁⟩

structure Placed where
  child : Child
  span : Span

def readSome (p : Place) : Except ReadError (Step p (List Placed)) :=
  match read p with
  | .error e => .error e
  | .ok ⟨child, p₁, h₁⟩ =>
    let placed : Placed := ⟨child, p.span.cover p₁.spanBefore⟩
    match h₂ : p₁.take? .comma with
    | none => .ok ⟨[placed], p₁, h₁⟩
    | some p₂ =>
      have := Place.length_take? h₂ (by simp)
      match readSome p₂ with
      | .error e => .error e
      | .ok ⟨more, p₃, h₃⟩ => .ok ⟨placed :: more, p₃, by omega⟩
termination_by p.unread.length

def readAll (p : Place) : Except ReadError (List Placed × Place) :=
  if p.kind = .stop then .ok ([], p)
  else
    match readSome p with
    | .error e => .error e
    | .ok ⟨children, p₁, _⟩ => .ok (children, p₁)

def ofTokens (ts : List Token) : Except ReadError (List Child) := do
  let (children, p) ← readAll (.ofTokens ts)
  p.demandEnd
  return children.map Placed.child

end Child

end NodeRules
