import NodeRules.Hole
import NodeRules.Text.Quoted

namespace NodeRules

inductive Multiplicity
  | one
  | optional
  | list
deriving DecidableEq

def Multiplicity.render : Multiplicity → String
  | one => ""
  | optional => "?"
  | list => "*"

inductive Descriptor.Data
  | hole (hole : Hole)
  | text (value : String)
deriving DecidableEq

def Descriptor.Data.render : Descriptor.Data → String
  | hole h => h.render
  | text value => Text.Quoted.render value

/-- A reference to a type, written `[tag@]Type[(parameters)][<data>][?|*]`. -/
structure Descriptor where
  tag : Option String
  typeName : String
  parameters : List Descriptor
  data : Option Descriptor.Data
  multiplicity : Multiplicity

namespace Descriptor

def plain (typeName : String) (multiplicity : Multiplicity) : Descriptor :=
  ⟨none, typeName, [], none, multiplicity⟩

mutual

def decEq : (a b : Descriptor) → Decidable (a = b)
  | ⟨t, n, ps, d, m⟩, ⟨t', n', ps', d', m'⟩ =>
    if h : t = t' ∧ n = n' ∧ d = d' ∧ m = m' then
      match decEqAll ps ps' with
      | .isTrue hp => .isTrue (by simp [h, hp])
      | .isFalse hp => .isFalse fun e => hp (by injection e)
    else .isFalse fun e => h (by injection e; simp_all)

def decEqAll : (as bs : List Descriptor) → Decidable (as = bs)
  | [], [] => .isTrue rfl
  | [], _ :: _ => .isFalse (by simp)
  | _ :: _, [] => .isFalse (by simp)
  | a :: as, b :: bs =>
    match decEq a b, decEqAll as bs with
    | .isTrue h, .isTrue hs => .isTrue (by rw [h, hs])
    | .isFalse h, _ => .isFalse fun e => h (by injection e)
    | _, .isFalse hs => .isFalse fun e => hs (by injection e)

end

instance : DecidableEq Descriptor := decEq

def isDecorated (d : Descriptor) : Bool :=
  d.tag.isSome || !d.parameters.isEmpty || d.data.isSome

def isOptional (d : Descriptor) : Bool := d.multiplicity == .optional

def isList (d : Descriptor) : Bool := d.multiplicity == .list

def isRequired (d : Descriptor) : Bool := d.multiplicity == .one

def renderTag : Option String → String
  | none => ""
  | some tag => tag ++ "@"

def renderData : Option Data → String
  | none => ""
  | some data => "<" ++ data.render ++ ">"

mutual

def render : Descriptor → String
  | ⟨tag, typeName, parameters, data, multiplicity⟩ =>
    renderTag tag ++ typeName ++ renderParameters parameters ++ renderData data ++
      multiplicity.render

def renderParameters : List Descriptor → String
  | [] => ""
  | d :: ds => "(" ++ d.render ++ renderMore ds ++ ")"

def renderMore : List Descriptor → String
  | [] => ""
  | d :: ds => ", " ++ d.render ++ renderMore ds

end

end Descriptor

inductive Child
  | empty
  | descriptor (descriptor : Descriptor)
deriving DecidableEq

namespace Child

def descriptor? : Child → Option Descriptor
  | empty => none
  | descriptor d => some d

def isList (c : Child) : Bool := c.descriptor?.any Descriptor.isList

def render : Child → String
  | empty => "0"
  | descriptor d => d.render

end Child

end NodeRules
