import NodeRules.Descriptor.Basic

namespace NodeRules

/-- The declaration of a node type. It is abstract when it lists subtypes. -/
structure NodeRule where
  name : String
  children : List Child
  subtypes : List String
deriving DecidableEq

namespace NodeRule

def ordinary (name : String) (children : List Child) : NodeRule := ⟨name, children, []⟩

def abstract (name : String) (subtypes : List String) : NodeRule := ⟨name, [], subtypes⟩

def isAbstract (r : NodeRule) : Bool := !r.subtypes.isEmpty

def isEmpty (r : NodeRule) : Bool := r.children == [.empty]

def hasListChild (r : NodeRule) : Bool := r.children.any Child.isList

def descriptors (r : NodeRule) : List Descriptor := r.children.filterMap Child.descriptor?

/-- The names of the types that the rule mentions: its children, then its subtypes. -/
def references (r : NodeRule) : List String := r.descriptors.map Descriptor.typeName ++ r.subtypes

def render (r : NodeRule) : String :=
  r.name ++ " <- " ++
    if r.isAbstract then String.intercalate " | " r.subtypes
    else String.intercalate ", " (r.children.map Child.render)

end NodeRule

/-- The declaration of a node that holds a value. The serializer and the parser are templates for
code that turns the value into text and back. -/
structure LiteralRule where
  name : String
  nativeType : String
  serializer : String
  parser : String
  exception : Option String
deriving DecidableEq

namespace LiteralRule

inductive Part
  | nativeType
  | serializer
  | parser
  | exception
deriving DecidableEq

def Part.render : Part → String
  | nativeType => "native type"
  | serializer => "serializer"
  | parser => "parser"
  | exception => "exception"

def Part.ofIndex : Nat → Part
  | 0 => nativeType
  | 1 => serializer
  | 2 => parser
  | _ => exception

def parts (r : LiteralRule) : List String :=
  [r.nativeType, r.serializer, r.parser] ++ r.exception.toList

def render (r : LiteralRule) : String :=
  r.name ++ " <- " ++ String.intercalate ", " (r.parts.map fun part => "$" ++ part ++ "$")

end LiteralRule

inductive Rule
  | node (rule : NodeRule)
  | literal (rule : LiteralRule)
deriving DecidableEq

namespace Rule

def name : Rule → String
  | node r => r.name
  | literal r => r.name

def node? : Rule → Option NodeRule
  | node r => some r
  | literal _ => none

def isAbstract : Rule → Bool
  | node r => r.isAbstract
  | literal _ => false

def subtypes : Rule → List String
  | node r => r.subtypes
  | literal _ => []

def references : Rule → List String
  | node r => r.references
  | literal _ => []

def render : Rule → String
  | node r => r.render
  | literal r => r.render

end Rule

end NodeRules
