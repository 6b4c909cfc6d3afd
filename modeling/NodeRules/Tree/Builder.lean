import NodeRules.Tree.Node

namespace NodeRules.Tree

structure Builder where
  type : NodeType
  fragment : Option Span
  children : Option (List Node)

structure BuildError where
  typeName : String
deriving DecidableEq

def BuildError.message (e : BuildError) : String :=
  "cannot create `" ++ e.typeName ++ "`: the builder is not valid"

namespace Builder

def ofType (t : NodeType) : Builder := ⟨t, none, none⟩

def setFragment (b : Builder) (fragment : Option Span) : Builder := { b with fragment }

/-- Nodes with children hold no data, so only the empty text is accepted. -/
def setData (b : Builder) (data : String) : Bool × Builder := (data == "", b)

/-- Accepts children that fit the type. Others leave the builder as it is. -/
def setChildren (b : Builder) (children : List Node) : Bool × Builder :=
  if fits b.type.children children then (true, { b with children := some children })
  else (false, b)

def isValid (b : Builder) : Bool :=
  b.children.isSome || !b.type.children.any Descriptor.isRequired

def createNode (b : Builder) : Except BuildError Node :=
  if b.isValid then .ok ⟨b.type, b.fragment, "", b.children.getD []⟩
  else .error ⟨b.type.name⟩

end Builder

end NodeRules.Tree
