import NodeRules.Descriptor.Basic
import NodeRules.Span

namespace NodeRules.Tree

structure NodeType where
  name : String
  children : List Descriptor
  groups : List String
deriving DecidableEq

def NodeType.belongsTo (t : NodeType) (group : String) : Bool := t.groups.contains group

structure Node where
  type : NodeType
  fragment : Option Span
  data : String
  children : List Node

namespace Node

def belongsTo (n : Node) (group : String) : Bool := n.type.belongsTo group

def renderData (data : String) : String := if data = "" then "" else "<\"" ++ data ++ "\">"

mutual

def render : Node → String
  | ⟨type, _, data, children⟩ => type.name ++ renderData data ++ renderChildren children

def renderChildren : List Node → String
  | [] => ""
  | n :: ns => "(" ++ n.render ++ renderMore ns ++ ")"

def renderMore : List Node → String
  | [] => ""
  | n :: ns => ", " ++ n.render ++ renderMore ns

end

end Node

/-- How many nodes a descriptor can take when the first `fitting` nodes belong to its group: the
most first. -/
def counts (m : Multiplicity) (fitting : Nat) : List Nat :=
  match m with
  | .one => if 0 < fitting then [1] else []
  | .optional => if 0 < fitting then [1, 0] else [0]
  | .list => (List.range (fitting + 1)).reverse

/-- Whether the nodes can be cut into one piece for each descriptor, in the same order. -/
def fits : List Descriptor → List Node → Bool
  | [], ns => ns.isEmpty
  | d :: ds, ns =>
    (counts d.multiplicity (ns.takeWhile (·.belongsTo d.typeName)).length).any fun taken =>
      fits ds (ns.drop taken)

end NodeRules.Tree
