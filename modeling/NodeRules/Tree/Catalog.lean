import NodeRules.Scope
import NodeRules.Tree.Builder

namespace NodeRules.Tree

structure Catalog where
  types : List NodeType

namespace Catalog

def typeOf (scope : Scope) (r : NodeRule) : Except ScopeError NodeType :=
  match r.descriptors.find? fun d => !scope.isDeclared d.typeName with
  | some d => .error (.unresolvedType d.typeName r.name scope.language)
  | none => .ok ⟨r.name, r.descriptors, scope.groups r.name⟩

def concrete? (rule : Rule) : Option NodeRule := rule.node?.filter fun r => !r.isAbstract

def ofScope (scope : Scope) : Except ScopeError Catalog := do
  let types ← (scope.rules.filterMap concrete?).mapM (typeOf scope)
  return ⟨types⟩

def ofProgram (p : Program) (language : String) : Except ScopeError Catalog := do
  ofScope (← Scope.ofProgram p language)

def get? (r : Catalog) (name : String) : Option NodeType := r.types.find? (·.name == name)

def builder? (r : Catalog) (name : String) : Option Builder := (r.get? name).map .ofType

def size (r : Catalog) : Nat := r.types.length

def isEmpty (r : Catalog) : Bool := r.types.isEmpty

end Catalog

end NodeRules.Tree
