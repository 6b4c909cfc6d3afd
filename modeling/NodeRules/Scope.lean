import NodeRules.Diagnostic
import NodeRules.Program.Basic

namespace NodeRules

inductive Origin
  | own
  | common
deriving DecidableEq

def Entry.originIn (e : Entry) (language : String) : Option Origin :=
  if e.language = language then some .own else if e.isCommon then some .common else none

inductive ScopeError
  | duplicateType (name language : String)
  | unresolvedType (name rule language : String)
  | cyclicHierarchy (name : String)
deriving DecidableEq

namespace ScopeError

def message : ScopeError → String
  | duplicateType name language =>
    "`" ++ name ++ "` is declared more than once in `" ++ language ++ "`"
  | unresolvedType name rule language =>
    "`" ++ name ++ "`, listed by `" ++ rule ++ "`, is not declared in `" ++ language ++
      "` or `common`"
  | cyclicHierarchy name => "hierarchy of `" ++ name ++ "` is cyclic"

def code : ScopeError → Code
  | duplicateType _ _ => .duplicateType
  | unresolvedType _ _ _ => .unresolvedType
  | cyclicHierarchy _ => .cyclicHierarchy

def diagnostic (e : ScopeError) : Diagnostic where
  code := e.code
  stage := .analyzer
  message := e.message

end ScopeError

structure Declared where
  own : List String
  common : List String

namespace Declared

def empty : Declared := ⟨[], []⟩

def names (d : Declared) : Origin → List String
  | .own => d.own
  | .common => d.common

def add (d : Declared) : Origin → String → Declared
  | .own, name => { d with own := d.own ++ [name] }
  | .common, name => { d with common := d.common ++ [name] }

/-- Where the type `name` is found: a declaration of the language itself comes first. -/
def origin? (d : Declared) (name : String) : Option Origin :=
  if name ∈ d.own then some .own else if name ∈ d.common then some .common else none

def size (d : Declared) : Nat := d.own.length + (d.common.filter (· ∉ d.own)).length

/-- Declares the types of the entries that `language` sees, up to the first one whose place has the
name already. -/
def addAll (language : String) (d : Declared) : List Entry → Except ScopeError Declared
  | [] => .ok d
  | e :: es =>
    match e.originIn language with
    | none => addAll language d es
    | some origin =>
      if e.name ∈ d.names origin then .error (.duplicateType e.name e.language)
      else addAll language (d.add origin e.name) es

def visibleRules (language : String) (d : Declared) (es : List Entry) : List Rule :=
  (es.filter fun e =>
    (e.originIn language).isSome && e.originIn language == d.origin? e.name).map Entry.rule

end Declared

/-- Names with a list of names for each. The first item of a name counts. -/
abbrev NameTable := List (String × List String)

namespace NameTable

def get (t : NameTable) (name : String) : List String := (t.lookup name).getD []

def set (t : NameTable) (name : String) (names : List String) : NameTable := (name, names) :: t

def addBase (t : NameTable) (name base : String) : NameTable :=
  if base ∈ t.get name then t else t.set name (t.get name ++ [base])

def addSubtypes (t : NameTable) (d : Declared) (base : String) :
    List String → Except String NameTable
  | [] => .ok t
  | name :: names =>
    if (d.origin? name).isNone then .error name else addSubtypes (t.addBase name base) d base names

def addRules (language : String) (d : Declared) (t : NameTable) :
    List Rule → Except ScopeError NameTable
  | [] => .ok t
  | rule :: rules =>
    match t.addSubtypes d rule.name rule.subtypes with
    | .error name => .error (.unresolvedType name rule.name language)
    | .ok t => addRules language d t rules

/-- The chain of first bases above `name`, the root first. The walk ends at a base whose chain is
known, and it gives up behind `bound` bases with unknown chains. -/
def climb (bases known : NameTable) : (bound : Nat) → (name : String) → Option (List String)
  | bound, name =>
    match (bases.get name).head? with
    | none => some []
    | some base =>
      match known.lookup base with
      | some chain => some (chain ++ [base])
      | none =>
        match bound with
        | 0 => none
        | bound + 1 => (climb bases known bound base).map (· ++ [base])

def addChains (bases : NameTable) (bound : Nat) (known : NameTable) :
    List Rule → Except ScopeError NameTable
  | [] => .ok known
  | rule :: rules =>
    if (known.lookup rule.name).isSome then addChains bases bound known rules
    else
      match climb bases known bound rule.name with
      | none => .error (.cyclicHierarchy rule.name)
      | some chain => addChains bases bound (known.set rule.name chain) rules

end NameTable

structure Scope where
  language : String
  declared : Declared
  rules : List Rule
  baseTable : NameTable
  chainTable : NameTable

namespace Scope

def origin? (s : Scope) (name : String) : Option Origin := s.declared.origin? name

def isDeclared (s : Scope) (name : String) : Bool := (s.origin? name).isSome

def bases (s : Scope) (name : String) : List String := s.baseTable.get name

/-- The ancestors of `name` along first bases, the root first. -/
def hierarchy (s : Scope) (name : String) : List String := s.chainTable.get name

def groups (s : Scope) (name : String) : List String := name :: (s.hierarchy name).reverse

def imports (s : Scope) (name : String) : List String :=
  match s.rules.find? (·.name == name) with
  | some rule =>
    if s.origin? name = some .own then
      Text.sortedSet ((rule.references ++ s.bases name).filter (s.origin? · = some .common))
    else []
  | none => []

/-- What `language` sees of a program, if its types fit together. A walk along first bases that
takes more bases than there are types has to loop. -/
def ofProgram (p : Program) (language : String) : Except ScopeError Scope := do
  let declared ← Declared.empty.addAll language p.entries
  let rules := declared.visibleRules language p.entries
  let baseTable ← NameTable.addRules language declared [] rules
  let chainTable ← baseTable.addChains declared.size [] rules
  return ⟨language, declared, rules, baseTable, chainTable⟩

end Scope

end NodeRules
