import NodeRules.Java.SourceFile
import NodeRules.Scope

namespace NodeRules.Java

structure Target where
  license : License
  version : String
  /-- The package that holds one package for each language. -/
  rootPackage : String
  corePackage : String

namespace Target

def basePackage (t : Target) : String := t.corePackage ++ ".base"

def packageName (t : Target) (language : String) : String := t.rootPackage ++ "." ++ language

def baseImport (t : Target) (name : String) : String := t.basePackage ++ "." ++ name

def commonImport (t : Target) (name : String) : String :=
  t.packageName commonLanguage ++ "." ++ name

end Target

/-- What a scope says about a type, as far as its declaration in Java shows it. -/
structure Outline where
  name : String
  language : String
  version : String
  supertypes : List String
  groups : List String

namespace Outline

def supertypesIn (scope : Scope) (name : String) : List String :=
  if (scope.bases name).isEmpty then ["Node"] else scope.bases name

def make (target : Target) (scope : Scope) (e : Entry) : Outline :=
  ⟨e.name, e.language, target.version, supertypesIn scope e.name, scope.groups e.name⟩

def brief (o : Outline) : String := "Node that describes the '" ++ o.name ++ "' type."

end Outline

end NodeRules.Java
