import NodeRules.Java.LiteralClass
import NodeRules.Java.NodeClass
import NodeRules.Template

namespace NodeRules.Java

inductive GenerateError
  | unknownChildType (child rule language : String)
  | holeOutOfRange (failure : Template.Failure)
  | reservedTypeName (name rule : String)
deriving DecidableEq

namespace GenerateError

def message : GenerateError → String
  | unknownChildType child rule language =>
    "child type `" ++ child ++ "` of `" ++ rule ++ "` is not declared in `" ++ language ++
      "` or `common`"
  | holeOutOfRange failure => failure.message
  | reservedTypeName name rule =>
    "`" ++ name ++ "`, used by `" ++ rule ++
      "`, clashes with a type the generated code imports or declares"

def code : GenerateError → Code
  | unknownChildType _ _ _ => .unknownChildType
  | holeOutOfRange _ => .holeOutOfRange
  | reservedTypeName _ _ => .reservedTypeName

def diagnostic (e : GenerateError) : Diagnostic where
  code := e.code
  stage := .generator
  message := e.message

end GenerateError

namespace Marker

def declaration (o : Outline) : Declaration where
  form := .interface
  brief := o.brief
  version := o.version
  name := o.name
  supertypes := o.supertypes

/-- An interface mentions its bases, and the type of all nodes when it has none. -/
def imports (target : Target) (scope : Scope) (name : String) : List String :=
  let bases := scope.bases name
  (if bases.isEmpty then [target.baseImport "Node"] else []) ++
    ((scope.imports name).filter bases.contains).map target.commonImport

end Marker

/-- The types that the file of a rule mentions: the type itself, those in the rule, its bases. -/
def mentionedTypes (scope : Scope) (rule : Rule) : List String :=
  rule.name :: rule.references ++ scope.bases rule.name

def nodeFile (target : Target) (scope : Scope) (e : Entry) (r : NodeRule) :
    Except GenerateError SourceFile :=
  let o := Outline.make target scope e
  let package := target.packageName e.language
  if r.isAbstract then
    .ok (.make target.license package (Marker.imports target scope o.name) (Marker.declaration o))
  else
    match r.descriptors.find? fun d => !scope.isDeclared d.typeName with
    | some d => .error (.unknownChildType d.typeName r.name scope.language)
    | none =>
      let slots := Slot.ofDescriptors r.descriptors
      .ok (.make target.license package (NodeClass.imports target scope o slots)
        (NodeClass.declaration o slots))

def literalFile (target : Target) (scope : Scope) (e : Entry) (r : LiteralRule) :
    Except GenerateError SourceFile := do
  let serialized ← (Template.instantiate r.serializer ["this.data"]).mapError .holeOutOfRange
  let parsed ← (Template.instantiate r.parser ["str"]).mapError .holeOutOfRange
  let o := Outline.make target scope e
  return .make target.license (target.packageName e.language) (LiteralClass.imports target scope o)
    (LiteralClass.declaration o r serialized parsed)

def generate (target : Target) (scope : Scope) (e : Entry) : Except GenerateError SourceFile :=
  match (mentionedTypes scope e.rule).find? isReservedType with
  | some name => .error (.reservedTypeName name e.name)
  | none =>
    match e.rule with
    | .node r => nodeFile target scope e r
    | .literal r => literalFile target scope e r

def generateAll (target : Target) (scope : Scope) (p : Program) :
    Except GenerateError (List SourceFile) :=
  (p.entriesIn scope.language).mapM (generate target scope)

end NodeRules.Java
