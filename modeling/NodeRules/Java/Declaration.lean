import NodeRules.Java.Layout

namespace NodeRules.Java

/-- A field. The lines of its initializer behind the first continue the expression. -/
structure Field where
  brief : String
  declaration : String
  initializer : List String := []
deriving DecidableEq

/-- A method or constructor. One without documentation overrides a method of a supertype. -/
structure Method where
  documentation : Option (List String)
  signature : String
  body : List String := []
deriving DecidableEq

inductive Form
  | concrete
  | interface
deriving DecidableEq

structure Declaration where
  form : Form
  brief : String
  version : String
  modifiers : String := "public"
  name : String
  supertypes : List String := []
  fields : List Field := []
  methods : List Method := []
  nested : List Declaration := []

def Form.keyword : Form → String
  | concrete => "class"
  | interface => "interface"

def Form.relation : Form → String
  | concrete => "implements"
  | interface => "extends"

def javadoc (texts : List String) : List Step := Layout.comment "/**" texts

namespace Field

def layoutDeclaration (declaration : String) : List String → List Step
  | [] => [.line (declaration ++ ";")]
  | [value] => [.line (declaration ++ " = " ++ value ++ ";")]
  | first :: second :: more =>
    [.line (declaration ++ " = " ++ first), .indent] ++
      Layout.lines (second :: more).dropLast ++
      [.line ((second :: more).getLast (by simp) ++ ";"), .dedent]

def layout (f : Field) : List Step :=
  javadoc [f.brief] ++ layoutDeclaration f.declaration f.initializer

end Field

namespace Method

def overriding (signature : String) (body : List String) : Method := ⟨none, signature, body⟩

def documented (documentation : List String) (signature : String) (body : List String) : Method :=
  ⟨some documentation, signature, body⟩

def layoutHead : Option (List String) → List Step
  | none => [.line "@Override"]
  | some documentation => javadoc documentation

def layout (m : Method) : List Step :=
  layoutHead m.documentation ++ Layout.block m.signature (Layout.lines m.body)

end Method

namespace Declaration

def header (form : Form) (modifiers name : String) (supertypes : List String) : String :=
  modifiers ++ " " ++ form.keyword ++ " " ++ name ++
    if supertypes.isEmpty then ""
    else " " ++ form.relation ++ " " ++ String.intercalate ", " supertypes

mutual

def layout : Declaration → List Step
  | ⟨form, brief, version, modifiers, name, supertypes, fields, methods, nested⟩ =>
    javadoc [brief, "", "@since " ++ version] ++
      Layout.block (header form modifiers name supertypes)
        (Layout.separated
          (fields.map Field.layout ++ methods.map Method.layout ++ layoutAll nested))

def layoutAll : List Declaration → List (List Step)
  | [] => []
  | d :: ds => d.layout :: layoutAll ds

end

end Declaration

end NodeRules.Java
