import NodeRules.Java.NodeType

namespace NodeRules.Java.LiteralClass

def valueField (nativeType : String) : Field :=
  ⟨"The value of the node.", "private " ++ nativeType ++ " data", []⟩

def setDataBody (parsed : String) : Option String → List String
  | none => ["this.data = " ++ parsed ++ ";", "this.initialized = true;", "return true;"]
  | some exception =>
    ["boolean result = true;",
      "try \x7b",
      "    this.data = " ++ parsed ++ ";",
      "    this.initialized = true;",
      "\x7d catch (final " ++ exception ++ " ignored) \x7b",
      "    result = false;",
      "\x7d",
      "return result;"]

def builder (o : Outline) (r : LiteralRule) (parsed : String) : Declaration :=
  NodeType.builderClass o
    [valueField r.nativeType,
      ⟨"Flag indicating that the value has been set.", "private boolean initialized", []⟩]
    [NodeType.setDataMethod (setDataBody parsed r.exception),
      NodeType.setChildrenMethod ["return list.isEmpty();"],
      NodeType.isValidMethod "this.initialized",
      NodeType.createMethod o.name ["node.data = this.data;"]]

def declaration (o : Outline) (r : LiteralRule) (serialized parsed : String) : Declaration :=
  NodeType.nodeClass o [valueField r.nativeType]
    (NodeType.accessMethods ("return " ++ serialized ++ ";") "return 0;"
        "throw new IndexOutOfBoundsException();" ++
      [.documented ["Returns the value of the node.", "@return The value"]
        ("public " ++ r.nativeType ++ " getValue()") ["return this.data;"]])
    [NodeType.typeClass o ["Collections.emptyList()"], builder o r parsed]

def imports (target : Target) (scope : Scope) (o : Outline) : List String :=
  NodeType.imports target o.groups ++ (scope.imports o.name).map target.commonImport

end NodeRules.Java.LiteralClass
