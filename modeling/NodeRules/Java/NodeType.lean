import NodeRules.Java.Target

namespace NodeRules.Java.NodeType

def inQuotes (s : String) : String := "\"" ++ s ++ "\""

def fragmentField (initializer : List String) : Field :=
  ⟨"The fragment associated with the node.", "private Fragment fragment", initializer⟩

def nodeFields : List Field :=
  [⟨"The type.", "public static final Type TYPE", ["new TypeImpl()"]⟩, fragmentField []]

def nodeMethods (name : String) : List Method :=
  [.documented ["Constructor."] ("private " ++ name ++ "()") [],
    .overriding "public Type getType()" ["return " ++ name ++ ".TYPE;"],
    .overriding "public Fragment getFragment()" ["return this.fragment;"]]

def accessMethods (data count child : String) : List Method :=
  [.overriding "public String getData()" [data], .overriding "public int getChildCount()" [count],
    .overriding "public Node getChild(final int index)" [child]]

/-- The list of groups: the type itself, by the constant of its name, and its ancestors. -/
def groupsValue (groups : List String) : String :=
  if groups.tail.isEmpty then "Collections.singletonList(TypeImpl.NAME)"
  else "Arrays.asList(TypeImpl.NAME, " ++ String.intercalate ", " (groups.tail.map inQuotes) ++ ")"

def typeFields (o : Outline) (children : List String) : List Field :=
  [⟨"The name.", "private static final String NAME", [inQuotes o.name]⟩,
    ⟨"The list of child types.", "private static final List<ChildDescriptor> CHILDREN", children⟩,
    ⟨"Hierarchy of types.", "private static final List<String> HIERARCHY",
      [groupsValue o.groups]⟩,
    ⟨"Properties.", "private static final Map<String, String> PROPERTIES",
      ["new MapUtils<String, String>()", ".put(\"color\", \"green\")",
        ".put(\"language\", " ++ inQuotes o.language ++ ")", ".make()"]⟩]

def typeMethods : List Method :=
  [.overriding "public String getName()" ["return TypeImpl.NAME;"],
    .overriding "public List<ChildDescriptor> getChildTypes()" ["return TypeImpl.CHILDREN;"],
    .overriding "public List<String> getHierarchy()" ["return TypeImpl.HIERARCHY;"],
    .overriding "public Map<String, String> getProperties()" ["return TypeImpl.PROPERTIES;"],
    .overriding "public Builder createBuilder()" ["return new Constructor();"]]

/-- The nested class that describes the type. The expression `children` lists its children. -/
def typeClass (o : Outline) (children : List String) : Declaration where
  form := .concrete
  brief := "Type descriptor of the '" ++ o.name ++ "' node."
  version := o.version
  modifiers := "private static final"
  name := "TypeImpl"
  supertypes := ["Type"]
  fields := typeFields o children
  methods := typeMethods

def builderClass (o : Outline) (fields : List Field) (methods : List Method) : Declaration where
  form := .concrete
  brief := "Constructor (builder) of the '" ++ o.name ++ "' node."
  version := o.version
  modifiers := "public static final"
  name := "Constructor"
  supertypes := ["Builder"]
  fields := fragmentField ["EmptyFragment.INSTANCE"] :: fields
  methods :=
    .overriding "public void setFragment(final Fragment obj)" ["this.fragment = obj;"] :: methods

def setDataMethod (body : List String) : Method :=
  .overriding "public boolean setData(final String str)" body

def setChildrenMethod (body : List String) : Method :=
  .overriding "public boolean setChildrenList(final List<Node> list)" body

def isValidMethod (condition : String) : Method :=
  .overriding "public boolean isValid()" ["return " ++ condition ++ ";"]

def createMethod (name : String) (body : List String) : Method :=
  .overriding ("public " ++ name ++ " createNode()")
    (["if (!this.isValid()) \x7b", "    throw new IllegalStateException();", "\x7d",
      "final " ++ name ++ " node = new " ++ name ++ "();", "node.fragment = this.fragment;"] ++
      body ++ ["return node;"])

def nodeClass (o : Outline) (fields : List Field) (methods : List Method)
    (nested : List Declaration) : Declaration where
  form := .concrete
  brief := o.brief
  version := o.version
  modifiers := "public final"
  name := o.name
  supertypes := o.supertypes
  fields := nodeFields ++ fields
  methods := nodeMethods o.name ++ methods
  nested := nested

def imports (target : Target) (groups : List String) : List String :=
  (if groups.tail.isEmpty then [] else ["java.util.Arrays"]) ++
    ["java.util.Collections", "java.util.List", "java.util.Map",
      target.corePackage ++ ".utils.MapUtils"] ++
    ["Builder", "ChildDescriptor", "EmptyFragment", "Fragment", "Node", "Type"].map
      target.baseImport

end NodeRules.Java.NodeType
