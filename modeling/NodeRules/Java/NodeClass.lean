import NodeRules.Java.Names
import NodeRules.Java.NodeType

namespace NodeRules.Java

structure Slot where
  descriptor : Descriptor
  field : String

namespace Slot

def typeName (s : Slot) : String := s.descriptor.typeName

def isList (s : Slot) : Bool := s.descriptor.isList

def isRequired (s : Slot) : Bool := s.descriptor.isRequired

def ofDescriptors (ds : List Descriptor) : List Slot :=
  List.zipWith Slot.mk ds (fieldsFor (ds.map Descriptor.typeName))

/-- The field of the node itself. A list is kept with the children. -/
def nodeField (s : Slot) : Field :=
  ⟨"Child with the '" ++ s.typeName ++ "' type.", "private " ++ s.typeName ++ " " ++ s.field, []⟩

def builderField (s : Slot) : Field :=
  if s.isList then
    ⟨"Nodes with the '" ++ s.typeName ++ "' type.", "private List<Node> " ++ s.field,
      ["Collections.emptyList()"]⟩
  else
    ⟨"Node with the '" ++ s.typeName ++ "' type.", "private " ++ s.typeName ++ " " ++ s.field, []⟩

def getterName (s : Slot) : String := "get" ++ capitalized s.field

def getter (s : Slot) : Method :=
  if s.isList then
    .documented
      ["Returns a child with the '" ++ s.typeName ++ "' type by its index.",
        "@param index The index", "@return The node"]
      ("public " ++ s.typeName ++ " " ++ s.getterName ++ "(final int index)")
      ["return (" ++ s.typeName ++ ") this.children.get(index);"]
  else
    .documented
      ["Returns the child with the '" ++ s.typeName ++ "' type.",
        if s.descriptor.isOptional then "@return The node or \x7b@code null\x7d"
        else "@return The node"]
      ("public " ++ s.typeName ++ " " ++ s.getterName ++ "()")
      ["return this." ++ s.field ++ ";"]

end Slot

namespace NodeClass

def childrenValue (slots : List Slot) : List String :=
  if slots.isEmpty then ["Collections.emptyList()"]
  else
    "new ListUtils<ChildDescriptor>()" ::
      (slots.map fun s =>
        ".add(new ChildDescriptor(\"" ++ s.typeName ++ "\", " ++
          (if s.isRequired then "false" else "true") ++ "))") ++
      [".make()"]

def takeList (s : Slot) : List String :=
  ["boolean result = true;",
    "for (final Node node : list) \x7b",
    "    if (!node.belongsToGroup(\"" ++ s.typeName ++ "\")) \x7b",
    "        result = false;",
    "        break;",
    "    \x7d",
    "\x7d",
    "if (result) \x7b",
    "    this." ++ s.field ++ " = Collections.unmodifiableList(list);",
    "\x7d",
    "return result;"]

/-- Takes nodes that the allocator of the library gives to the children. -/
def takeAllocated (slots : List Slot) : List String :=
  ["final Node[] nodes = new Node[" ++ toString slots.length ++ "];",
    "final NodeAllocator allocator = new NodeAllocator(TypeImpl.CHILDREN);",
    "final boolean result = allocator.allocate(nodes, list);",
    "if (result) \x7b"] ++
    (slots.zipIdx.map fun (s, i) =>
      "    this." ++ s.field ++ " = (" ++ s.typeName ++ ") nodes[" ++ toString i ++ "];") ++
    ["\x7d", "return result;"]

def setChildrenBody (slots : List Slot) : List String :=
  if slots.isEmpty then ["return list.isEmpty();"]
  else
    match slots.find? Slot.isList with
    | some list => takeList list
    | none => takeAllocated slots

def validCondition (slots : List Slot) : String :=
  let required := slots.filter Slot.isRequired
  if required.isEmpty then "true"
  else String.intercalate " && " (required.map fun s => "this." ++ s.field ++ " != null")

def createBody (slots : List Slot) : List String :=
  if slots.isEmpty then ["node.children = Collections.emptyList();"]
  else
    match slots.find? Slot.isList with
    | some list => ["node.children = this." ++ list.field ++ ";"]
    | none =>
      ("node.children = new ListUtils<Node>().add(" ++
        String.intercalate ", " (slots.map fun s => "this." ++ s.field) ++ ").make();") ::
        slots.map fun s => "node." ++ s.field ++ " = this." ++ s.field ++ ";"

def builder (o : Outline) (slots : List Slot) : Declaration :=
  NodeType.builderClass o (slots.map Slot.builderField)
    [NodeType.setDataMethod ["return str.isEmpty();"],
      NodeType.setChildrenMethod (setChildrenBody slots),
      NodeType.isValidMethod (validCondition slots),
      NodeType.createMethod o.name (createBody slots)]

def declaration (o : Outline) (slots : List Slot) : Declaration :=
  NodeType.nodeClass o
    (⟨"List of child nodes.", "private List<Node> children", []⟩ ::
      (slots.filter fun s => !s.isList).map Slot.nodeField)
    (NodeType.accessMethods "return \"\";" "return this.children.size();"
        "return this.children.get(index);" ++
      slots.map Slot.getter)
    [NodeType.typeClass o (childrenValue slots), builder o slots]

def childImports (target : Target) (slots : List Slot) : List String :=
  if slots.isEmpty then []
  else
    (target.corePackage ++ ".utils.ListUtils") ::
      if slots.any Slot.isList then []
      else [target.corePackage ++ ".algorithms.NodeAllocator"]

def imports (target : Target) (scope : Scope) (o : Outline) (slots : List Slot) : List String :=
  NodeType.imports target o.groups ++ childImports target slots ++
    (scope.imports o.name).map target.commonImport

end NodeClass

end NodeRules.Java
