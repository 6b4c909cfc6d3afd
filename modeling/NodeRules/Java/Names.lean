import NodeRules.Text.Basic
import NodeRules.Text.Case

namespace NodeRules.Java

def keywords : List String :=
  ["abstract", "assert", "boolean", "break", "byte", "case", "catch", "char", "class", "const",
    "continue", "default", "do", "double", "else", "enum", "extends", "false", "final", "finally",
    "float", "for", "goto", "if", "implements", "import", "instanceof", "int", "interface", "long",
    "native", "new", "null", "package", "private", "protected", "public", "return", "short",
    "static", "strictfp", "super", "switch", "synchronized", "this", "throw", "throws",
    "transient", "true", "try", "void", "volatile", "while"]

/-- Members of a generated class, and names whose getter is a method of every node. -/
def memberNames : List String :=
  ["child", "childCount", "children", "childrenList", "data", "fragment", "initialized", "node",
    "type", "typeName"]

/-- Types that a generated file imports or declares for its own use. -/
def reservedTypes : List String :=
  ["Arrays", "Builder", "ChildDescriptor", "Collections", "Constructor", "EmptyFragment",
    "Fragment", "IllegalStateException", "IndexOutOfBoundsException", "List", "ListUtils", "Map",
    "MapUtils", "Node", "NodeAllocator", "Override", "String", "Type", "TypeImpl"]

def isReservedType (name : String) : Bool := Text.isListed reservedTypes name

def mapFirst (f : Char → List Char) (s : String) : String :=
  match s.toList with
  | [] => ""
  | c :: cs => String.ofList (f c ++ cs)

/-- The variable for a type: its first letter in lower case, and `Node` behind a name that is
taken. -/
def variableFor (typeName : String) : String :=
  let name := mapFirst Text.lower typeName
  if Text.isListed keywords name || Text.isListed memberNames name then name ++ "Node" else name

def capitalized (name : String) : String := mapFirst Text.upper name

def fieldsFrom (all earlier : List String) : List String → List String
  | [] => []
  | t :: types =>
    (if 1 < all.count t then variableFor t ++ toString (earlier.count t + 1) else variableFor t)
      :: fieldsFrom all (t :: earlier) types

/-- The fields for children of the given types. A type that occurs several times has its fields
numbered from one. -/
def fieldsFor (types : List String) : List String := fieldsFrom types [] types

end NodeRules.Java
