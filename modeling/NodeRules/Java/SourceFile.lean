import NodeRules.Java.Declaration
import NodeRules.License
import NodeRules.Text.Basic

namespace NodeRules.Java

structure SourceFile where
  license : License
  package : String
  /-- The qualified names of imported types, sorted and each once. -/
  imports : List String
  declaration : Declaration

namespace SourceFile

def make (license : License) (package : String) (imports : List String)
    (declaration : Declaration) : SourceFile :=
  ⟨license, package, Text.sortedSet imports, declaration⟩

def typeName (f : SourceFile) : String := f.declaration.name

def packagePath (package : String) : String :=
  String.ofList (package.toList.map fun c => if c = '.' then '/' else c)

def path (f : SourceFile) : String := packagePath f.package ++ "/" ++ f.typeName ++ ".java"

def layoutLicense (license : License) : List Step :=
  if license.isEmpty then [] else Layout.comment "/*" license.lines ++ [Layout.blank]

def layoutImports (imports : List String) : List Step :=
  if imports.isEmpty then []
  else Layout.lines (imports.map fun name => "import " ++ name ++ ";") ++ [Layout.blank]

def layout (f : SourceFile) : List Step :=
  layoutLicense f.license ++ [.line ("package " ++ f.package ++ ";"), Layout.blank] ++
    layoutImports f.imports ++ f.declaration.layout

def render (f : SourceFile) : String := Layout.render f.layout

end SourceFile

end NodeRules.Java
