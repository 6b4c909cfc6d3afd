namespace NodeRules.Java

inductive Step
  | indent
  | dedent
  | line (text : String)
deriving DecidableEq

/-- Text that is written so far, and the depth of its next line. -/
structure Page where
  depth : Nat
  text : String

namespace Page

def empty : Page := ⟨0, ""⟩

def margin (depth : Nat) : String := String.ofList (List.replicate (4 * depth) ' ')

/-- A line at the given depth. An empty line has no margin. -/
def renderLine (depth : Nat) (text : String) : String :=
  if text = "" then "\n" else margin depth ++ text ++ "\n"

def step (p : Page) : Step → Page
  | .indent => { p with depth := p.depth + 1 }
  | .dedent => { p with depth := p.depth - 1 }
  | .line text => { p with text := p.text ++ renderLine p.depth text }

def run (p : Page) (steps : List Step) : Page := steps.foldl step p

end Page

namespace Layout

def render (steps : List Step) : String := (Page.empty.run steps).text

def lines (texts : List String) : List Step := texts.map .line

def blank : Step := .line ""

def blockStart (header : String) : List Step := [.line (header ++ " \x7b"), .indent]

def blockEnd : List Step := [.dedent, .line "\x7d"]

def block (header : String) (body : List Step) : List Step :=
  blockStart header ++ body ++ blockEnd

/-- The parts with an empty line between each two. -/
def separated : List (List Step) → List Step
  | [] => []
  | [part] => part
  | part :: parts => part ++ blank :: separated parts

def comment (start : String) (texts : List String) : List Step :=
  .line start :: (texts.map fun text => .line (if text = "" then " *" else " * " ++ text)) ++
    [.line " */"]

end Layout

end NodeRules.Java
