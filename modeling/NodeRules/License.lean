import NodeRules.Text.Basic

namespace NodeRules

structure License where
  lines : List String
deriving DecidableEq

namespace License

def trimLine (line : String) : String := String.ofList (Text.trimEnd line.toList)

def dropEmptyEnds (lines : List String) : List String :=
  ((lines.dropWhile (· == "")).reverse.dropWhile (· == "")).reverse

def ofText (s : String) : License := ⟨dropEmptyEnds ((Text.lines s).map trimLine)⟩

def isEmpty (l : License) : Bool := l.lines.isEmpty

end License

end NodeRules
