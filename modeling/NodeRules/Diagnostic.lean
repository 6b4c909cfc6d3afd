import NodeRules.Span

namespace NodeRules

inductive Stage
  | scanner
  | parser
  | analyzer
  | generator
deriving DecidableEq

def Stage.render : Stage → String
  | .scanner => "scanner"
  | .parser => "parser"
  | .analyzer => "analyzer"
  | .generator => "generator"

inductive Code
  | unterminatedText
  | unknownSymbol
  | missingHoleNumber
  | zeroHole
  | unterminatedCode
  | numberTooLarge
  | unexpectedToken
  | noDescriptor
  | listNotAlone
  | nameNotCapital
  | decorated
  | emptyNotAlone
  | missingArrow
  | missingPart
  | tooManyParts
  | repeatedSubtype
  | noTypeName
  | invalidLanguage
  | unresolvedType
  | cyclicHierarchy
  | duplicateType
  | unknownChildType
  | holeOutOfRange
  | reservedTypeName
deriving DecidableEq

namespace Code

def all : List Code :=
  [unterminatedText, unknownSymbol, missingHoleNumber, zeroHole, unterminatedCode, numberTooLarge,
    unexpectedToken, noDescriptor, listNotAlone, nameNotCapital, decorated, emptyNotAlone,
    missingArrow, missingPart, tooManyParts, repeatedSubtype, noTypeName, invalidLanguage,
    unresolvedType, cyclicHierarchy, duplicateType, unknownChildType, holeOutOfRange,
    reservedTypeName]

/-- The stage is the code's first digit: 0 for the scanner up to 3 for the generator. -/
def render : Code → String
  | unterminatedText => "E0001"
  | unknownSymbol => "E0002"
  | missingHoleNumber => "E0003"
  | zeroHole => "E0004"
  | unterminatedCode => "E0005"
  | numberTooLarge => "E0006"
  | unexpectedToken => "E1001"
  | noDescriptor => "E1002"
  | listNotAlone => "E1003"
  | nameNotCapital => "E1004"
  | decorated => "E1005"
  | emptyNotAlone => "E1006"
  | missingArrow => "E1007"
  | missingPart => "E1008"
  | tooManyParts => "E1009"
  | repeatedSubtype => "E1010"
  | noTypeName => "E1011"
  | invalidLanguage => "E1012"
  | unresolvedType => "E2001"
  | cyclicHierarchy => "E2002"
  | duplicateType => "E2003"
  | unknownChildType => "E3001"
  | holeOutOfRange => "E3002"
  | reservedTypeName => "E3003"

def stage : Code → Stage
  | unterminatedText | unknownSymbol | missingHoleNumber | zeroHole | unterminatedCode
  | numberTooLarge => .scanner
  | unexpectedToken | noDescriptor | listNotAlone | nameNotCapital | decorated | emptyNotAlone
  | missingArrow | missingPart | tooManyParts | repeatedSubtype | noTypeName
  | invalidLanguage => .parser
  | unresolvedType | cyclicHierarchy | duplicateType => .analyzer
  | unknownChildType | holeOutOfRange | reservedTypeName => .generator

end Code

structure Diagnostic where
  code : Code
  stage : Stage
  message : String := ""
  line : Option UInt32 := none
  span : Option Span := none
  notes : List String := []
deriving DecidableEq

namespace Diagnostic

def headline (d : Diagnostic) : String :=
  "error[" ++ d.code.render ++ "] " ++ d.stage.render ++ ": " ++ d.message

def place (d : Diagnostic) : String :=
  match d.line, d.span with
  | some line, some span => "\n  --> line " ++ toString line ++ ", " ++ span.render
  | some line, none => "\n  --> line " ++ toString line
  | none, some span => "\n  --> " ++ span.render
  | none, none => ""

def render (d : Diagnostic) : String :=
  d.headline ++ d.place ++ String.join (d.notes.map ("\n  = note: " ++ ·))

end Diagnostic

end NodeRules
