import NodeRules.Rule.Basic
import NodeRules.Token.Scanner

namespace NodeRules

namespace ReadError

inductive Expected
  | token (kind : Token.Kind)
  | descriptor
  | taggedType
  | data
  | subtype
  | endOfList
  | part (part : LiteralRule.Part) (rule : String)
deriving DecidableEq

def Expected.render : Expected → String
  | token kind => "`" ++ kind.render ++ "`"
  | descriptor => "a descriptor"
  | taggedType => "a type name after `@`"
  | data => "a hole or a string literal"
  | subtype => "a type name"
  | endOfList => "`,` or end of line"
  | part p rule =>
    "the " ++ p.render ++ " of `" ++ rule ++ "` as a native code block or a string literal"

inductive Cause
  | scan (error : ScanError)
  | unexpectedToken (expected : Expected) (found : Token.Kind)
  | noDescriptor (rule : String)
  | listNotAlone (rule : String)
  | nameNotCapital (name : String)
  | decorated (descriptor : Descriptor)
  | emptyNotAlone (rule : String)
  | missingArrow
  | missingPart (rule : String) (part : LiteralRule.Part)
  | tooManyParts (rule : String)
  | repeatedSubtype (rule name : String)
  | noTypeName (found : Token.Kind)
  | invalidLanguage (name : String)
deriving DecidableEq

namespace Cause

def message : Cause → String
  | scan e => e.cause.message
  | unexpectedToken expected found => "expected " ++ expected.render ++ ", found " ++ found.describe
  | noDescriptor rule => "expected at least one descriptor: `" ++ rule ++ " <- ?`"
  | listNotAlone rule => "`" ++ rule ++ "` has a list descriptor, which must be its only child"
  | nameNotCapital name => "node name `" ++ name ++ "` must start with a capital letter"
  | decorated d => "decorated descriptor `" ++ d.render ++ "` is not allowed in a children list"
  | emptyNotAlone rule => "`0` must be the only child of `" ++ rule ++ "`"
  | missingArrow => "expected `<-`"
  | missingPart rule part => "literal `" ++ rule ++ "` is missing its " ++ part.render
  | tooManyParts rule => "literal `" ++ rule ++ "` has more than four parts"
  | repeatedSubtype rule name =>
    "`" ++ name ++ "` appears twice in the alternatives of `" ++ rule ++ "`"
  | noTypeName found => "expected a type name before `<-`, found " ++ found.describe
  | invalidLanguage name => "invalid language name `" ++ name ++ "`"

def code : Cause → Code
  | scan e => e.cause.code
  | unexpectedToken _ _ => .unexpectedToken
  | noDescriptor _ => .noDescriptor
  | listNotAlone _ => .listNotAlone
  | nameNotCapital _ => .nameNotCapital
  | decorated _ => .decorated
  | emptyNotAlone _ => .emptyNotAlone
  | missingArrow => .missingArrow
  | missingPart _ _ => .missingPart
  | tooManyParts _ => .tooManyParts
  | repeatedSubtype _ _ => .repeatedSubtype
  | noTypeName _ => .noTypeName
  | invalidLanguage _ => .invalidLanguage

def stage : Cause → Stage
  | scan _ => .scanner
  | _ => .parser

def notes : Cause → List String
  | scan e => e.cause.notes
  | decorated _ => ["tags, parameters and data belong to composition rules"]
  | missingArrow => ["rules have the form `Type <- ...`"]
  | _ => []

end Cause

end ReadError

/-- An error with its place: the bytes of the line, and the number of the line. -/
structure ReadError where
  cause : ReadError.Cause
  span : Span
  line : UInt32 := 1
deriving DecidableEq

namespace ReadError

def ofScan (e : ScanError) : ReadError := ⟨.scan e, e.span, 1⟩

def message (e : ReadError) : String := "line " ++ toString e.line ++ ": " ++ e.cause.message

def diagnostic (e : ReadError) : Diagnostic where
  code := e.cause.code
  stage := e.cause.stage
  message := e.cause.message
  line := some e.line
  span := some e.span
  notes := e.cause.notes

end ReadError

end NodeRules
