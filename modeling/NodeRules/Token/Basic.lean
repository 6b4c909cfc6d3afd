import NodeRules.Hole
import NodeRules.Span
import NodeRules.Text.Quoted

namespace NodeRules

namespace Token

inductive Kind
  | name (value : String)
  | number (value : Nat)
  | hole (hole : Hole)
  | text (value : String)
  /-- The text between two dollar signs, as it stands. -/
  | code (value : String)
  | comma
  | atSign
  | question
  | star
  | bar
  | leftParen
  | rightParen
  | leftAngle
  | rightAngle
  | stop
deriving DecidableEq

namespace Kind

def render : Kind → String
  | name value => value
  | number value => toString value
  | hole h => h.render
  | text value => Text.Quoted.render value
  | code value => "$" ++ value ++ "$"
  | comma => ","
  | atSign => "@"
  | question => "?"
  | star => "*"
  | bar => "|"
  | leftParen => "("
  | rightParen => ")"
  | leftAngle => "<"
  | rightAngle => ">"
  | stop => ""

def describe : Kind → String
  | stop => "end of line"
  | name value => "identifier `" ++ value ++ "`"
  | text _ => "string literal"
  | code _ => "native code block"
  | kind => "`" ++ kind.render ++ "`"

def template? : Kind → Option String
  | text value => some value
  | code value => some value
  | _ => none

def isTemplate (k : Kind) : Bool := k.template?.isSome

end Kind

end Token

structure Token where
  kind : Token.Kind
  span : Span
deriving DecidableEq

end NodeRules
