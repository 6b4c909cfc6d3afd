import NodeRules.Program.Basic
import NodeRules.Rule.Reader
import NodeRules.Text.Basic

namespace NodeRules

def splitArrow? : List Char → Option (List Char × List Char)
  | [] => none
  | '<' :: '-' :: cs => some ([], cs)
  | c :: cs => (splitArrow? cs).map fun (left, right) => (c :: left, right)

namespace Rule

def readName : List Token → Except ReadError (String × Span)
  | ⟨.name name, span⟩ :: ⟨.stop, _⟩ :: _ => .ok (name, span)
  | t :: _ => .error ⟨.noTypeName t.kind, t.span, 1⟩
  | [] => .error ⟨.noTypeName .stop, .nowhere, 1⟩

def ofTokens (name : String) (span : Span) (ts : List Token) : Except ReadError Rule :=
  if ts.head?.any (·.kind.isTemplate) then literal <$> LiteralRule.ofTokens name span ts
  else node <$> NodeRule.ofTokens name span ts

def ofLine (line : List Char) : Except ReadError Rule :=
  match splitArrow? line with
  | none => .error ⟨.missingArrow, .ofBytes 0 (Text.byteLength line), 1⟩
  | some (left, right) => do
    let leftTokens ← (Scanner.mk 0 left).tokens.mapError .ofScan
    let (name, span) ← readName leftTokens
    let rightTokens ← (Scanner.mk (Text.byteLength left + 2) right).tokens.mapError .ofScan
    ofTokens name span rightTokens

end Rule

inductive LineKind
  | blank
  | language (name : List Char)
  | rule

namespace LineKind

def isComment : List Char → Bool
  | '/' :: '/' :: _ => true
  | _ => false

def ofLine (line : List Char) : LineKind :=
  let text := Text.trim line
  if text.isEmpty || isComment text then blank
  else if (splitArrow? text).isNone && text.getLast? == some ':' then
    language (Text.trim text.dropLast)
  else rule

end LineKind

def isLanguageName (name : List Char) : Bool :=
  name.head?.any Char.isAlpha && name.all Scanner.isNameChar

/-- A program that is read, the language of the next rule and the number of lines so far, which
wraps around behind `2 ^ 32 - 1`. -/
structure ProgramReader where
  program : Program
  language : String
  line : UInt32

namespace ProgramReader

def ofProgram (p : Program) : ProgramReader := ⟨p, "", 0⟩

/-- Reads one line: the entry that it adds, if any. A line with an error counts, and changes
nothing else. -/
def feed (r : ProgramReader) (line : String) : Except ReadError (Option Entry) × ProgramReader :=
  let text := line.toList
  let r := { r with line := r.line + 1 }
  match LineKind.ofLine text with
  | .blank => (.ok none, r)
  | .language name =>
    if isLanguageName name then (.ok none, { r with language := String.ofList name })
    else
      let span := Span.ofBytes 0 (Text.byteLength text)
      (.error ⟨.invalidLanguage (String.ofList name), span, r.line⟩, r)
  | .rule =>
    match Rule.ofLine text with
    | .error e => (.error { e with line := r.line }, r)
    | .ok rule =>
      let entry := Entry.ofRule r.language rule
      (.ok (some entry), { r with program := r.program.add entry })

def feedAll (r : ProgramReader) : List String → Except ReadError ProgramReader
  | [] => .ok r
  | line :: lines =>
    match r.feed line with
    | (.error e, _) => .error e
    | (.ok _, r') => feedAll r' lines

end ProgramReader

def Program.ofText (s : String) : Except ReadError Program := do
  let r ← (ProgramReader.ofProgram .empty).feedAll (Text.lines s)
  return r.program

end NodeRules
