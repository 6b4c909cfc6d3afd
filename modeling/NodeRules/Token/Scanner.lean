import NodeRules.Diagnostic
import NodeRules.Text.Basic
import NodeRules.Token.Basic

namespace NodeRules

inductive ScanError.Cause
  | unknownSymbol (symbol : Char) (offset : Nat)
  | unterminatedText
  | unterminatedCode
  | missingHoleNumber
  | zeroHole
  | numberTooLarge (digits : String)
deriving DecidableEq

structure ScanError where
  cause : ScanError.Cause
  span : Span
deriving DecidableEq

namespace ScanError

namespace Cause

def message : Cause → String
  | unknownSymbol symbol offset =>
    "unknown symbol `" ++ String.singleton symbol ++ "` at offset " ++ toString offset
  | unterminatedText => "unterminated string literal"
  | unterminatedCode => "unterminated native code block"
  | missingHoleNumber => "expected a number after `#`"
  | zeroHole => "holes are numbered from 1"
  | numberTooLarge digits => "number `" ++ digits ++ "` is too large"

def code : Cause → Code
  | unknownSymbol _ _ => .unknownSymbol
  | unterminatedText => .unterminatedText
  | unterminatedCode => .unterminatedCode
  | missingHoleNumber => .missingHoleNumber
  | zeroHole => .zeroHole
  | numberTooLarge _ => .numberTooLarge

def notes : Cause → List String
  | unterminatedText => ["add a closing `\"`"]
  | unterminatedCode => ["add a closing `$`"]
  | _ => []

end Cause

/-- The bytes of an error between `start` and `stop`. The end of an unknown symbol is counted from
the start that is reported, and wraps around where every other offset stays at `maxOffset`. -/
def Cause.bytes (cause : Cause) (start stop : Nat) : Span :=
  match cause with
  | .unknownSymbol symbol _ =>
    ⟨min start maxOffset, (min start maxOffset + symbol.utf8Size) % (maxOffset + 1)⟩
  | _ => .ofBytes start stop

def diagnostic (e : ScanError) : Diagnostic where
  code := e.cause.code
  stage := .scanner
  message := e.cause.message
  span := some e.span
  notes := e.cause.notes

end ScanError

structure Scanner where
  offset : Nat
  rest : List Char

namespace Scanner

def ofString (s : String) (offset : Nat) : Scanner := ⟨offset, s.toList⟩

def isSkipped (c : Char) : Bool :=
  c == ' ' || c == '\t' || c == '\r' || c == '\n' || c == '\x0c'

def isNameChar (c : Char) : Bool := c.isAlpha || c.isDigit

def decimal (digits : List Char) : Nat := Nat.ofDigitChars 10 digits 0

def number (digits : List Char) : Except ScanError.Cause Token.Kind :=
  if decimal digits < numberLimit then .ok (.number (decimal digits))
  else .error (.numberTooLarge (String.ofList digits))

def hole (digits : List Char) : Except ScanError.Cause Token.Kind :=
  if digits.isEmpty then .error .missingHoleNumber
  else if numberLimit ≤ decimal digits then .error (.numberTooLarge (String.ofList digits))
  else match Hole.ofNumber? (decimal digits) with
    | some h => .ok (.hole h)
    | none => .error .zeroHole

def splitCode? : List Char → Option (List Char × List Char)
  | [] => none
  | '$' :: cs => some ([], cs)
  | c :: cs => (splitCode? cs).map fun (body, rest) => (c :: body, rest)

def symbol? : Char → Option Token.Kind
  | ',' => some .comma
  | '@' => some .atSign
  | '?' => some .question
  | '*' => some .star
  | '|' => some .bar
  | '(' => some .leftParen
  | ')' => some .rightParen
  | '<' => some .leftAngle
  | '>' => some .rightAngle
  | _ => none

/-- What is read in one step: the token or error, its characters, and those behind it. -/
structure Lexeme where
  result : Except ScanError.Cause Token.Kind
  taken : List Char
  rest : List Char

def lexeme (offset : Nat) (c : Char) (cs : List Char) : Lexeme :=
  if c == '#' then
    let digits := cs.takeWhile Char.isDigit
    ⟨hole digits, c :: digits, cs.dropWhile Char.isDigit⟩
  else if c == '"' then
    match Text.Quoted.split? cs with
    | some (body, rest) =>
      ⟨.ok (.text (String.ofList (Text.Quoted.decode body))), c :: body ++ ['"'], rest⟩
    | none => ⟨.error .unterminatedText, c :: cs, []⟩
  else if c == '$' then
    match splitCode? cs with
    | some (body, rest) => ⟨.ok (.code (String.ofList body)), c :: body ++ ['$'], rest⟩
    | none => ⟨.error .unterminatedCode, c :: cs, []⟩
  else if c.isDigit then
    let digits := c :: cs.takeWhile Char.isDigit
    ⟨number digits, digits, cs.dropWhile Char.isDigit⟩
  else if c.isAlpha then
    let name := c :: cs.takeWhile isNameChar
    ⟨.ok (.name (String.ofList name)), name, cs.dropWhile isNameChar⟩
  else
    match symbol? c with
    | some kind => ⟨.ok kind, [c], cs⟩
    | none => ⟨.error (.unknownSymbol c (min offset maxOffset)), [c], cs⟩

def skip (s : Scanner) : Scanner :=
  ⟨s.offset + Text.byteLength (s.rest.takeWhile isSkipped), s.rest.dropWhile isSkipped⟩

/-- The next token or error, and the scanner behind it. At the end of the line the token is
`Token.Kind.stop`, however often it is asked for. -/
def next (s : Scanner) : Except ScanError Token × Scanner :=
  let s := s.skip
  match s.rest with
  | [] => (.ok ⟨.stop, .ofBytes s.offset s.offset⟩, s)
  | c :: cs =>
    let l := lexeme s.offset c cs
    let stop := s.offset + Text.byteLength l.taken
    match l.result with
    | .ok kind => (.ok ⟨kind, .ofBytes s.offset stop⟩, ⟨stop, l.rest⟩)
    | .error cause => (.error ⟨cause, cause.bytes s.offset stop⟩, ⟨stop, l.rest⟩)

theorem eq_of_splitCode? {cs body rest : List Char} (h : splitCode? cs = some (body, rest)) :
    cs = body ++ '$' :: rest := by
  fun_induction splitCode? cs generalizing body rest with
  | case1 => simp at h
  | case2 cs => simp at h; simp [h]
  | case3 c cs _ ih =>
    obtain ⟨⟨b, r⟩, hr, he⟩ := Option.map_eq_some_iff.1 h
    cases he
    simp [ih hr]

theorem lexeme_append (offset : Nat) (c : Char) (cs : List Char) :
    (lexeme offset c cs).taken ++ (lexeme offset c cs).rest = c :: cs := by
  unfold lexeme
  split
  · simp
  split
  · split
    · rename_i h; simp [Text.Quoted.eq_of_split? h]
    · simp
  split
  · split
    · rename_i h; simp [eq_of_splitCode? h]
    · simp
  split
  · simp
  split
  · simp
  split <;> simp

theorem lexeme_taken (offset : Nat) (c : Char) (cs : List Char) :
    (lexeme offset c cs).taken.head? = some c := by
  unfold lexeme
  repeat' split
  all_goals rfl

theorem length_lexeme (offset : Nat) (c : Char) (cs : List Char) :
    (lexeme offset c cs).rest.length ≤ cs.length := by
  have happend := congrArg List.length (lexeme_append offset c cs)
  have htaken := lexeme_taken offset c cs
  cases h : (lexeme offset c cs).taken with
  | nil => simp [h] at htaken
  | cons d ds => simp [h] at happend; omega

theorem length_skip (s : Scanner) : s.skip.rest.length ≤ s.rest.length :=
  (List.dropWhile_sublist isSkipped).length_le

theorem length_next (s : Scanner) :
    (∃ t, s.next.1 = .ok t ∧ t.kind = .stop) ∨ s.next.2.rest.length < s.rest.length := by
  have hskip := length_skip s
  unfold next
  simp only
  split
  · exact .inl ⟨_, rfl, rfl⟩
  · rename_i c cs h
    have hl := length_lexeme s.skip.offset c cs
    rw [h, List.length_cons] at hskip
    right
    split <;> (simp only; omega)

theorem length_next_error {s s' : Scanner} {e : ScanError} (h : s.next = (.error e, s')) :
    s'.rest.length < s.rest.length := by
  simpa [h] using length_next s

theorem length_next_ok {s s' : Scanner} {t : Token} (h : s.next = (.ok t, s'))
    (ht : t.kind ≠ .stop) : s'.rest.length < s.rest.length := by
  simpa [h, ht] using length_next s

def tokens (s : Scanner) : Except ScanError (List Token) :=
  match h : s.next with
  | (.error e, _) => .error e
  | (.ok t, s') =>
    if ht : t.kind = .stop then .ok [t]
    else
      have := length_next_ok h ht
      match tokens s' with
      | .error e => .error e
      | .ok ts => .ok (t :: ts)
termination_by s.rest.length

/-- All results in front of the end of the line: the scan goes on behind each error. -/
def results (s : Scanner) : List (Except ScanError Token) :=
  match h : s.next with
  | (.error e, s') =>
    have := length_next_error h
    .error e :: results s'
  | (.ok t, s') =>
    if ht : t.kind = .stop then []
    else
      have := length_next_ok h ht
      .ok t :: results s'
termination_by s.rest.length

/-- A scanner read item by item: it yields no end of the line, and nothing behind an error. -/
structure Stream where
  scanner : Scanner
  finished : Bool

namespace Stream

def ofScanner (s : Scanner) : Stream := ⟨s, false⟩

def next (s : Stream) : Option (Except ScanError Token) × Stream :=
  if s.finished then (none, s)
  else
    match s.scanner.next with
    | (.error e, scanner) => (some (.error e), ⟨scanner, true⟩)
    | (.ok t, scanner) =>
      if t.kind = .stop then (none, ⟨scanner, true⟩) else (some (.ok t), ⟨scanner, false⟩)

end Stream

end Scanner

def Token.scan (s : String) (offset : Nat) : Except ScanError (List Token) :=
  (Scanner.ofString s offset).tokens

end NodeRules
