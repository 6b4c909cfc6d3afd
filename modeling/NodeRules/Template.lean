import NodeRules.Hole
import NodeRules.Diagnostic

namespace NodeRules

namespace Template

structure Failure where
  template : String
  number : Nat
  available : Nat
deriving DecidableEq

def Failure.message (f : Failure) : String :=
  "template `" ++ f.template ++ "` uses hole #" ++ toString f.number ++ ", but only " ++
    toString f.available ++ " value(s) are available"

def holeNumber (digits : List Char) : Nat :=
  if digits.isEmpty then 1 else min (Nat.ofDigitChars 10 digits 0) (numberLimit - 1)

def value? (values : List String) (number : Nat) : Option String :=
  (Hole.ofNumber? number).bind fun hole => values[hole.index]?

/-- Puts values into holes. A `#` without digits is the first hole, and `Except.error` is the number
of the first hole without a value. -/
def fill (values : List String) : List Char → Except Nat (List Char)
  | [] => .ok []
  | c :: cs =>
    if c = '#' then
      let number := holeNumber (cs.takeWhile Char.isDigit)
      match value? values number with
      | none => .error number
      | some value => (value.toList ++ ·) <$> fill values (cs.dropWhile Char.isDigit)
    else (c :: ·) <$> fill values cs
termination_by cs => cs.length
decreasing_by
  all_goals
    have := (List.dropWhile_sublist Char.isDigit (l := cs)).length_le
    simp only [List.length_cons]
    omega

/-- The template with its holes replaced. Values are taken as they are, also where they hold a
`#`. -/
def instantiate (template : String) (values : List String) : Except Failure String :=
  match fill values template.toList with
  | .ok text => .ok (String.ofList text)
  | .error number => .error ⟨template, number, values.length⟩

end Template

end NodeRules
