namespace NodeRules

/-- One more than the largest number a rule text can write. -/
def numberLimit : Nat := 0x100000000

/-- A hole number. Holes are counted from one and fit 32 bits. -/
structure Hole where
  number : Nat
  positive : 0 < number
  bounded : number < numberLimit
deriving DecidableEq

namespace Hole

def ofNumber? (n : Nat) : Option Hole :=
  if h : 0 < n ∧ n < numberLimit then some ⟨n, h.1, h.2⟩ else none

def index (h : Hole) : Nat := h.number - 1

def render (h : Hole) : String := "#" ++ toString h.number

end Hole

end NodeRules
