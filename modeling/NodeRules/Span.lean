namespace NodeRules

def maxOffset : Nat := 0xFFFFFFFF

/-- The UTF-8 bytes from `start` up to, and not including, `stop`. An offset that does not fit 32
bits becomes `maxOffset`. -/
structure Span where
  start : Nat
  stop : Nat
deriving DecidableEq

namespace Span

def nowhere : Span := ⟨0, 0⟩

def ofBytes (start stop : Nat) : Span := ⟨min start maxOffset, min stop maxOffset⟩

def point (offset : Nat) : Span := ⟨offset, offset⟩

def length? (s : Span) : Option Nat := if s.start ≤ s.stop then some (s.stop - s.start) else none

def isEmpty (s : Span) : Bool := s.start == s.stop

def cover (s t : Span) : Span := ⟨min s.start t.start, max s.stop t.stop⟩

def shift (s : Span) (n : Nat) : Span := ofBytes (s.start + n) (s.stop + n)

def render (s : Span) : String := toString s.start ++ ".." ++ toString s.stop

end Span

end NodeRules
