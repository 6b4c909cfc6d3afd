namespace NodeRules.Text

def byteLength : List Char → Nat
  | [] => 0
  | c :: cs => c.utf8Size + byteLength cs

@[simp] theorem byteLength_append (cs ds : List Char) :
    byteLength (cs ++ ds) = byteLength cs + byteLength ds := by
  induction cs with
  | nil => simp [byteLength]
  | cons c cs ih => simp [byteLength, ih, Nat.add_assoc]

/-- A line ends at a line feed, or at a carriage return and a line feed. Text that ends with such a
mark has no further, empty line behind it. -/
def splitLines : List Char → List (List Char)
  | [] => []
  | '\n' :: cs => [] :: splitLines cs
  | '\r' :: '\n' :: cs => [] :: splitLines cs
  | c :: cs =>
    match splitLines cs with
    | [] => [[c]]
    | line :: rest => (c :: line) :: rest

def lines (s : String) : List String := (splitLines s.toList).map String.ofList

def blankRanges : List (Nat × Nat) :=
  [(0x9, 0xD), (0x20, 0x20), (0x85, 0x85), (0xA0, 0xA0), (0x1680, 0x1680), (0x2000, 0x200A),
    (0x2028, 0x2029), (0x202F, 0x202F), (0x205F, 0x205F), (0x3000, 0x3000)]

def isBlank (c : Char) : Bool := blankRanges.any fun r => r.1 ≤ c.toNat && c.toNat ≤ r.2

def trimStart (cs : List Char) : List Char := cs.dropWhile isBlank

def trimEnd (cs : List Char) : List Char := (cs.reverse.dropWhile isBlank).reverse

def trim (cs : List Char) : List Char := trimEnd (trimStart cs)

def insertSorted (s : String) : List String → List String
  | [] => [s]
  | t :: ts => if s < t then s :: t :: ts else if s = t then t :: ts else t :: insertSorted s ts

def sortedSet (ss : List String) : List String := ss.foldr insertSorted []

/-- The only one of the `size` indices from `base` on where a sorted table can hold `name`. Every
step leaves out half of them. -/
def indexIn (table : List String) (name : String) : (steps base size : Nat) → Nat
  | 0, base, _ => base
  | steps + 1, base, size =>
    let half := size / 2
    if half = 0 then base
    else if name < table.getD (base + half) "" then indexIn table name steps base (size - half)
    else indexIn table name steps (base + half) (size - half)

def isListed (table : List String) (name : String) : Bool :=
  table[indexIn table name table.length 0 table.length]? == some name

end NodeRules.Text
