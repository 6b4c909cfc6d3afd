import Mathlib.Data.List.Basic
import NodeRules.Proofs.Token.Kinds

namespace NodeRules

def IsCapital (c : Char) : Prop := 'A' ≤ c ∧ c ≤ 'Z'

def IsLetter (c : Char) : Prop := IsCapital c ∨ ('a' ≤ c ∧ c ≤ 'z')

def IsLetterOrDigit (c : Char) : Prop := IsLetter c ∨ ('0' ≤ c ∧ c ≤ '9')

/-- The text matches `[A-Za-z][A-Za-z0-9]*`. -/
def MatchesName (s : String) : Prop :=
  ∃ c cs, s.toList = c :: cs ∧ IsLetter c ∧ ∀ d ∈ cs, IsLetterOrDigit d

/-- The text matches `[A-Z][A-Za-z0-9]*`. -/
def MatchesTypeName (s : String) : Prop :=
  ∃ c cs, s.toList = c :: cs ∧ IsCapital c ∧ ∀ d ∈ cs, IsLetterOrDigit d

theorem isCapital_iff {c : Char} : IsCapital c ↔ c.isUpper = true := by
  change (c.val ≥ 'A'.val ∧ c.val ≤ 'Z'.val) ↔ decide (c.val ≥ 'A'.val ∧ c.val ≤ 'Z'.val) = true
  exact decide_eq_true_iff.symm

theorem isLetter_iff {c : Char} : IsLetter c ↔ c.isAlpha = true := by
  have hlower : ('a' ≤ c ∧ c ≤ 'z') ↔ c.isLower = true := by
    change _ ↔ (decide (c.val ≥ 'a'.val) && decide (c.val ≤ 'z'.val)) = true
    rw [Bool.and_eq_true, decide_eq_true_iff, decide_eq_true_iff]
    exact Iff.rfl
  rw [IsLetter, isCapital_iff, hlower]
  exact Bool.or_eq_true_iff.symm

theorem IsLetter.toNat_lt {c : Char} (h : IsLetter c) : c.toNat < 0x80 := by
  rcases h with h | h
  · exact Nat.lt_of_le_of_lt h.2 (by decide)
  · exact Nat.lt_of_le_of_lt h.2 (by decide)

theorem IsLetter.recased {c : Char} (h : IsLetter c) : IsLetter c.toLower ∧ IsLetter c.toUpper := by
  have hall : ∀ n : Fin 0x80, (Char.ofNat n).isAlpha = true →
      (Char.ofNat n).toLower.isAlpha = true ∧ (Char.ofNat n).toUpper.isAlpha = true := by decide
  have hc := hall ⟨c.toNat, h.toNat_lt⟩
  rw [Char.ofNat_toNat, ← isLetter_iff, ← isLetter_iff, ← isLetter_iff] at hc
  exact hc h

theorem isLetterOrDigit_iff {c : Char} : IsLetterOrDigit c ↔ Scanner.isNameChar c = true := by
  simp [Scanner.isNameChar, Char.isDigit, IsLetterOrDigit, isLetter_iff, Char.le_def]

theorem Scanner.isName_iff {s : String} : IsName s.toList ↔ MatchesName s := by
  rw [IsName, MatchesName]
  constructor
  · rintro ⟨hfirst, hall⟩
    cases hs : s.toList with
    | nil => simp [hs] at hfirst
    | cons c cs =>
        rw [hs] at hfirst hall
        simp only [List.all_cons, Bool.and_eq_true, List.all_eq_true] at hall
        refine ⟨c, cs, rfl, isLetter_iff.mpr (by simpa using hfirst), ?_⟩
        exact fun d hd => isLetterOrDigit_iff.mpr (hall.2 d hd)
  · rintro ⟨c, cs, hs, hc, hcs⟩
    rw [hs]
    refine ⟨by simpa using isLetter_iff.mp hc, List.all_eq_true.mpr ?_⟩
    intro d hd
    rcases List.mem_cons.mp hd with rfl | hd
    · exact isLetterOrDigit_iff.mp (.inl hc)
    · exact isLetterOrDigit_iff.mp (hcs d hd)

instance (s : String) : Decidable (MatchesName s) :=
  decidable_of_iff (s.toList.head?.any Char.isAlpha ∧ s.toList.all Scanner.isNameChar)
    Scanner.isName_iff

theorem matchesTypeName_iff {s : String} :
    MatchesTypeName s ↔ s.toList.head?.any Char.isUpper ∧ s.toList.tail.all Scanner.isNameChar := by
  rw [MatchesTypeName]
  cases s.toList with
  | nil => simp
  | cons c cs => simp [isCapital_iff, isLetterOrDigit_iff]

instance (s : String) : Decidable (MatchesTypeName s) :=
  decidable_of_iff _ matchesTypeName_iff.symm

end NodeRules
