import NodeRules.Proofs.Results
import NodeRules.Template

namespace NodeRules.Template

/-- Somewhere in the text, `digits` are all digits behind a `#`. -/
def HasHole (cs digits : List Char) : Prop :=
  ∃ before after, cs = before ++ '#' :: after ∧ after.takeWhile Char.isDigit = digits

variable {cs digits : List Char} {values : List String}

theorem not_hasHole_nil : ¬ HasHole [] digits := by
  rintro ⟨before, after, he, -⟩
  simp at he

theorem hasHole_hash :
    HasHole ('#' :: cs) digits ↔ cs.takeWhile Char.isDigit = digits ∨ HasHole cs digits := by
  constructor
  · rintro ⟨before, after, he, hdigits⟩
    cases before with
    | nil =>
        obtain ⟨-, rfl⟩ := List.cons.inj he
        exact .inl hdigits
    | cons c before =>
        obtain ⟨-, rfl⟩ := List.cons.inj he
        exact .inr ⟨before, after, rfl, hdigits⟩
  · rintro (hdigits | ⟨before, after, rfl, hdigits⟩)
    · exact ⟨[], cs, rfl, hdigits⟩
    · exact ⟨'#' :: before, after, rfl, hdigits⟩

theorem hasHole_cons {c : Char} (hc : c ≠ '#') : HasHole (c :: cs) digits ↔ HasHole cs digits := by
  constructor
  · rintro ⟨before, after, he, hdigits⟩
    cases before with
    | nil => exact absurd (List.cons.inj he).1 hc
    | cons d before =>
        obtain ⟨-, rfl⟩ := List.cons.inj he
        exact ⟨before, after, rfl, hdigits⟩
  · rintro ⟨before, after, rfl, hdigits⟩
    exact ⟨c :: before, after, rfl, hdigits⟩

/-- No hole starts among the digits of another. -/
theorem hasHole_dropWhile : HasHole (cs.dropWhile Char.isDigit) digits ↔ HasHole cs digits := by
  induction cs with
  | nil => rfl
  | cons c cs ih =>
      by_cases hc : c.isDigit = true
      · have hne : c ≠ '#' := by
          rintro rfl
          revert hc
          decide
        rw [List.dropWhile_cons_of_pos hc, ih, hasHole_cons hne]
      · rw [List.dropWhile_cons_of_neg hc]

theorem exists_fill_iff : (∃ text, fill values cs = .ok text) ↔
    ∀ digits, HasHole cs digits → (value? values (holeNumber digits)).isSome = true := by
  fun_induction fill values cs with
  | case1 => simp [not_hasHole_nil]
  | case2 cs number hnone =>
      constructor
      · rintro ⟨text, h⟩
        cases h
      · intro h
        have hsome := h _ (hasHole_hash.mpr (.inl rfl))
        rw [hnone] at hsome
        cases hsome
  | case3 cs number value hvalue ih =>
      rw [exists_map_ok_iff, ih]
      simp only [hasHole_dropWhile, hasHole_hash]
      constructor
      · rintro h digits (rfl | hhole)
        · exact Option.isSome_iff_exists.mpr ⟨value, hvalue⟩
        · exact h digits hhole
      · intro h digits hhole
        exact h digits (.inr hhole)
  | case4 c cs hc ih =>
      rw [exists_map_ok_iff, ih]
      simp only [hasHole_cons hc]

theorem isSome_value?_singleton (value : String) (n : Nat) :
    (value? [value] n).isSome = true ↔ n = 1 := by
  rw [value?, Hole.ofNumber?]
  split
  · rename_i h
    rw [Option.bind_some, isSome_getElem?, List.length_singleton, Hole.index]
    dsimp only
    omega
  · rename_i h
    have hlimit : 1 < numberLimit := by decide
    simp only [Option.bind_none, Option.isSome_none, Bool.false_eq_true, false_iff]
    rintro rfl
    exact h ⟨Nat.one_pos, hlimit⟩

theorem holeNumber_eq_one_iff :
    holeNumber digits = 1 ↔ digits = [] ∨ Nat.ofDigitChars 10 digits 0 = 1 := by
  rw [holeNumber]
  split
  · rename_i hempty
    simp [List.isEmpty_iff.mp hempty]
  · rename_i hempty
    have hne : digits ≠ [] := by simpa using hempty
    have hlimit : 1 < numberLimit - 1 := by decide
    simp only [hne, false_or]
    omega

theorem exists_instantiate_iff {template : String} (value : String) :
    (∃ text, instantiate template [value] = .ok text) ↔
      ∀ digits, HasHole template.toList digits →
        digits = [] ∨ Nat.ofDigitChars 10 digits 0 = 1 := by
  have hfill : (∃ text, instantiate template [value] = .ok text) ↔
      ∃ text, fill [value] template.toList = .ok text := by
    rw [instantiate]
    cases fill [value] template.toList <;> simp
  rw [hfill, exists_fill_iff]
  simp only [isSome_value?_singleton, holeNumber_eq_one_iff]

end NodeRules.Template
