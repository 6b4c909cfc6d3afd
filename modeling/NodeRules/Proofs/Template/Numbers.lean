import Mathlib.Data.Char
import Mathlib.Data.List.GetD
import Mathlib.Data.List.Induction
import Mathlib.Data.Nat.Digits.Defs
import NodeRules.Proofs.Template.Cut
import NodeRules.Proofs.Token.Streams

namespace NodeRules

def decimalValue (d : String) : Nat :=
  Nat.ofDigits 10 (d.toList.reverse.map fun c => c.toNat - '0'.toNat)

theorem ofDigitChars_eq (ds : List Char) :
    Nat.ofDigitChars 10 ds 0 = Nat.ofDigits 10 (ds.reverse.map fun c => c.toNat - '0'.toNat) := by
  induction ds using List.reverseRecOn with
  | nil => rfl
  | append_singleton ds c ih =>
      rw [Nat.ofDigitChars_append, Nat.ofDigitChars_cons, Nat.ofDigitChars_nil, ih,
        List.reverse_append, List.reverse_singleton, List.singleton_append, List.map_cons,
        Nat.ofDigits_cons, Nat.add_comm]

namespace Scanner

def spanOfText (source : String) (offset : Nat) : Span :=
  .ofBytes offset (offset + source.utf8ByteSize)

def scannedAlone (source : String) (offset : Nat) :
    Except ScanError.Cause Token.Kind → Except ScanError (List Token)
  | .ok kind => .ok [⟨kind, spanOfText source offset⟩, stopBehind source offset]
  | .error cause => .error ⟨cause, spanOfText source offset⟩

theorem scannedAlone_eq_ok_iff {source : String} {offset : Nat}
    {result : Except ScanError.Cause Token.Kind} {kind : Token.Kind} :
    scannedAlone source offset result =
      .ok [⟨kind, spanOfText source offset⟩, stopBehind source offset] ↔ result = .ok kind := by
  cases result <;> simp [scannedAlone]

theorem scannedAlone_eq_error_iff {source : String} {offset : Nat}
    {result : Except ScanError.Cause Token.Kind} {cause : ScanError.Cause} :
    scannedAlone source offset result = .error ⟨cause, spanOfText source offset⟩ ↔
      result = .error cause := by
  cases result <;> simp [scannedAlone]

theorem scan_lexeme {source : String} {c : Char} {cs : List Char} {offset : Nat}
    {result : Except ScanError.Cause Token.Kind} (hsource : source.toList = c :: cs)
    (hc : isSkipped c = false) (h : lexeme offset c cs = ⟨result, c :: cs, []⟩)
    (hknown : ∀ symbol place, result ≠ .error (.unknownSymbol symbol place)) :
    Token.scan source offset = scannedAlone source offset result := by
  have hnone : ∀ b ∈ ([] : List Char), isSkipped b = true := by simp
  have hnext : (ofString source offset).next =
      ((Lexeme.mk result source.toList []).placed offset, ⟨offset + source.utf8ByteSize, []⟩) := by
    have heq := next_eq hnone hc offset cs
    rw [Text.byteLength, Nat.add_zero, h] at heq
    rw [ofString, Text.utf8ByteSize_eq, hsource]
    exact heq
  rw [Lexeme.placed, ← Text.utf8ByteSize_eq] at hnext
  cases result with
  | error cause =>
      have hspan :
          cause.bytes offset (offset + source.utf8ByteSize) = spanOfText source offset := by
        cases cause with
        | unknownSymbol symbol place => exact absurd rfl (hknown symbol place)
        | unterminatedText | unterminatedCode | missingHoleNumber | zeroHole | numberTooLarge => rfl
      rw [scannedAlone, ← hspan]
      exact tokens_of_error hnext
  | ok kind =>
      have hkind : kind ≠ .stop := (legible_of_lexeme (congrArg Lexeme.result h)).ne_stop
      rw [Token.scan, tokens_of_ok hnext hkind, tokens_of_stop rfl rfl]
      rfl

section Digits

variable {d : String} (hd : d ≠ "") (hdigits : ∀ c ∈ d.toList, c.isDigit = true)

theorem decimal_eq (d : String) : decimal d.toList = decimalValue d := ofDigitChars_eq d.toList

include hdigits in
theorem scan_hash (offset : Nat) :
    Token.scan ("#" ++ d) offset = scannedAlone ("#" ++ d) offset (hole d.toList) := by
  have htake := List.takeWhile_eq_self_iff.mpr hdigits
  have hdrop := List.dropWhile_eq_nil_iff.mpr hdigits
  have hsource : ("#" ++ d).toList = '#' :: d.toList := by simp
  refine scan_lexeme hsource rfl ?_ (hole_ne_unknown d.toList)
  simp [lexeme, htake, hdrop]

include hd hdigits in
theorem scan_digits (offset : Nat) :
    Token.scan d offset = scannedAlone d offset (number d.toList) := by
  obtain ⟨c, cs, hsource⟩ := List.exists_cons_of_ne_nil (mt String.toList_eq_nil_iff.mp hd)
  rw [hsource, List.forall_mem_cons] at hdigits
  obtain ⟨hc, hcs⟩ := hdigits
  have hskip : isSkipped c = false := not_isSkipped_of_isNameChar (isNameChar_of_isDigit c hc)
  rw [hsource]
  refine scan_lexeme hsource hskip ?_ (number_ne_unknown (c :: cs))
  rw [lexeme_of_isDigit hc, List.takeWhile_eq_self_iff.mpr hcs, List.dropWhile_eq_nil_iff.mpr hcs]

theorem number_eq_ok_iff :
    number d.toList = .ok (.number (decimalValue d)) ↔ decimalValue d < numberLimit := by
  rw [number, decimal_eq]
  split <;> simp_all

theorem number_eq_error_iff :
    number d.toList = .error (.numberTooLarge d) ↔ numberLimit ≤ decimalValue d := by
  rw [number, decimal_eq, String.ofList_toList]
  split <;> simp_all

include hd in
/-- Digits write zero, or the number of a hole, or too large a number. -/
theorem hole_cases :
    (decimalValue d = 0 ∧ hole d.toList = .error .zeroHole) ∨
    (∃ h : Hole, h.number = decimalValue d ∧ hole d.toList = .ok (.hole h)) ∨
    (numberLimit ≤ decimalValue d ∧ hole d.toList = .error (.numberTooLarge d)) := by
  rw [hole, if_neg (by simpa using hd), decimal_eq, String.ofList_toList]
  by_cases hlarge : numberLimit ≤ decimalValue d
  · exact .inr (.inr ⟨hlarge, if_pos hlarge⟩)
  rw [if_neg hlarge, Hole.ofNumber?]
  by_cases hzero : decimalValue d = 0
  · rw [hzero]
    exact .inl ⟨rfl, rfl⟩
  · have hfits : 0 < decimalValue d ∧ decimalValue d < numberLimit := by omega
    rw [dif_pos hfits]
    exact .inr (.inl ⟨_, rfl, rfl⟩)

end Digits

end Scanner

namespace Template

theorem instantiate_hash {d : String} (hd : d ≠ "") (hdigits : ∀ c ∈ d.toList, c.isDigit = true)
    {values : List String} (hvalues : values.length < 2 ^ 32 - 1) :
    instantiate ("#" ++ d) values =
      if 1 ≤ decimalValue d ∧ decimalValue d ≤ values.length then
        .ok (values.getD (decimalValue d - 1) "")
      else .error ⟨"#" ++ d, min (decimalValue d) (2 ^ 32 - 1), values.length⟩ := by
  let hole : Segment := ⟨d.toList, [], hdigits, by simp, by simp⟩
  have hnumber : hole.number = decimalValue d := by
    rw [Segment.number, if_neg (mt String.toList_eq_nil_iff.mp hd), ofDigitChars_eq]
    rfl
  have htext : ("#" ++ d).toList = [hole].flatMap Segment.text := by
    simp [hole, Segment.text]
  have hrange : hole.InRange values ↔ 1 ≤ decimalValue d ∧ decimalValue d ≤ values.length := by
    rw [Segment.InRange, hnumber]
  rw [instantiate, htext]
  obtain ⟨s, hfirst, hfill⟩ | ⟨hall, hfill⟩ := fill_segments_cases hvalues [hole]
  · obtain ⟨hmem, hout⟩ := hfirst.holds
    obtain rfl := List.mem_singleton.mp hmem
    rw [hfill, if_neg (mt hrange.mpr hout), holeNumber_digits, hnumber]
    rfl
  · rw [hfill, if_pos (hrange.mp (hall hole List.mem_cons_self))]
    simp [hole, Segment.filled, ← hnumber]

end Template

namespace Scanner

def ReadsHole (d : String) (offset : Nat) : Prop :=
  ∃ h : Hole, h.number = decimalValue d ∧ Token.scan ("#" ++ d) offset =
    .ok [⟨.hole h, spanOfText ("#" ++ d) offset⟩, stopBehind ("#" ++ d) offset]

section Digits

variable {d : String} (hd : d ≠ "")

include hd

theorem hole_eq_zero_iff : hole d.toList = .error .zeroHole ↔ decimalValue d = 0 := by
  obtain ⟨hzero, hhole⟩ | ⟨h, hnumber, hhole⟩ | ⟨hlarge, hhole⟩ := hole_cases hd
  · exact iff_of_true hhole hzero
  · have hpos := h.positive
    exact iff_of_false (by simp [hhole]) (by omega)
  · rw [numberLimit] at hlarge
    exact iff_of_false (by simp [hhole]) (by omega)

theorem hole_eq_large_iff :
    hole d.toList = .error (.numberTooLarge d) ↔ numberLimit ≤ decimalValue d := by
  obtain ⟨hzero, hhole⟩ | ⟨h, hnumber, hhole⟩ | ⟨hlarge, hhole⟩ := hole_cases hd
  · exact iff_of_false (by simp [hhole]) (by rw [hzero]; decide)
  · have hlimit := h.bounded
    exact iff_of_false (by simp [hhole]) (by omega)
  · exact iff_of_true hhole hlarge

theorem readsHole_iff (hdigits : ∀ c ∈ d.toList, c.isDigit = true) (offset : Nat) :
    ReadsHole d offset ↔ 1 ≤ decimalValue d ∧ decimalValue d < numberLimit := by
  constructor
  · rintro ⟨h, hnumber, -⟩
    rw [← hnumber]
    exact ⟨h.positive, h.bounded⟩
  · rintro ⟨hone, hlimit⟩
    obtain ⟨hzero, -⟩ | ⟨h, hnumber, hhole⟩ | ⟨hlarge, -⟩ := hole_cases hd
    · omega
    · exact ⟨h, hnumber, by rw [scan_hash hdigits, scannedAlone_eq_ok_iff, hhole]⟩
    · omega

end Digits

/-- Digits behind a `#` are read as the hole with their number, from 1 on as far as 32 bits go, and
digits alone as their number, as far as 32 bits go. A template that is such a hole is instantiated
by the value with this number if the hole can be read and there are so many values, and it fails
otherwise. -/
theorem hole_numbers_agree (d : String) (hd : d ≠ "") (hdigits : ∀ c ∈ d.toList, c.isDigit = true)
    (values : List String) (hvalues : values.length < 2 ^ 32 - 1) (offset : Nat) :
    (ReadsHole d offset ↔ 1 ≤ decimalValue d ∧ decimalValue d < 2 ^ 32) ∧
    (Token.scan ("#" ++ d) offset = .error ⟨.zeroHole, spanOfText ("#" ++ d) offset⟩ ↔
      decimalValue d = 0) ∧
    (Token.scan ("#" ++ d) offset = .error ⟨.numberTooLarge d, spanOfText ("#" ++ d) offset⟩ ↔
      2 ^ 32 ≤ decimalValue d) ∧
    (Token.scan d offset =
        .ok [⟨.number (decimalValue d), spanOfText d offset⟩, stopBehind d offset] ↔
      decimalValue d < 2 ^ 32) ∧
    (Token.scan d offset = .error ⟨.numberTooLarge d, spanOfText d offset⟩ ↔
      2 ^ 32 ≤ decimalValue d) ∧
    (ReadsHole d offset ∧ decimalValue d ≤ values.length →
      ∃ value, values[decimalValue d - 1]? = some value ∧
        Template.instantiate ("#" ++ d) values = .ok value) ∧
    (¬ (ReadsHole d offset ∧ decimalValue d ≤ values.length) →
      Template.instantiate ("#" ++ d) values =
        .error ⟨"#" ++ d, min (decimalValue d) (2 ^ 32 - 1), values.length⟩) := by
  have hreads := readsHole_iff hd hdigits offset
  rw [Template.instantiate_hash hd hdigits hvalues]
  refine ⟨hreads, ?_, ?_, ?_, ?_, ?_, ?_⟩
  · rw [scan_hash hdigits, scannedAlone_eq_error_iff, hole_eq_zero_iff hd]
  · rw [scan_hash hdigits, scannedAlone_eq_error_iff]
    exact hole_eq_large_iff hd
  · rw [scan_digits hd hdigits, scannedAlone_eq_ok_iff]
    exact number_eq_ok_iff
  · rw [scan_digits hd hdigits, scannedAlone_eq_error_iff]
    exact number_eq_error_iff
  · rintro ⟨hhole, hle⟩
    obtain ⟨hone, -⟩ := hreads.mp hhole
    have hlt : decimalValue d - 1 < values.length := by omega
    refine ⟨values[decimalValue d - 1], List.getElem?_eq_getElem hlt, ?_⟩
    rw [if_pos ⟨hone, hle⟩, List.getD_eq_getElem _ _ hlt]
  · intro hout
    rw [if_neg]
    rintro ⟨hone, hle⟩
    -- There are fewer values than numbers of 32 bits, so the hole could be read.
    have hlimit : decimalValue d < numberLimit := by
      rw [numberLimit]
      omega
    exact hout ⟨hreads.mpr ⟨hone, hlimit⟩, hle⟩

/-- A hole with zeros in front, and one that is taken for the largest number. -/
theorem hole_numbers_agree_limit :
    Template.instantiate ("#" ++ "002") ["#", "é"] = .ok "é" ∧
      Token.scan ("#" ++ "04294967297") 3 =
        .error ⟨.numberTooLarge "04294967297", ⟨3, 15⟩⟩ ∧
      Template.instantiate ("#" ++ "04294967297") ["#", "é"] =
        .error ⟨"#04294967297", 4294967295, 2⟩ := by
  have htwo : decimalValue "002" = 2 := by simp [decimalValue, Nat.ofDigits]
  have hlarge : decimalValue "04294967297" = 4294967297 := by simp [decimalValue, Nat.ofDigits]
  have hdigits : "002".toList.all Char.isDigit = true ∧
      "04294967297".toList.all Char.isDigit = true := by decide
  obtain ⟨hreads, -, -, -, -, hvalue, -⟩ :=
    hole_numbers_agree "002" (by decide) (List.all_eq_true.mp hdigits.1) ["#", "é"] (by decide) 3
  obtain ⟨-, -, hrefused, -, -, -, hfails⟩ :=
    hole_numbers_agree "04294967297" (by decide) (List.all_eq_true.mp hdigits.2) ["#", "é"]
      (by decide) 3
  rw [htwo] at hreads hvalue
  rw [hlarge] at hrefused hfails
  obtain ⟨value, hget, hfilled⟩ := hvalue ⟨hreads.mpr (by decide), by decide⟩
  cases hget
  exact ⟨hfilled, hrefused.mpr (by decide), hfails fun h => absurd h.2 (by decide)⟩

end Scanner

end NodeRules
