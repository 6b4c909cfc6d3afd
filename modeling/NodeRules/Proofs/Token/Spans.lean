import Mathlib.Data.List.TakeWhile
import Mathlib.Logic.Function.Iterate
import NodeRules.Proofs.Token.Kinds

namespace NodeRules

namespace Text

theorem size_utf8Encode (cs : List Char) : cs.utf8Encode.size = byteLength cs := by
  induction cs with
  | nil => rfl
  | cons c cs ih =>
      rw [List.utf8Encode_cons, ByteArray.size_append, ih, List.utf8Encode_singleton,
        List.size_toByteArray, String.length_utf8EncodeChar, byteLength]

theorem utf8ByteSize_eq (s : String) : s.utf8ByteSize = byteLength s.toList := by
  rw [← size_utf8Encode, String.utf8Encode_toList]
  rfl

theorem byteLength_pos {cs : List Char} (h : cs ≠ []) : 0 < byteLength cs := by
  obtain ⟨c, cs, rfl⟩ := List.exists_cons_of_ne_nil h
  have hc := c.utf8Size_pos
  rw [byteLength]
  omega

end Text

theorem Span.ofBytes_eq {start stop : Nat} (hle : start ≤ stop) (h : stop ≤ maxOffset) :
    ofBytes start stop = ⟨start, stop⟩ := by
  rw [ofBytes, Nat.min_eq_left h, Nat.min_eq_left (hle.trans h)]

def Span.Contains (s : Span) (offset : Nat) : Prop := s.start ≤ offset ∧ offset < s.stop

namespace Scanner

def spanOf : Except ScanError Token → Span
  | .ok t => t.span
  | .error e => e.span

def stopOffset (s : Scanner) : Nat := s.offset + Text.byteLength s.rest

def spanAt (start stop : Nat) : Except ScanError Token → Span
  | .ok _ => .ofBytes start stop
  | .error e => e.cause.bytes start stop

def endAt (offset : Nat) : Except ScanError Token := .ok ⟨.stop, .ofBytes offset offset⟩

/-- A result that is not the end of the line is read behind skipped characters, and takes at least
one character. -/
inductive Reads : Scanner → Except ScanError Token → Scanner → Prop
  | mk {o : Nat} {blanks taken rest : List Char} {result : Except ScanError Token}
      (hblanks : ∀ c ∈ blanks, isSkipped c = true) (htaken : taken ≠ [])
      (hstop : ∀ t, result = .ok t → t.kind ≠ .stop)
      (hspan : spanOf result = spanAt (o + Text.byteLength blanks)
        (o + Text.byteLength blanks + Text.byteLength taken) result)
      (hfits : o + Text.byteLength blanks + Text.byteLength taken ≤ maxOffset →
        spanOf result = ⟨o + Text.byteLength blanks,
          o + Text.byteLength blanks + Text.byteLength taken⟩) :
      Reads ⟨o, blanks ++ (taken ++ rest)⟩ result
        ⟨o + Text.byteLength blanks + Text.byteLength taken, rest⟩

theorem exists_skip (s : Scanner) : ∃ blanks, (∀ c ∈ blanks, isSkipped c = true) ∧
    s.rest = blanks ++ s.skip.rest ∧ s.skip.offset = s.offset + Text.byteLength blanks :=
  ⟨s.rest.takeWhile isSkipped, fun _ hc => List.mem_takeWhile_imp hc,
    List.takeWhile_append_dropWhile.symm, rfl⟩

theorem lexeme_taken_ne (o : Nat) (c : Char) (cs : List Char) : (lexeme o c cs).taken ≠ [] := by
  intro hnil
  have htaken := lexeme_taken o c cs
  rw [hnil] at htaken
  cases htaken

theorem hole_ne_unknown (digits : List Char) (symbol : Char) (offset : Nat) :
    hole digits ≠ .error (.unknownSymbol symbol offset) := by
  rw [hole]
  repeat' split
  all_goals simp

theorem number_ne_unknown (digits : List Char) (symbol : Char) (offset : Nat) :
    number digits ≠ .error (.unknownSymbol symbol offset) := by
  rw [number]
  split <;> simp

theorem lexeme_unknown (o : Nat) (c : Char) (cs : List Char) {symbol : Char} {offset : Nat} :
    (lexeme o c cs).result = .error (.unknownSymbol symbol offset) →
      (lexeme o c cs).taken = [symbol] ∧ offset = min o maxOffset := by
  fun_cases lexeme o c cs with
  | case1 hhash digits => exact fun h => absurd h (hole_ne_unknown digits symbol offset)
  | case6 hhash hquote hdollar hdigit digits =>
      exact fun h => absurd h (number_ne_unknown digits symbol offset)
  | case9 =>
      intro h
      cases h
      exact ⟨rfl, rfl⟩
  | case2 | case3 | case4 | case5 | case7 | case8 =>
      intro h
      cases h

theorem bytes_eq {o : Nat} {c : Char} {cs : List Char} {cause : ScanError.Cause}
    (h : (lexeme o c cs).result = .error cause)
    (hfits : o + Text.byteLength (lexeme o c cs).taken ≤ maxOffset) :
    cause.bytes o (o + Text.byteLength (lexeme o c cs).taken) =
      ⟨o, o + Text.byteLength (lexeme o c cs).taken⟩ := by
  have hle : o ≤ o + Text.byteLength (lexeme o c cs).taken := Nat.le_add_right _ _
  cases cause with
  | unknownSymbol symbol offset =>
      have hstart : min o maxOffset = o := Nat.min_eq_left (hle.trans hfits)
      rw [(lexeme_unknown o c cs h).1, Text.byteLength, Text.byteLength, Nat.add_zero] at hfits ⊢
      rw [ScanError.Cause.bytes, hstart, Nat.mod_eq_of_lt (Nat.lt_succ_of_le hfits)]
  | unterminatedText | unterminatedCode | missingHoleNumber | zeroHole | numberTooLarge =>
      exact Span.ofBytes_eq hle hfits

/-- Everything that one call of `next` can do. -/
theorem next_cases (s : Scanner) :
    ((∀ c ∈ s.rest, isSkipped c = true) ∧ s.next = (endAt s.stopOffset, ⟨s.stopOffset, []⟩)) ∨
      Reads s s.next.1 s.next.2 := by
  obtain ⟨blanks, hblanks, hrest, hoffset⟩ := s.exists_skip
  obtain ⟨o, cs⟩ := s
  rw [next]
  generalize skip ⟨o, cs⟩ = behind at hrest hoffset
  obtain ⟨o', cs'⟩ := behind
  dsimp only at hrest hoffset
  subst hrest hoffset
  cases cs' with
  | nil =>
      left
      rw [List.append_nil]
      exact ⟨hblanks, rfl⟩
  | cons c cs =>
      right
      have htaken := lexeme_taken_ne (o + Text.byteLength blanks) c cs
      dsimp only
      rw [← lexeme_append (o + Text.byteLength blanks) c cs]
      cases hresult : (lexeme (o + Text.byteLength blanks) c cs).result with
      | error cause => exact .mk hblanks htaken (fun t ht => by cases ht) rfl (bytes_eq hresult)
      | ok kind =>
          refine .mk hblanks htaken ?_ rfl (Span.ofBytes_eq (Nat.le_add_right _ _))
          rintro t ⟨⟩
          exact (legible_of_lexeme hresult).ne_stop

section Reads

variable {s s' : Scanner} {r : Except ScanError Token}

theorem Reads.ne_stop (h : Reads s r s') {t : Token} (ht : r = .ok t) : t.kind ≠ .stop := by
  cases h with
  | mk hblanks htaken hstop => exact hstop t ht

theorem Reads.stopOffset_eq (h : Reads s r s') : s'.stopOffset = s.stopOffset := by
  cases h
  simp [stopOffset, Nat.add_assoc]

theorem results_of_stop (h : s.next = (endAt s.stopOffset, s')) : s.results = [] := by
  rw [results]
  split
  · rename_i heq
    rw [h] at heq
    cases heq
  · rename_i heq
    rw [h] at heq
    cases heq
    rfl

theorem Reads.results_eq (h : Reads s s.next.1 s.next.2) :
    s.results = s.next.1 :: s.next.2.results := by
  cases hnext : s.next with
  | mk r s' =>
      rw [hnext] at h
      rw [results]
      split
      · rename_i heq
        rw [hnext] at heq
        cases heq
        rfl
      · rename_i heq
        rw [hnext] at heq
        cases heq
        simp [h.ne_stop rfl]

end Reads

theorem next_iterate (s : Scanner) (n : Nat) :
    ((fun s : Scanner => s.next.2)^[n] s).next.1 = s.results.getD n (endAt s.stopOffset) := by
  induction n generalizing s with
  | zero =>
      rw [Function.iterate_zero_apply]
      obtain ⟨-, hnext⟩ | hreads := s.next_cases
      · rw [results_of_stop hnext, hnext, List.getD_nil]
      · rw [hreads.results_eq, List.getD_cons_zero]
  | succ n ih =>
      rw [Function.iterate_succ_apply, ih]
      obtain ⟨-, hnext⟩ | hreads := s.next_cases
      · rw [results_of_stop hnext, hnext, results_of_stop rfl]
        simp [stopOffset, Text.byteLength]
      · rw [hreads.results_eq, hreads.stopOffset_eq, List.getD_cons_succ]

/-- A scanner that is read up to the end of the line, and the results that it gives. -/
inductive Cuts : Scanner → List (Except ScanError Token) → Prop
  | stop {s : Scanner} (hblanks : ∀ c ∈ s.rest, isSkipped c = true) : Cuts s []
  | more {s s' : Scanner} {r : Except ScanError Token} {found : List (Except ScanError Token)}
      (hreads : Reads s r s') (hrest : Cuts s' found) : Cuts s (r :: found)

theorem Reads.shorter {s s' : Scanner} {r : Except ScanError Token} (h : Reads s r s') :
    s'.rest.length < s.rest.length := by
  cases h with
  | mk hblanks htaken =>
      have hpos := List.length_pos_iff.mpr htaken
      simp only [List.length_append]
      omega

theorem cuts_results (s : Scanner) : Cuts s s.results := by
  obtain ⟨hblanks, hnext⟩ | hreads := s.next_cases
  · rw [results_of_stop hnext]
    exact .stop hblanks
  · rw [hreads.results_eq]
    exact .more hreads (cuts_results s.next.2)
termination_by s.rest.length
decreasing_by exact hreads.shorter

def blankBytes : List UInt8 := [0x20, 0x09, 0x0D, 0x0A, 0x0C]

theorem utf8EncodeChar_blank {c : Char} (h : isSkipped c = true) :
    ∃ b ∈ blankBytes, String.utf8EncodeChar c = [b] := by
  simp only [isSkipped, Bool.or_eq_true, beq_iff_eq] at h
  rcases h with (((rfl | rfl) | rfl) | rfl) | rfl <;> decide

theorem utf8Size_of_isSkipped {c : Char} (h : isSkipped c = true) : c.utf8Size = 1 := by
  obtain ⟨b, -, hencode⟩ := utf8EncodeChar_blank h
  rw [← String.length_utf8EncodeChar, hencode, List.length_singleton]

theorem exists_blank_of_all {cs : List Char} (h : ∀ c ∈ cs, isSkipped c = true) {i : Nat}
    (hi : i < Text.byteLength cs) : ∃ before c after, cs = before ++ c :: after ∧
      isSkipped c = true ∧ Text.byteLength before = i := by
  induction cs generalizing i with
  | nil => cases hi
  | cons c cs ih =>
      have hc := h c List.mem_cons_self
      cases i with
      | zero => exact ⟨[], c, cs, rfl, hc, rfl⟩
      | succ i =>
          rw [Text.byteLength, utf8Size_of_isSkipped hc, Nat.add_comm i,
            Nat.add_lt_add_iff_left] at hi
          obtain ⟨before, d, after, rfl, hd, rfl⟩ :=
            ih (fun d hd => h d (List.mem_cons_of_mem c hd)) hi
          refine ⟨c :: before, d, after, rfl, hd, ?_⟩
          rw [Text.byteLength, utf8Size_of_isSkipped hc, Nat.add_comm]

namespace Cuts

variable {s : Scanner} {found : List (Except ScanError Token)} {r : Except ScanError Token}

theorem length_le (h : Cuts s found) : found.length ≤ Text.byteLength s.rest := by
  induction h with
  | stop => exact Nat.zero_le _
  | more hreads hrest ih =>
      cases hreads with
      | mk hblanks htaken =>
          have hpos := Text.byteLength_pos htaken
          simp only [Text.byteLength_append, List.length_cons]
          dsimp only at ih
          omega

theorem ne_stop (h : Cuts s found) (hr : r ∈ found) {t : Token} (ht : r = .ok t) :
    t.kind ≠ .stop := by
  induction h with
  | stop => cases hr
  | more hreads hrest ih =>
      rcases List.mem_cons.mp hr with rfl | hr
      · exact hreads.ne_stop ht
      · exact ih hr

theorem exists_place (h : Cuts s found) (hfits : s.stopOffset ≤ maxOffset) (hr : r ∈ found) :
    ∃ before inside after, s.rest = before ++ (inside ++ after) ∧ inside ≠ [] ∧
      spanOf r = ⟨s.offset + Text.byteLength before,
        s.offset + Text.byteLength before + Text.byteLength inside⟩ := by
  induction h with
  | stop => cases hr
  | more hreads hrest ih =>
      have hfits' := hreads.stopOffset_eq.trans_le hfits
      cases hreads with
      | @mk o blanks taken rest result hblanks htaken hstop _ hspan =>
          rcases List.mem_cons.mp hr with rfl | hr
          · simp only [stopOffset] at hfits'
            exact ⟨blanks, taken, rest, rfl, htaken, hspan (by omega)⟩
          · obtain ⟨before, inside, after, hrest, hinside, hspan⟩ := ih hfits' hr
            dsimp only at hrest hspan
            refine ⟨blanks ++ (taken ++ before), inside, after, ?_, hinside, ?_⟩
            · simp only [hrest, List.append_assoc]
            · simpa only [Text.byteLength_append, Nat.add_assoc] using hspan

theorem ordered (h : Cuts s found) (hfits : s.stopOffset ≤ maxOffset) :
    found.Pairwise fun r r' => (spanOf r).stop ≤ (spanOf r').start := by
  induction h with
  | stop => exact .nil
  | more hreads hrest ih =>
      have hfits' := hreads.stopOffset_eq.trans_le hfits
      refine .cons ?_ (ih hfits')
      intro r hr
      obtain ⟨before, inside, after, -, -, hspan⟩ := hrest.exists_place hfits' hr
      cases hreads with
      | mk hblanks htaken hstop _ hfirst =>
          simp only [stopOffset] at hfits'
          rw [hspan, hfirst (by omega)]
          exact Nat.le_add_right _ _

theorem exists_blank (h : Cuts s found) (hfits : s.stopOffset ≤ maxOffset) {i : Nat}
    (hi : i < Text.byteLength s.rest) (hout : ∀ r ∈ found, ¬ (spanOf r).Contains (s.offset + i)) :
    ∃ before c after, s.rest = before ++ c :: after ∧ isSkipped c = true ∧
      Text.byteLength before = i := by
  induction h generalizing i with
  | stop hblanks => exact exists_blank_of_all hblanks hi
  | more hreads hrest ih =>
      have hfits' := hreads.stopOffset_eq.trans_le hfits
      cases hreads with
      | @mk o blanks taken rest _ hblanks _ _ _ hspan =>
          simp only [stopOffset, Text.byteLength_append] at hi hfits' ih
          -- The byte stands in the blanks, or in the result, which is excluded, or behind both.
          rcases Nat.lt_or_ge i (Text.byteLength blanks) with hlt | hge
          · obtain ⟨before, c, after, rfl, hc, hbefore⟩ := exists_blank_of_all hblanks hlt
            exact ⟨before, c, after ++ (taken ++ rest), by simp, hc, hbefore⟩
          rcases Nat.lt_or_ge i (Text.byteLength blanks + Text.byteLength taken) with hlt | hge'
          · refine absurd ?_ (hout _ List.mem_cons_self)
            rw [hspan (by omega)]
            exact ⟨Nat.add_le_add_left hge o, by dsimp only; omega⟩
          · obtain ⟨j, rfl⟩ := Nat.exists_eq_add_of_le hge'
            have hout' : ∀ r ∈ _, ¬ (spanOf r).Contains _ := fun r hr =>
              hout r (List.mem_cons_of_mem _ hr)
            simp only [← Nat.add_assoc] at hout'
            obtain ⟨before, c, after, rfl, hc, rfl⟩ := ih hfits' (by omega) hout'
            exact ⟨blanks ++ (taken ++ before), c, after, by simp, hc, by simp [Nat.add_assoc]⟩

end Cuts

section Source

variable {source : String} {before after : List Char}

theorem getElem_toByteArray_blank {c : Char} (h : source.toList = before ++ c :: after)
    (hc : isSkipped c = true) (hi : Text.byteLength before < source.toByteArray.size) :
    source.toByteArray[Text.byteLength before] ∈ blankBytes := by
  obtain ⟨b, hb, hencode⟩ := utf8EncodeChar_blank hc
  have hbytes : source.toByteArray =
      before.utf8Encode ++ ([b].toByteArray ++ after.utf8Encode) := by
    rw [← String.utf8Encode_toList, h, List.utf8Encode_append, List.utf8Encode_cons,
      List.utf8Encode_singleton, hencode]
  simp only [hbytes]
  rw [ByteArray.getElem_append_right (Text.size_utf8Encode before).le]
  simp only [Text.size_utf8Encode, Nat.sub_self]
  rw [ByteArray.getElem_append_left Nat.one_pos]
  exact hb

theorem isValid_of_append (h : source.toList = before ++ after) :
    String.Pos.Raw.IsValid source ⟨Text.byteLength before⟩ := by
  rw [String.Pos.Raw.isValid_iff_exists_append]
  refine ⟨.ofList before, .ofList after, ?_, ?_⟩
  · rw [← String.ofList_append, ← h, String.ofList_toList]
  · rw [String.rawEndPos, Text.utf8ByteSize_eq, String.toList_ofList]

end Source

/-- The results `found` make up the text `source`, which stands `offset` bytes into its line: they
stand one behind the other, and only blanks are left out. -/
structure MakesUp (source : String) (offset : Nat) (found : List (Except ScanError Token)) :
    Prop where
  length_le : found.length ≤ source.utf8ByteSize
  nonempty : ∀ r ∈ found, (spanOf r).start < (spanOf r).stop
  inside : ∀ r ∈ found,
    offset ≤ (spanOf r).start ∧ (spanOf r).stop ≤ offset + source.utf8ByteSize
  boundary : ∀ r ∈ found, String.Pos.Raw.IsValid source ⟨(spanOf r).start - offset⟩ ∧
    String.Pos.Raw.IsValid source ⟨(spanOf r).stop - offset⟩
  ordered : found.Pairwise fun r r' => (spanOf r).stop ≤ (spanOf r').start
  blank : ∀ (i : Nat) (hi : i < source.toByteArray.size),
    (∀ r ∈ found, ¬ (spanOf r).Contains (offset + i)) → source.toByteArray[i] ∈ blankBytes

section Whole

variable {source : String} {offset : Nat} (h : offset + source.utf8ByteSize ≤ maxOffset)

include h

theorem stopOffset_le : (ofString source offset).stopOffset ≤ maxOffset := by
  rwa [stopOffset, ofString, ← Text.utf8ByteSize_eq]

theorem exists_span {r : Except ScanError Token} (hr : r ∈ (ofString source offset).results) :
    ∃ before inside after, source.toList = before ++ (inside ++ after) ∧ inside ≠ [] ∧
      spanOf r = ⟨offset + Text.byteLength before,
        offset + Text.byteLength before + Text.byteLength inside⟩ := by
  exact (cuts_results _).exists_place (stopOffset_le h) hr

theorem results_makeUp : MakesUp source offset (ofString source offset).results := by
  have hcuts := cuts_results (ofString source offset)
  have hsize := Text.utf8ByteSize_eq source
  refine ⟨hsize ▸ hcuts.length_le, ?_, ?_, ?_, hcuts.ordered (stopOffset_le h), ?_⟩
  · intro r hr
    obtain ⟨before, inside, after, -, hinside, hspan⟩ := exists_span h hr
    have hpos := Text.byteLength_pos hinside
    rw [hspan]
    dsimp only
    omega
  · intro r hr
    obtain ⟨before, inside, after, hsource, -, hspan⟩ := exists_span h hr
    rw [hsource] at hsize
    simp only [Text.byteLength_append] at hsize
    rw [hspan]
    dsimp only
    omega
  · intro r hr
    obtain ⟨before, inside, after, hsource, -, hspan⟩ := exists_span h hr
    rw [hspan]
    simp only [Nat.add_assoc, Nat.add_sub_cancel_left]
    refine ⟨isValid_of_append hsource, ?_⟩
    rw [← Text.byteLength_append]
    exact isValid_of_append (by rw [hsource, List.append_assoc])
  · intro i hi hout
    obtain ⟨before, c, after, hsource, hc, rfl⟩ :=
      hcuts.exists_blank (stopOffset_le h) (hsize ▸ hi) hout
    exact getElem_toByteArray_blank hsource hc hi

end Whole

/-- Calls of `next`, one after the other and whatever they answer, first give the results, none of
which is the end of the line, and then the end of the line for ever. The results make up the text
but for blanks. -/
theorem next_lossless (source : String) (offset : Nat)
    (h : offset + source.utf8ByteSize ≤ maxOffset) :
    (∀ n, ((fun s : Scanner => s.next.2)^[n] (ofString source offset)).next.1 =
      (ofString source offset).results.getD n
        (.ok ⟨.stop, .point (offset + source.utf8ByteSize)⟩)) ∧
    (∀ t, .ok t ∈ (ofString source offset).results → t.kind ≠ .stop) ∧
    MakesUp source offset (ofString source offset).results := by
  refine ⟨?_, fun t ht => (cuts_results _).ne_stop ht rfl, results_makeUp h⟩
  intro n
  have hend : (ofString source offset).stopOffset = offset + source.utf8ByteSize := by
    rw [stopOffset, ofString, ← Text.utf8ByteSize_eq]
  rw [next_iterate, hend, endAt, Span.ofBytes_eq le_rfl h]
  rfl

/-- A symbol of two bytes, a hole without a place, text with a quote in it, and open code. -/
def patchwork : String := "é#0\t\"\\\"é\" $x "

def patchworkResults : List (Except ScanError Token) :=
  [.error ⟨.unknownSymbol 'é' 4294967280, ⟨4294967280, 4294967282⟩⟩,
    .error ⟨.zeroHole, ⟨4294967282, 4294967284⟩⟩,
    .ok ⟨.text "\"é", ⟨4294967285, 4294967291⟩⟩,
    .error ⟨.unterminatedCode, ⟨4294967292, 4294967295⟩⟩]

theorem next_lossless_patchwork :
    4294967280 + patchwork.utf8ByteSize ≤ maxOffset ∧
      (ofString patchwork 4294967280).results = patchworkResults ∧
      ((fun s : Scanner => s.next.2)^[9] (ofString patchwork 4294967280)).next.1 =
        .ok ⟨.stop, .point 4294967295⟩ ∧
      MakesUp patchwork 4294967280 patchworkResults := by
  have hfits : 4294967280 + patchwork.utf8ByteSize ≤ maxOffset := by decide
  have hresults : (ofString patchwork 4294967280).results = patchworkResults := by
    with_unfolding_all rfl
  obtain ⟨hcalls, -, hparts⟩ := next_lossless patchwork 4294967280 hfits
  refine ⟨hfits, hresults, ?_, hresults ▸ hparts⟩
  rw [hcalls, hresults]
  rfl

end Scanner

end NodeRules
