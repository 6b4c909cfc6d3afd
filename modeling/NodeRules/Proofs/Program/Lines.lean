import NodeRules.Proofs.Rule.Written

namespace NodeRules

namespace Text

theorem not_isBlank_of_isNameChar {c : Char} (h : Scanner.isNameChar c = true) :
    isBlank c = false := by
  rw [Scanner.isNameChar, Bool.or_eq_true, Scanner.isAlpha_iff, Scanner.isDigit_iff] at h
  simp only [isBlank, blankRanges, List.any_cons, List.any_nil, Bool.or_false,
    Bool.or_eq_false_iff, Bool.and_eq_false_iff, decide_eq_false_iff_not]
  omega

theorem trimStart_cons {c : Char} (h : isBlank c = false) (cs : List Char) :
    trimStart (c :: cs) = c :: cs := by
  simp [trimStart, h]

theorem trimEnd_append_cons {c : Char} (h : isBlank c = false) (xs ys : List Char) :
    trimEnd (xs ++ c :: ys) = xs ++ c :: trimEnd ys := by
  have hrev : (xs ++ c :: ys).reverse = ys.reverse ++ c :: xs.reverse := by simp
  unfold trimEnd
  rw [hrev, List.dropWhile_append]
  split
  · rename_i hall
    rw [List.isEmpty_iff.mp hall]
    simp [h]
  · simp

theorem trim_append_cons {b c : Char} (hb : isBlank b = false) (hc : isBlank c = false)
    (xs ys : List Char) : trim (b :: xs ++ c :: ys) = b :: xs ++ c :: trimEnd ys := by
  rw [trim, List.cons_append, trimStart_cons hb, ← List.cons_append, trimEnd_append_cons hc]

def stripReturn (l : List Char) : List Char := if l.getLast? = some '\r' then l.dropLast else l

theorem stripReturn_cons {c : Char} {l : List Char} (h : c ≠ '\r' ∨ l ≠ []) :
    stripReturn (c :: l) = c :: stripReturn l := by
  cases l with
  | nil => simp [stripReturn, h.resolve_right (by simp)]
  | cons d l =>
      simp only [stripReturn, List.getLast?_cons_cons, List.dropLast_cons_cons]
      split <;> rfl

theorem stripReturn_append_cons {c : Char} (h : c ≠ '\r') (xs ys : List Char) :
    stripReturn (xs ++ c :: ys) = xs ++ c :: stripReturn ys := by
  induction xs with
  | nil => exact stripReturn_cons (.inl h)
  | cons x xs ih =>
      rw [List.cons_append, stripReturn_cons (.inr (by simp)), ih]
      rfl

theorem stripReturn_subset (l : List Char) : stripReturn l ⊆ l := by
  unfold stripReturn
  split
  · exact List.dropLast_subset l
  · exact List.Subset.refl l

theorem splitLines_cons {c : Char} {cs : List Char} (hc : c ≠ '\n')
    (hr : c ≠ '\r' ∨ cs.head? ≠ some '\n') :
    splitLines (c :: cs) =
      match splitLines cs with
      | [] => [[c]]
      | line :: rest => (c :: line) :: rest := by
  have hreturn : ∀ rest, c = '\r' → cs = '\n' :: rest → False := by
    rintro rest rfl rfl
    simp at hr
  exact splitLines.eq_4 c cs hc hreturn

theorem splitLines_newline {l : List Char} (h : '\n' ∉ l) (rest : List Char) :
    splitLines (l ++ '\n' :: rest) = stripReturn l :: splitLines rest := by
  induction l with
  | nil => rfl
  | cons c l ih =>
      simp only [List.mem_cons, not_or] at h
      by_cases hr : c = '\r' ∧ l = []
      · obtain ⟨rfl, rfl⟩ := hr
        rfl
      · have hor : c ≠ '\r' ∨ l ≠ [] := not_and_or.mp hr
        have hnext : c ≠ '\r' ∨ (l ++ '\n' :: rest).head? ≠ some '\n' := by
          rcases hor with hc | hl
          · exact .inl hc
          · obtain ⟨d, l, rfl⟩ := List.exists_cons_of_ne_nil hl
            simp only [List.mem_cons, not_or] at h
            exact .inr (fun he => h.2.1 (Option.some.inj he).symm)
        rw [List.cons_append, splitLines_cons (fun he => h.1 he.symm) hnext, ih h.2,
          stripReturn_cons hor]

theorem splitLines_singleton {l : List Char} (h : '\n' ∉ l) (hne : l ≠ []) :
    splitLines l = [l] := by
  induction l with
  | nil => exact absurd rfl hne
  | cons c l ih =>
      simp only [List.mem_cons, not_or] at h
      have hnext : l.head? ≠ some '\n' := fun he => h.2 (List.mem_of_mem_head? he)
      rw [splitLines_cons (fun he => h.1 he.symm) (.inr hnext)]
      cases l with
      | nil => rfl
      | cons d l => rw [ih h.2 (by simp)]

theorem splitLines_head {c : Char} (hc : c ≠ '\n') (hr : c ≠ '\r') (rest : List Char)
    {l : List Char} (h : '\n' ∉ l) :
    ∃ more others, splitLines (l ++ c :: rest) = (l ++ c :: more) :: others := by
  induction l with
  | nil =>
      rw [List.nil_append, splitLines_cons hc (.inl hr)]
      cases splitLines rest with
      | nil => exact ⟨[], [], rfl⟩
      | cons line others => exact ⟨line, others, rfl⟩
  | cons d l ih =>
      simp only [List.mem_cons, not_or] at h
      have hnext : (l ++ c :: rest).head? ≠ some '\n' := by
        cases l with
        | nil => exact fun he => hc (Option.some.inj he)
        | cons e l =>
            simp only [List.mem_cons, not_or] at h
            exact fun he => h.2.1 (Option.some.inj he).symm
      obtain ⟨more, others, heq⟩ := ih h.2
      refine ⟨more, others, ?_⟩
      rw [List.cons_append, splitLines_cons (fun he => h.1 he.symm) (.inr hnext), heq]
      rfl

/-- A line that survives the way into a text and back: no line feed, and no carriage return at its
end. -/
def IsLine (l : List Char) : Prop := '\n' ∉ l ∧ ∃ init last, l = init ++ [last] ∧ last ≠ '\r'

theorem IsLine.append {l front : List Char} (h : IsLine l) (hfront : '\n' ∉ front) :
    IsLine (front ++ l) := by
  obtain ⟨hn, init, last, rfl, hr⟩ := h
  refine ⟨?_, front ++ init, last, by rw [List.append_assoc], hr⟩
  rw [List.mem_append, not_or]
  exact ⟨hfront, hn⟩

theorem IsLine.ne_nil {l : List Char} (h : IsLine l) : l ≠ [] := by
  obtain ⟨-, init, last, rfl, -⟩ := h
  simp

/-- A line that survives in front of another one: it may be empty. -/
structure IsInnerLine (l : List Char) : Prop where
  noNewline : '\n' ∉ l
  noReturn : l.getLast? ≠ some '\r'

theorem IsInnerLine.stripReturn_eq {l : List Char} (h : IsInnerLine l) : stripReturn l = l := by
  rw [stripReturn, if_neg h.noReturn]

theorem IsLine.isInnerLine {l : List Char} (h : IsLine l) : IsInnerLine l := by
  obtain ⟨hn, init, last, rfl, hr⟩ := h
  exact ⟨hn, by simpa using hr⟩

theorem splitLines_innerLines {ls : List (List Char)} (h : ∀ l ∈ ls, IsInnerLine l)
    (rest : List Char) :
    splitLines ((ls.flatMap fun l => l ++ ['\n']) ++ rest) = ls ++ splitLines rest := by
  induction ls with
  | nil => rfl
  | cons l ls ih =>
      have hl := h l List.mem_cons_self
      rw [List.flatMap_cons, List.append_assoc, List.append_assoc, List.singleton_append,
        splitLines_newline hl.noNewline, hl.stripReturn_eq,
        ih (fun m hm => h m (List.mem_cons_of_mem l hm))]
      rfl

theorem splitLines_lines {ls : List (List Char)} (h : ∀ l ∈ ls, IsLine l) (rest : List Char) :
    splitLines ((ls.flatMap fun l => l ++ ['\n']) ++ rest) = ls ++ splitLines rest :=
  splitLines_innerLines (fun l hl => (h l hl).isInnerLine) rest

/-- Only the last line must not be empty. -/
theorem splitLines_intercalate_innerLines {ls : List (List Char)} (h : ∀ l ∈ ls, IsInnerLine l)
    (hlast : ls.getLast? ≠ some []) : splitLines (['\n'].intercalate ls) = ls := by
  rcases List.eq_nil_or_concat ls with rfl | ⟨init, last, rfl⟩
  · rfl
  · rw [List.concat_eq_append] at h hlast ⊢
    have hne : last ≠ [] := by simpa using hlast
    rw [intercalate_append_cons, splitLines_innerLines (fun l hl => h l (by simp [hl])),
      List.intercalate_singleton, splitLines_singleton (h last (by simp)).noNewline hne]

theorem splitLines_intercalate {ls : List (List Char)} (h : ∀ l ∈ ls, IsLine l) :
    splitLines (['\n'].intercalate ls) = ls := by
  refine splitLines_intercalate_innerLines (fun l hl => (h l hl).isInnerLine) fun hlast => ?_
  exact (h [] (List.mem_of_getLast? hlast)).ne_nil rfl

end Text

theorem splitArrow?_append {left : List Char} (h : '<' ∉ left) (right : List Char) :
    splitArrow? (left ++ '<' :: '-' :: right) = some (left, right) := by
  induction left with
  | nil => rfl
  | cons c left ih =>
      simp only [List.mem_cons, not_or] at h
      rw [List.cons_append, splitArrow?.eq_3 _ _ (fun _ he => absurd he.symm h.1), ih h.2]
      rfl

theorem splitArrow?_eq_none {cs : List Char} (h : '<' ∉ cs) : splitArrow? cs = none := by
  induction cs with
  | nil => rfl
  | cons c cs ih =>
      simp only [List.mem_cons, not_or] at h
      rw [splitArrow?.eq_3 _ _ (fun _ he => absurd he.symm h.1), ih h.2]
      rfl

theorem Scanner.IsName.not_mem {name : List Char} (h : IsName name) {c : Char}
    (hc : isNameChar c = false) : c ∉ name := by
  intro hmem
  have := List.all_eq_true.mp h.2 c hmem
  rw [hc] at this
  cases this

theorem Scanner.IsName.exists_cons {name : List Char} (h : IsName name) :
    ∃ c cs, name = c :: cs ∧ c.isAlpha = true ∧ Text.isBlank c = false := by
  cases name with
  | nil => cases h.1
  | cons c cs =>
      have halpha : c.isAlpha = true := by simpa using h.1
      exact ⟨c, cs, rfl, halpha, Text.not_isBlank_of_isNameChar (by simp [isNameChar, halpha])⟩

def arrowLine (name : String) (body : List Char) : List Char :=
  name.toList ++ " <- ".toList ++ body

namespace LineKind

theorem not_isComment {c : Char} (h : c.isAlpha = true) (cs : List Char) :
    isComment (c :: cs) = false := by
  unfold isComment
  split
  · rename_i he
    obtain ⟨rfl, -⟩ := List.cons.inj he
    revert h
    decide
  · rfl

theorem ofLine_arrowLine {name : String} (hname : Scanner.IsName name.toList) {c : Char}
    (hc : Text.isBlank c = false) (rest : List Char) :
    ofLine (arrowLine name (c :: rest)) = .rule := by
  obtain ⟨b, cs, hcs, halpha, hb⟩ := hname.exists_cons
  have htrim : Text.trim (arrowLine name (c :: rest)) =
      arrowLine name (c :: Text.trimEnd rest) := by
    rw [arrowLine, arrowLine, hcs, List.cons_append, Text.trim_append_cons hb hc]
  have hsplit : (splitArrow? (arrowLine name (c :: Text.trimEnd rest))).isNone = false := by
    have hleft : '<' ∉ name.toList ++ [' '] := by
      simpa using hname.not_mem (c := '<') rfl
    have heq : arrowLine name (c :: Text.trimEnd rest) =
        (name.toList ++ [' ']) ++ '<' :: '-' :: ' ' :: c :: Text.trimEnd rest := by
      simp [arrowLine]
    rw [heq, splitArrow?_append hleft]
    rfl
  have hempty : (arrowLine name (c :: Text.trimEnd rest)).isEmpty = false := by
    simp [arrowLine]
  have hcomment : isComment (arrowLine name (c :: Text.trimEnd rest)) = false := by
    rw [arrowLine, hcs]
    exact not_isComment halpha _
  simp [ofLine, htrim, hsplit, hempty, hcomment]

theorem trim_name {name : List Char} (h : Scanner.IsName name) : Text.trim name = name := by
  obtain ⟨b, cs, rfl, -, hb⟩ := h.exists_cons
  rw [Text.trim, Text.trimStart_cons hb]
  rcases List.eq_nil_or_concat (b :: cs) with he | ⟨init, last, he⟩
  · cases he
  · rw [List.concat_eq_append] at he
    have hlast : Text.isBlank last = false :=
      Text.not_isBlank_of_isNameChar (List.all_eq_true.mp h.2 last (by simp [he]))
    rw [he, Text.trimEnd_append_cons hlast]
    rfl

theorem ofLine_language {name : List Char} (h : Scanner.IsName name) :
    ofLine (name ++ [':']) = .language name := by
  obtain ⟨b, cs, hcs, halpha, hb⟩ := h.exists_cons
  have htrim : Text.trim (name ++ [':']) = name ++ [':'] := by
    rw [hcs, Text.trim_append_cons hb (by decide)]
    rfl
  have hsplit : splitArrow? (name ++ [':']) = none :=
    splitArrow?_eq_none (by simpa using h.not_mem (c := '<') rfl)
  have hcomment : isComment (name ++ [':']) = false := by
    rw [hcs]
    exact not_isComment halpha _
  simp [ofLine, htrim, hsplit, hcomment, trim_name h]

end LineKind

theorem kinds_left {name : String} (h : Scanner.IsName name.toList) :
    Scanner.kinds (name.toList ++ [' ']) = some [.name name, .stop] := by
  rw [Scanner.kinds_name h (by simp; rfl), Scanner.kinds_space, Scanner.kinds_nil,
    String.ofList_toList]
  rfl

/-- A line with a name and an arrow is read as the tokens behind the arrow are. -/
theorem Rule.ofLine_arrowLine {name : String} (hname : Scanner.IsName name.toList)
    (body : List Char) : ∃ span offset, Rule.ofLine (arrowLine name body) =
      (Scanner.mk offset (' ' :: body)).tokens.mapError .ofScan >>= Rule.ofTokens name span := by
  have hleft : '<' ∉ name.toList ++ [' '] := by
    simpa using hname.not_mem (c := '<') rfl
  have heq : arrowLine name body = (name.toList ++ [' ']) ++ '<' :: '-' :: ' ' :: body := by
    simp [arrowLine]
  obtain ⟨ts, hts, hkinds⟩ := Scanner.tokens_of_kinds (kinds_left hname) 0
  obtain ⟨t, ts, rfl, ht, hrest⟩ := List.map_eq_cons_iff.mp hkinds
  obtain ⟨t', ts, rfl, ht', -⟩ := List.map_eq_cons_iff.mp hrest
  have hread : Rule.readName (t :: t' :: ts) = .ok (name, t.span) := by
    cases t
    cases t'
    dsimp only at ht ht'
    subst ht ht'
    rfl
  refine ⟨t.span, Text.byteLength (name.toList ++ [' ']) + 2, ?_⟩
  rw [heq, Rule.ofLine, splitArrow?_append hleft]
  simp only [hts, Except.mapError, hread, bind, Except.bind]

end NodeRules
