import Mathlib.Data.List.DropRight
import Mathlib.Data.List.Forall2
import Mathlib.Data.List.Infix
import NodeRules.Proofs.Compile.Tidy
import NodeRules.Proofs.Program.Lines

namespace NodeRules

namespace Text

/-- `rest` is the line without the blanks at its end. -/
structure TrimsTo (line rest : String) : Prop where
  blanks : ∃ blanks, line.toList = rest.toList ++ blanks ∧ ∀ c ∈ blanks, isBlank c = true
  visible : ∀ c ∈ rest.toList.getLast?, isBlank c = false

structure Framed (lines : List String) : Prop where
  first : lines.head? ≠ some ""
  last : lines.getLast? ≠ some ""

/-- Of the runs of neighbouring lines that neither start nor end with an empty line the longest: all
others are runs of it. -/
structure LongestRun (lines run : List String) : Prop where
  isInfix : run <:+: lines
  framed : Framed run
  longest : ∀ other, other <:+: lines → Framed other → other <:+: run

def TrimmedRun (lines run : List String) : Prop :=
  ∃ trimmed, List.Forall₂ TrimsTo lines trimmed ∧ LongestRun trimmed run

def pieces (s : String) : List String := (s.toList.splitOn '\n').map String.ofList

theorem trimEnd_eq_self {cs : List Char} (h : ∀ c ∈ cs.getLast?, isBlank c = false) :
    trimEnd cs = cs := by
  refine List.rdropWhile_eq_self_iff.mpr fun hne => ?_
  simp [h _ (List.getLast?_eq_some_getLast hne)]

theorem not_isBlank_last_of_endsVisibly {cs : List Char} (h : endsVisibly cs = true) :
    ∀ c ∈ cs.getLast?, isBlank c = false := by
  intro c hc
  rw [endsVisibly, Option.mem_def.mp hc] at h
  simpa using h

theorem trimEnd_stripReturn (l : List Char) : trimEnd (stripReturn l) = trimEnd l := by
  rw [stripReturn]
  split
  · rename_i hreturn
    obtain ⟨init, rfl⟩ := List.getLast?_eq_some_iff.mp hreturn
    rw [List.dropLast_concat]
    exact (List.rdropWhile_concat_pos _ _ _ rfl).symm
  · rfl

/-- Between line feeds stand the lines, but for carriage returns at their ends and an empty piece
behind the last line feed. -/
theorem map_trimEnd_splitOn (cs : List Char) :
    (cs.splitOn '\n').map trimEnd = (splitLines cs).map trimEnd ∨
      (cs.splitOn '\n').map trimEnd = (splitLines cs).map trimEnd ++ [[]] := by
  by_cases h : '\n' ∈ cs
  · obtain ⟨line, rest, hcs, hline⟩ := List.eq_append_cons_of_mem h
    have hshorter : rest.length < cs.length := by
      rw [hcs, List.length_append, List.length_cons]
      omega
    rw [hcs, List.splitOn_append_cons_self, List.splitOn_eq_singleton hline,
      splitLines_newline hline, List.singleton_append, List.map_cons, List.map_cons,
      trimEnd_stripReturn]
    exact (map_trimEnd_splitOn rest).imp (congrArg _) (congrArg _)
  · rw [List.splitOn_eq_singleton h]
    by_cases hnil : cs = []
    · subst hnil
      exact .inr rfl
    · exact .inl (by rw [splitLines_singleton h hnil])
termination_by cs.length

theorem isInfix_dropWhile {run lines : List String} (hfirst : run.head? ≠ some "")
    (h : run <:+: lines) : run <:+: lines.dropWhile (· == "") := by
  induction lines with
  | nil => exact h
  | cons line lines ih =>
      by_cases hline : line = ""
      · rw [List.dropWhile_cons_of_pos (by simpa using hline)]
        rcases List.infix_cons_iff.mp h with hprefix | hinfix
        · cases run with
          | nil => exact List.nil_infix
          | cons first run =>
              obtain ⟨rfl, -⟩ := List.cons_prefix_cons.mp hprefix
              exact absurd (congrArg some hline) hfirst
        · exact ih hinfix
      · rwa [List.dropWhile_cons_of_neg (by simpa using hline)]

theorem LongestRun.append_empty {lines run : List String} (h : LongestRun lines run) :
    LongestRun (lines ++ [""]) run where
  isInfix := h.isInfix.trans (List.prefix_append _ _).isInfix
  framed := h.framed
  longest other hother hframed := by
    refine h.longest other ?_ hframed
    rcases List.infix_concat_iff.mp hother with hsuffix | hinfix
    · rcases List.suffix_concat_iff.mp hsuffix with rfl | ⟨front, rfl, -⟩
      · exact List.nil_infix
      · exact absurd List.getLast?_concat hframed.last
    · exact hinfix

end Text

open Text (Framed LongestRun TrimmedRun TrimsTo)

namespace License

theorem trimsTo_trimLine (line : String) : TrimsTo line (trimLine line) where
  blanks := by
    refine ⟨line.toList.rtakeWhile Text.isBlank, ?_, fun c hc => List.mem_rtakeWhile_imp hc⟩
    rw [trimLine, String.toList_ofList]
    exact List.rdropWhile_append_rtakeWhile.symm
  visible := by
    rw [trimLine, String.toList_ofList]
    rcases Text.endsVisibly_trimEnd line.toList with hnil | hvisible
    · simp [hnil]
    · exact Text.not_isBlank_last_of_endsVisibly hvisible

theorem framed_dropEmptyEnds (lines : List String) : Framed (dropEmptyEnds lines) where
  first := by
    -- Lines that are dropped at the end do not change the first one that is kept.
    obtain ⟨back, hback⟩ : dropEmptyEnds lines <+: lines.dropWhile (· == "") :=
      List.rdropWhile_prefix _ _
    intro hfirst
    have hhead := List.head?_dropWhile_not (· == "") lines
    rw [← hback, List.head?_append, hfirst] at hhead
    simp at hhead
  last := by
    intro hlast
    have hhead := List.head?_dropWhile_not (· == "") (lines.dropWhile (· == "")).reverse
    rw [← List.getLast?_reverse] at hhead
    rw [dropEmptyEnds] at hlast
    rw [hlast] at hhead
    simp at hhead

theorem longestRun_dropEmptyEnds (lines : List String) :
    LongestRun lines (dropEmptyEnds lines) where
  isInfix := (List.rdropWhile_prefix _ _).isInfix.trans (List.dropWhile_suffix _).isInfix
  framed := framed_dropEmptyEnds lines
  longest other hother hframed := by
    have hfront := List.reverse_infix.mpr (Text.isInfix_dropWhile hframed.first hother)
    have hlast : other.reverse.head? ≠ some "" := by
      rw [List.head?_reverse]
      exact hframed.last
    rw [dropEmptyEnds, ← List.reverse_infix, List.reverse_reverse]
    exact Text.isInfix_dropWhile hlast hfront

theorem trimmedRun {lines run : List String} (h : LongestRun (lines.map trimLine) run) :
    TrimmedRun lines run := by
  refine ⟨lines.map trimLine, ?_, h⟩
  rw [List.forall₂_map_right_iff]
  exact List.forall₂_same.mpr fun line _ => trimsTo_trimLine line

theorem map_trimLine_ofList (css : List (List Char)) :
    (css.map String.ofList).map trimLine = (css.map Text.trimEnd).map String.ofList := by
  rw [List.map_map, List.map_map]
  exact List.map_congr_left fun cs _ => by simp [trimLine]

theorem longestRun_lines (s : String) :
    LongestRun ((Text.lines s).map trimLine) (ofText s).lines :=
  longestRun_dropEmptyEnds _

theorem longestRun_pieces (s : String) :
    LongestRun ((Text.pieces s).map trimLine) (ofText s).lines := by
  have hlines := longestRun_lines s
  rw [Text.lines, map_trimLine_ofList] at hlines
  rw [Text.pieces, map_trimLine_ofList]
  rcases Text.map_trimEnd_splitOn s.toList with heq | heq
  · rwa [heq]
  · rw [heq, List.map_append]
    exact hlines.append_empty

theorem dropEmptyEnds_eq_self {lines : List String} (h : Framed lines) :
    dropEmptyEnds lines = lines := by
  have hrun := longestRun_dropEmptyEnds lines
  exact List.infix_antisymm hrun.isInfix (hrun.longest lines List.infix_rfl h)

def text (l : License) : String := String.intercalate "\n" l.lines

/-- No line is broken or ends in a blank, and empty lines stand only between others. -/
structure Normal (l : License) : Prop where
  noBreak : ∀ line ∈ l.lines, '\n' ∉ line.toList
  noBlank : ∀ line ∈ l.lines, ∀ c ∈ line.toList.getLast?, Text.isBlank c = false
  framed : Framed l.lines

theorem normal_ofText (s : String) : (ofText s).Normal where
  noBreak line hline := by
    rcases filled_ofText s line hline with rfl | hfilled
    · simp
    · exact hfilled.oneLine
  noBlank line hline := by
    rcases filled_ofText s line hline with rfl | hfilled
    · simp
    · exact Text.not_isBlank_last_of_endsVisibly hfilled.visible
  framed := framed_dropEmptyEnds _

theorem lines_text {l : License} (h : l.Normal) : Text.lines l.text = l.lines := by
  have hinner : ∀ cs ∈ l.lines.map String.toList, Text.IsInnerLine cs := by
    rw [List.forall_mem_map]
    intro line hline
    -- A carriage return is a blank.
    refine ⟨h.noBreak line hline, fun hreturn => ?_⟩
    cases h.noBlank line hline '\r' hreturn
  have hlast : (l.lines.map String.toList).getLast? ≠ some [] := by
    rw [List.getLast?_map]
    intro hnil
    obtain ⟨line, hline, hempty⟩ := Option.map_eq_some_iff.mp hnil
    obtain rfl := String.toList_eq_nil_iff.mp hempty
    exact h.framed.last hline
  have htext : l.text.toList = ['\n'].intercalate (l.lines.map String.toList) :=
    String.toList_intercalate
  rw [Text.lines, htext, Text.splitLines_intercalate_innerLines hinner hlast, List.map_map]
  exact (List.map_congr_left fun line _ => String.ofList_toList).trans (List.map_id _)

theorem ofText_text {l : License} (h : l.Normal) : ofText l.text = l := by
  have htrim : l.lines.map trimLine = l.lines := by
    refine (List.map_congr_left fun line hline => ?_).trans (List.map_id _)
    rw [trimLine, Text.trimEnd_eq_self (h.noBlank line hline), String.ofList_toList, id]
  rw [ofText, lines_text h, htrim, dropEmptyEnds_eq_self h.framed]

/-- The license of any text is in normal form: its lines are the longest run of trimmed lines of the
text that is framed by lines that are not empty, and it is the same for lines that end at line feeds
only. Settings with the license as it is written out are settings with the text itself. -/
theorem ofText_normalizes (s : String) :
    (∀ line ∈ (ofText s).lines,
      '\n' ∉ line.toList ∧ ∀ c ∈ line.toList.getLast?, Text.isBlank c = false) ∧
    (ofText s).lines.head? ≠ some "" ∧ (ofText s).lines.getLast? ≠ some "" ∧
    TrimmedRun (Text.lines s) (ofText s).lines ∧ TrimmedRun (Text.pieces s) (ofText s).lines ∧
    ofText (ofText s).text = ofText s ∧
    ∀ settings : Settings, { settings with license := (ofText s).text }.target =
      { settings with license := s }.target := by
  have hnormal := normal_ofText s
  have hagain := ofText_text hnormal
  refine ⟨fun line hline => ⟨hnormal.noBreak line hline, hnormal.noBlank line hline⟩,
    hnormal.framed.first, hnormal.framed.last, trimmedRun (longestRun_lines s),
    trimmedRun (longestRun_pieces s), hagain, fun settings => ?_⟩
  rw [Settings.target, hagain]
  rfl

/-- Empty and blank lines, line ends of both kinds, a doubled carriage return and one at the end. -/
def paddedText : String :=
  "\r\n\u2003\n Copyright \t\r\r\n\n\x0b\nAll rights reserved.\u00a0\r"

theorem ofText_normalizes_padded :
    (ofText paddedText).lines = [" Copyright", "", "", "All rights reserved."] ∧
    ofText " Copyright\n\n\nAll rights reserved." = ofText paddedText := by
  have hlines : (ofText paddedText).lines = [" Copyright", "", "", "All rights reserved."] := by rfl
  have htext : (ofText paddedText).text = " Copyright\n\n\nAll rights reserved." := by
    rw [text, hlines]
    rfl
  obtain ⟨-, -, -, -, -, hagain, -⟩ := ofText_normalizes paddedText
  exact ⟨hlines, htext ▸ hagain⟩

-- The settings start with a license that is written out.
example : ({} : Settings).license =
    String.intercalate "\n" (ofText "The MIT License (MIT)").lines := by rfl

end License

end NodeRules
