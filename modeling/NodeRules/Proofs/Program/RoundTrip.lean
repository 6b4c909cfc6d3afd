import NodeRules.Proofs.Program.Languages
import NodeRules.Proofs.Program.Readable
import NodeRules.Proofs.Rule.RoundTrip

namespace NodeRules

namespace Entry

def written (e : Entry) : List (List Char) := [e.language.toList ++ [':'], e.rule.render.toList]

variable {e : Entry}

theorem isLine_language (h : Scanner.IsName e.language.toList) :
    Text.IsLine (e.language.toList ++ [':']) :=
  Text.IsLine.append ⟨by decide, [], ':', rfl, by decide⟩ (h.not_mem rfl)

theorem Readable.isLine (h : e.Readable) (hclean : e.rule.Clean) :
    ∀ l ∈ e.written, Text.IsLine l := by
  obtain ⟨body, hwritten⟩ := h.rule.written hclean
  have hfront : '\n' ∉ e.rule.name.toList ++ " <- ".toList := by
    simpa using hwritten.name.not_mem (c := '\n') rfl
  have hrule : Text.IsLine e.rule.render.toList := by
    rw [hwritten.render_eq, arrowLine]
    exact hwritten.piece.1.append hfront
  intro l hl
  simp only [written, List.mem_cons, List.not_mem_nil, or_false] at hl
  rcases hl with rfl | rfl
  · exact isLine_language h.language
  · exact hrule

end Entry

theorem Program.toList_render (p : Program) :
    p.render.toList = ['\n'].intercalate (p.entries.flatMap Entry.written) := by
  have hwritten : (fun e : Entry => [e.language ++ ":", e.rule.render].map String.toList) =
      Entry.written := by
    funext e
    simp [Entry.written]
  rw [Program.render, String.toList_intercalate, List.map_flatMap, hwritten]
  rfl

namespace ProgramReader

variable {r : ProgramReader} {e : Entry}

theorem feed_languageLine (h : Scanner.IsName e.language.toList) :
    r.feed (String.ofList (e.language.toList ++ [':'])) =
      (.ok none, ⟨r.program, e.language, r.line + 1⟩) := by
  have hkind := LineKind.ofLine_language h
  rw [← String.toList_ofList (l := e.language.toList ++ [':'])] at hkind
  have hname : isLanguageName e.language.toList = true := by
    simpa [isLanguageName, Scanner.IsName] using h
  rw [feed_language hkind hname, String.ofList_toList]

theorem feedAll_entry (h : e.Readable) (hclean : e.rule.Clean) :
    ∃ r', r.feedAll (e.written.map String.ofList) = .ok r' ∧
      r'.program.entries = r.program.entries ++ [e] := by
  obtain ⟨body, hwritten⟩ := h.rule.written hclean
  obtain ⟨-, c, rest, rfl, hc⟩ := hwritten.piece
  have hkind : LineKind.ofLine e.rule.render.toList = .rule := by
    rw [hwritten.render_eq]
    exact LineKind.ofLine_arrowLine hwritten.name hc rest
  have hfeed := feed_rule (r := ⟨r.program, e.language, r.line + 1⟩) hkind hwritten.ofLine
  rw [Entry.ofRule_of_ne h.language.ne_empty] at hfeed
  refine ⟨⟨r.program.add e, e.language, r.line + 1 + 1⟩, ?_, rfl⟩
  rw [Entry.written, List.map_cons, List.map_singleton, String.ofList_toList,
    feedAll_cons (feed_languageLine h.language), feedAll_cons hfeed]
  rfl

theorem feedAll_entries {es : List Entry} (h : ∀ e ∈ es, e.Readable)
    (hclean : ∀ e ∈ es, e.rule.Clean) :
    ∃ r', r.feedAll ((es.flatMap Entry.written).map String.ofList) = .ok r' ∧
      r'.program.entries = r.program.entries ++ es := by
  induction es generalizing r with
  | nil => exact ⟨r, rfl, by simp⟩
  | cons e es ih =>
      obtain ⟨mid, hmid, hentries⟩ := feedAll_entry (r := r) (h e List.mem_cons_self)
        (hclean e List.mem_cons_self)
      obtain ⟨r', hr', hentries'⟩ := ih (r := mid) (fun e he => h e (List.mem_cons_of_mem _ he))
        (fun e he => hclean e (List.mem_cons_of_mem _ he))
      refine ⟨r', ?_, ?_⟩
      · rw [List.flatMap_cons, List.map_append, feedAll_append _ _ hmid, hr']
      · rw [hentries', hentries, List.append_assoc, List.singleton_append]

end ProgramReader

namespace Program

theorem ofText_render_clean {p : Program} (h : ∀ e ∈ p.entries, e.Readable)
    (hclean : ∀ e ∈ p.entries, e.rule.Clean) :
    ∃ q, ofText p.render = .ok q ∧ q.entries = p.entries := by
  have hlines : ∀ l ∈ p.entries.flatMap Entry.written, Text.IsLine l := by
    intro l hl
    obtain ⟨e, he, hl⟩ := List.mem_flatMap.mp hl
    exact (h e he).isLine (hclean e he) l hl
  obtain ⟨r, hr, hentries⟩ := ProgramReader.feedAll_entries (r := .ofProgram .empty) h hclean
  refine ⟨r.program, ?_, hentries⟩
  rw [ofText, Text.lines, toList_render, Text.splitLines_intercalate hlines, hr]
  rfl

/-- The lines of the entries in front of an unclean literal, and what stands in its place. -/
theorem splitLines_render_unclean {p : Program} {before after : List Entry} {e : Entry}
    {r : LiteralRule} (hp : p.entries = before ++ e :: after)
    (h : ∀ e ∈ p.entries, e.Readable) (hclean : ∀ d ∈ before, d.rule.Clean)
    (he : e.rule = .literal r) (hr : ¬ e.rule.Clean) :
    ∃ first others, Text.splitLines p.render.toList =
        before.flatMap Entry.written ++ (e.language.toList ++ [':']) :: first :: others ∧
      LineKind.ofLine first = .rule ∧ Rule.ofLine first ≠ .ok e.rule := by
  have hlines : ∀ l ∈ before.flatMap Entry.written ++ [e.language.toList ++ [':']],
      Text.IsLine l := by
    intro l hl
    rcases List.mem_append.mp hl with hl | hl
    · obtain ⟨d, hd, hl⟩ := List.mem_flatMap.mp hl
      exact (h d (by simp [hp, hd])).isLine (hclean d hd) l hl
    · obtain rfl := List.mem_singleton.mp hl
      exact Entry.isLine_language (h e (by simp [hp])).language
  have hentries : p.entries.flatMap Entry.written =
      (before.flatMap Entry.written ++ [e.language.toList ++ [':']]) ++
        e.rule.render.toList :: after.flatMap Entry.written := by
    simp [hp, Entry.written]
  have hname : Scanner.IsName r.name.toList := by
    have hrule := (h e (by simp [hp])).rule
    rw [he] at hrule
    cases hrule with
    | literal hname => exact hname.2
  rw [he] at hr ⊢
  obtain ⟨first, others, hfirst, hkind, hread⟩ := LiteralRule.first_line_unclean hname hr
    ((after.flatMap Entry.written).flatMap fun l => ['\n'] ++ l)
  refine ⟨first, others, ?_, hkind, hread⟩
  rw [toList_render, hentries, intercalate_append_cons, Text.splitLines_lines hlines, he,
    intercalate_cons, Rule.render, hfirst, List.append_assoc]
  rfl

theorem entries_ne_of_unclean {p q : Program} {before after : List Entry} {e : Entry}
    {r : LiteralRule} (hp : p.entries = before ++ e :: after)
    (h : ∀ e ∈ p.entries, e.Readable) (hclean : ∀ d ∈ before, d.rule.Clean)
    (he : e.rule = .literal r) (hr : ¬ e.rule.Clean) (hq : ofText p.render = .ok q) :
    q.entries ≠ p.entries := by
  obtain ⟨first, others, hsplit, hkind, hread⟩ := splitLines_render_unclean hp h hclean he hr
  obtain ⟨reader, hreader, rfl⟩ := feedAll_of_ofText hq
  obtain ⟨mid, hmid, hentries⟩ := ProgramReader.feedAll_entries (r := .ofProgram .empty)
    (fun d hd => h d (by simp [hp, hd])) hclean
  rw [Text.lines, hsplit, List.map_append, ProgramReader.feedAll_append _ _ hmid, List.map_cons,
    List.map_cons, ProgramReader.feedAll_cons
      (ProgramReader.feed_languageLine (h e (by simp [hp])).language)] at hreader
  -- The line that is read in the place of the literal adds another rule.
  obtain ⟨added, next, hfeed, hrest⟩ := ProgramReader.exists_feed_of_feedAll hreader
  obtain ⟨more, hmore⟩ := ProgramReader.feedAll_extends hrest
  have hcases := ProgramReader.feed_cases hfeed
  rw [String.toList_ofList, hkind] at hcases
  obtain ⟨hblank, -⟩ | ⟨name, hlanguage, -⟩ | ⟨rule, -, hrule, rfl⟩ := hcases
  · cases hblank
  · cases hlanguage
  · intro heq
    have hsame : before ++ Entry.ofRule e.language rule :: more = before ++ e :: after := by
      rw [← hp, ← heq, hmore]
      simp [hentries, ProgramReader.ofProgram]
    obtain ⟨hentry, -⟩ := List.cons.inj (List.append_cancel_left hsame)
    refine hread ?_
    rw [hrule, ← hentry]
    rfl

/-- A program that was read, written out and read again is the same program exactly when no part of
its literals holds a dollar sign or a line feed. -/
theorem ofText_render_iff {source : String} {p : Program} (h : ofText source = .ok p) :
    (∃ q, ofText p.render = .ok q ∧ q == p) ↔
      ∀ e ∈ p.entries, ∀ r, e.rule = .literal r →
        ∀ part ∈ r.parts, '$' ∉ part.toList ∧ '\n' ∉ part.toList := by
  have hreadable := (ofText_readable h).entries
  constructor
  · rintro ⟨q, hq, heq⟩
    by_contra hunclean
    obtain ⟨before, e, after, hp, hclean, he⟩ := exists_first_not hunclean
    obtain ⟨r, hr⟩ : ∃ r, e.rule = .literal r := by
      by_contra hnone
      exact he fun r hr => absurd ⟨r, hr⟩ hnone
    exact entries_ne_of_unclean hp hreadable hclean hr he hq (beq_iff.mp heq)
  · intro hclean
    obtain ⟨q, hq, heq⟩ := ofText_render_clean hreadable hclean
    exact ⟨q, hq, beq_iff.mpr heq⟩

/-- The native type of the literal ends with a dollar sign, which only quoted text can hold. -/
def pricedText : String := "Pass <- 0\nshop:\nPrice <- \"cost$\", $show()$, $read()$"

def priced : Program :=
  .unasked
    [⟨"common", .node (.ordinary "Pass" [.empty])⟩,
      ⟨"shop", .literal ⟨"Price", "cost$", "show()", "read()", none⟩⟩]

theorem not_ofText_render_priced :
    ofText pricedText = .ok priced ∧ ¬ ∃ q, ofText priced.render = .ok q ∧ q == priced := by
  have hread : ofText pricedText = .ok priced := by with_unfolding_all rfl
  refine ⟨hread, ?_⟩
  intro hsame
  have hclean := (ofText_render_iff hread).mp hsame _ (List.mem_cons_of_mem _ List.mem_cons_self)
    _ rfl
  exact (hclean "cost$" (by simp [LiteralRule.parts])).1 (by decide)

end Program

end NodeRules
