import NodeRules.Program.Reader
import NodeRules.Proofs.Rule.Readable

namespace NodeRules

structure Entry.Readable (e : Entry) : Prop where
  language : Scanner.IsName e.language.toList
  rule : e.rule.Readable

/-- A program as reading makes it: its languages have not been asked for yet. -/
structure Program.Readable (p : Program) : Prop where
  entries : ∀ e ∈ p.entries, e.Readable
  unasked : p.knownLanguages = none

theorem Entry.ofRule_of_ne {language : String} (h : language ≠ "") (rule : Rule) :
    Entry.ofRule language rule = ⟨language, rule⟩ := by
  rw [Entry.ofRule, if_neg h]

theorem Scanner.IsName.ne_empty {language : String} (h : IsName language.toList) :
    language ≠ "" := by
  rintro rfl
  cases h.1

theorem Entry.ofRule_readable {language : String} {rule : Rule}
    (hlanguage : language = "" ∨ Scanner.IsName language.toList) (hrule : rule.Readable) :
    (Entry.ofRule language rule).Readable := by
  rcases hlanguage with rfl | hlanguage
  · have hcommon : Scanner.IsName commonLanguage.toList := ⟨by decide, by decide⟩
    exact ⟨hcommon, hrule⟩
  · rw [Entry.ofRule_of_ne hlanguage.ne_empty]
    exact ⟨hlanguage, hrule⟩

namespace ProgramReader

variable {r r' : ProgramReader} {line : String} {lines : List String}

theorem feed_language {name : List Char} (h : LineKind.ofLine line.toList = .language name)
    (hname : isLanguageName name = true) :
    r.feed line = (.ok none, ⟨r.program, String.ofList name, r.line + 1⟩) := by
  simp [feed, h, hname]

theorem feed_rule {rule : Rule} (h : LineKind.ofLine line.toList = .rule)
    (hrule : Rule.ofLine line.toList = .ok rule) :
    r.feed line = (.ok (some (.ofRule r.language rule)),
      ⟨r.program.add (.ofRule r.language rule), r.language, r.line + 1⟩) := by
  simp [feed, h, hrule]

/-- What reading a line can lead to: an answer, and the reader of the lines behind it. -/
inductive Reads (r : ProgramReader) (line : String) :
    Except ReadError (Option Entry) → ProgramReader → Prop
  | blank (hkind : LineKind.ofLine line.toList = .blank) :
      Reads r line (.ok none) ⟨r.program, r.language, r.line + 1⟩
  | language {name : List Char} (hkind : LineKind.ofLine line.toList = .language name)
      (hname : isLanguageName name = true) :
      Reads r line (.ok none) ⟨r.program, String.ofList name, r.line + 1⟩
  | rule {rule : Rule} (hkind : LineKind.ofLine line.toList = .rule)
      (hrule : Rule.ofLine line.toList = .ok rule) :
      Reads r line (.ok (some (.ofRule r.language rule)))
        ⟨r.program.add (.ofRule r.language rule), r.language, r.line + 1⟩
  | error {e : ReadError} (hline : e.line = r.line + 1) :
      Reads r line (.error e) ⟨r.program, r.language, r.line + 1⟩

theorem feed_reads {answer : Except ReadError (Option Entry)} (h : r.feed line = (answer, r')) :
    r.Reads line answer r' := by
  cases hkind : LineKind.ofLine line.toList with
  | blank =>
      simp only [feed, hkind, Prod.mk.injEq] at h
      obtain ⟨rfl, rfl⟩ := h
      exact .blank hkind
  | language name =>
      by_cases hname : isLanguageName name = true
      · rw [feed_language hkind hname, Prod.mk.injEq] at h
        obtain ⟨rfl, rfl⟩ := h
        exact .language hkind hname
      · simp only [feed, hkind, hname, Bool.false_eq_true, if_false, Prod.mk.injEq] at h
        obtain ⟨rfl, rfl⟩ := h
        exact .error rfl
  | rule =>
      cases hrule : Rule.ofLine line.toList with
      | error e =>
          simp only [feed, hkind, hrule, Prod.mk.injEq] at h
          obtain ⟨rfl, rfl⟩ := h
          exact .error rfl
      | ok rule =>
          rw [feed_rule hkind hrule, Prod.mk.injEq] at h
          obtain ⟨rfl, rfl⟩ := h
          exact .rule hkind hrule

theorem feed_cases {added : Option Entry} (h : r.feed line = (.ok added, r')) :
    (LineKind.ofLine line.toList = .blank ∧ r' = ⟨r.program, r.language, r.line + 1⟩) ∨
    (∃ name, LineKind.ofLine line.toList = .language name ∧ isLanguageName name = true ∧
      r' = ⟨r.program, String.ofList name, r.line + 1⟩) ∨
    (∃ rule, LineKind.ofLine line.toList = .rule ∧ Rule.ofLine line.toList = .ok rule ∧
      r' = ⟨r.program.add (.ofRule r.language rule), r.language, r.line + 1⟩) := by
  cases feed_reads h with
  | blank hkind => exact .inl ⟨hkind, rfl⟩
  | language hkind hname => exact .inr (.inl ⟨_, hkind, hname, rfl⟩)
  | rule hkind hrule => exact .inr (.inr ⟨_, hkind, hrule, rfl⟩)

theorem feedAll_cons {added : Option Entry} (h : r.feed line = (.ok added, r'))
    (lines : List String) : r.feedAll (line :: lines) = r'.feedAll lines := by
  rw [feedAll, h]

theorem exists_feed_of_feedAll (h : r.feedAll (line :: lines) = .ok r') :
    ∃ added next, r.feed line = (.ok added, next) ∧ next.feedAll lines = .ok r' := by
  rw [feedAll] at h
  split at h
  · cases h
  · rename_i added next hfeed
    exact ⟨added, next, hfeed, h⟩

/-- What holds between a reader and the one that a line leads to holds for any number of lines. -/
theorem feedAll_induction {P : ProgramReader → Prop}
    (hstep : ∀ {r r' : ProgramReader} {line : String} {added : Option Entry},
      r.feed line = (.ok added, r') → P r → P r')
    (h : r.feedAll lines = .ok r') (hr : P r) : P r' := by
  induction lines generalizing r with
  | nil =>
      cases h
      exact hr
  | cons line lines ih =>
      obtain ⟨added, next, hfeed, hrest⟩ := exists_feed_of_feedAll h
      exact ih hrest (hstep hfeed hr)

theorem feedAll_append (xs ys : List String) {next : ProgramReader} (h : r.feedAll xs = .ok next) :
    r.feedAll (xs ++ ys) = next.feedAll ys := by
  induction xs generalizing r with
  | nil =>
      cases h
      rfl
  | cons x xs ih =>
      obtain ⟨added, mid, hfeed, hrest⟩ := exists_feed_of_feedAll h
      rw [List.cons_append, feedAll_cons hfeed, ih hrest]

theorem feedAll_extends (h : r.feedAll lines = .ok r') :
    ∃ more, r'.program.entries = r.program.entries ++ more := by
  refine feedAll_induction (P := fun s => ∃ more, s.program.entries = r.program.entries ++ more)
    ?_ h ⟨[], by simp⟩
  rintro s s' line added hfeed ⟨more, hmore⟩
  obtain ⟨-, rfl⟩ | ⟨name, -, -, rfl⟩ | ⟨rule, -, -, rfl⟩ := feed_cases hfeed
  · exact ⟨more, hmore⟩
  · exact ⟨more, hmore⟩
  · exact ⟨more ++ [.ofRule s.language rule], by simp [hmore]⟩

structure Sound (r : ProgramReader) : Prop where
  language : r.language = "" ∨ Scanner.IsName r.language.toList
  program : r.program.Readable

theorem Sound.feed {answer : Except ReadError (Option Entry)}
    (hfeed : r.feed line = (answer, r')) (h : r.Sound) : r'.Sound := by
  cases feed_reads hfeed with
  | blank => exact ⟨h.language, h.program⟩
  | language _ hname =>
      refine ⟨.inr ?_, h.program⟩
      rw [String.toList_ofList]
      simpa [isLanguageName, Scanner.IsName] using hname
  | rule _ hrule =>
      refine ⟨h.language, ?_, rfl⟩
      intro e he
      rcases List.mem_append.mp he with he | he
      · exact h.program.entries e he
      · obtain rfl := List.mem_singleton.mp he
        exact Entry.ofRule_readable h.language (Rule.ofLine_readable hrule)
  | error => exact ⟨h.language, h.program⟩

theorem sound_empty : (ofProgram .empty).Sound :=
  ⟨.inl rfl, by simp [ofProgram], rfl⟩

end ProgramReader

theorem Program.feedAll_of_ofText {source : String} {p : Program}
    (h : Program.ofText source = .ok p) :
    ∃ r, (ProgramReader.ofProgram .empty).feedAll (Text.lines source) = .ok r ∧ r.program = p := by
  obtain ⟨r, hr, hp⟩ := bind_ok h
  cases hp
  exact ⟨r, hr, rfl⟩

theorem Program.ofText_readable {source : String} {p : Program}
    (h : Program.ofText source = .ok p) : p.Readable := by
  obtain ⟨r, hr, rfl⟩ := feedAll_of_ofText h
  exact (ProgramReader.feedAll_induction ProgramReader.Sound.feed hr
    ProgramReader.sound_empty).program

end NodeRules
