import NodeRules.Proofs.Program.Readable

namespace NodeRules

namespace ProgramReader

/-- The reader behind all lines, those with errors included. -/
def feedOn (r : ProgramReader) : List String → ProgramReader
  | [] => r
  | line :: lines => (r.feed line).2.feedOn lines

def answers (r : ProgramReader) : List String → List (Except ReadError (Option Entry))
  | [] => []
  | line :: lines => (r.feed line).1 :: (r.feed line).2.answers lines

/-- The lines that are answered without an error when all lines are read. -/
def readLines (r : ProgramReader) (lines : List String) : List String :=
  ((lines.zip (r.answers lines)).filter fun item => item.2.isOk).map Prod.fst

def renumbered (r : ProgramReader) (n : UInt32) : ProgramReader := ⟨r.program, r.language, n⟩

variable {r r' : ProgramReader} {line : String} {lines : List String} {e : ReadError}
  {answer : Except ReadError (Option Entry)} {added : Option Entry}

theorem feedOn_cons (h : r.feed line = (answer, r')) (lines : List String) :
    r.feedOn (line :: lines) = r'.feedOn lines := by
  rw [feedOn, h]

theorem answers_cons (h : r.feed line = (answer, r')) (lines : List String) :
    r.answers (line :: lines) = answer :: r'.answers lines := by
  rw [answers, h]

theorem readLines_cons_ok (h : r.feed line = (.ok added, r')) (lines : List String) :
    r.readLines (line :: lines) = line :: r'.readLines lines := by
  rw [readLines, answers_cons h]
  rfl

theorem readLines_cons_error (h : r.feed line = (.error e, r')) (lines : List String) :
    r.readLines (line :: lines) = r'.readLines lines := by
  rw [readLines, answers_cons h]
  rfl

theorem line_of_feed (h : r.feed line = (answer, r')) : r'.line = r.line + 1 := by
  cases feed_reads h <;> rfl

theorem feed_error (h : r.feed line = (.error e, r')) :
    r' = r.renumbered (r.line + 1) ∧ e.line = r.line + 1 := by
  cases feed_reads h with
  | error hline => exact ⟨rfl, hline⟩

theorem feed_none (h : r.feed line = (.ok none, r')) : r'.program = r.program := by
  cases feed_reads h <;> rfl

theorem feed_some {entry : Entry} (h : r.feed line = (.ok (some entry), r')) :
    entry.language = (if r.language = "" then commonLanguage else r.language) ∧
      r' = ⟨r.program.add entry, r.language, r.line + 1⟩ := by
  cases feed_reads h with
  | rule => exact ⟨rfl, rfl⟩

/-- The number of lines so far shows only in itself and in the place of an error. -/
theorem feed_renumbered (r : ProgramReader) (n : UInt32) (line : String) :
    (r.renumbered n).feed line =
      ((r.feed line).1.mapError fun e => { e with line := n + 1 },
        (r.feed line).2.renumbered (n + 1)) := by
  simp only [feed, renumbered]
  cases LineKind.ofLine line.toList with
  | blank => rfl
  | language name => by_cases hname : isLanguageName name = true <;> simp [hname, Except.mapError]
  | rule => cases Rule.ofLine line.toList <;> rfl

theorem add_one_add_ofNat (n : UInt32) (k : Nat) : n + 1 + .ofNat k = n + .ofNat (k + 1) := by
  rw [UInt32.ofNat_add, UInt32.add_assoc, UInt32.add_comm 1]
  rfl

theorem feedOn_renumbered (r : ProgramReader) (n : UInt32) (lines : List String) :
    (r.renumbered n).feedOn lines = (r.feedOn lines).renumbered (n + .ofNat lines.length) := by
  induction lines generalizing r n with
  | nil => exact congrArg r.renumbered (UInt32.add_zero n).symm
  | cons line lines ih =>
      rw [feedOn_cons (r.feed_renumbered n line), ih, feedOn, List.length_cons, add_one_add_ofNat]

theorem feedOn_readLines (r : ProgramReader) (lines : List String) :
    r.feedOn (r.readLines lines) =
      (r.feedOn lines).renumbered (r.line + .ofNat (r.readLines lines).length) := by
  induction lines generalizing r with
  | nil => exact congrArg r.renumbered (UInt32.add_zero r.line).symm
  | cons line lines ih =>
      rcases hfeed : r.feed line with ⟨answer, r'⟩
      cases answer with
      | error e =>
          rw [readLines_cons_error hfeed, feedOn_cons hfeed]
          obtain ⟨rfl, -⟩ := feed_error hfeed
          generalize hkept : (r.renumbered (r.line + 1)).readLines lines = kept
          -- Behind the line stands the same reader but for its number, which does not matter.
          have hrest := ih (r.renumbered (r.line + 1))
          rw [hkept, feedOn_renumbered r] at hrest
          have hsame := congrArg (renumbered · (r.line + .ofNat kept.length)) hrest
          calc r.feedOn kept
              = (r.feedOn kept).renumbered (r.line + .ofNat kept.length) :=
                r.feedOn_renumbered r.line kept
            _ = ((r.renumbered (r.line + 1)).feedOn lines).renumbered
                  (r.line + .ofNat kept.length) := hsame
      | ok added =>
          rw [readLines_cons_ok hfeed, feedOn_cons hfeed, feedOn_cons hfeed, ih r',
            line_of_feed hfeed, List.length_cons, add_one_add_ofNat]

theorem feedAll_cons_error (h : r.feed line = (.error e, r')) (lines : List String) :
    r.feedAll (line :: lines) = .error e := by
  rw [feedAll, h]

theorem exists_error_iff (r : ProgramReader) (lines : List String) :
    (∃ e, r.feedAll lines = .error e) ↔ ∃ e, .error e ∈ r.answers lines := by
  induction lines generalizing r with
  | nil => simp [feedAll, answers]
  | cons line lines ih =>
      rcases hfeed : r.feed line with ⟨answer, r'⟩
      rw [answers_cons hfeed]
      cases answer with
      | error e =>
          rw [feedAll_cons_error hfeed]
          exact ⟨fun _ => ⟨e, List.mem_cons_self⟩, fun _ => ⟨e, rfl⟩⟩
      | ok added =>
          rw [feedAll_cons hfeed, ih r']
          simp

theorem feedAll_eq_error_iff (r : ProgramReader) (lines : List String) (e : ReadError) :
    r.feedAll lines = .error e ↔ ∃ before after, r.answers lines = before ++ .error e :: after ∧
      (∀ answer ∈ before, ∃ added, answer = .ok added) ∧
        e.line = r.line + .ofNat (before.length + 1) := by
  induction lines generalizing r with
  | nil => simp [feedAll, answers]
  | cons line lines ih =>
      rcases hfeed : r.feed line with ⟨answer, r'⟩
      rw [answers_cons hfeed]
      cases answer with
      | error e' =>
          rw [feedAll_cons_error hfeed]
          constructor
          · intro h
            cases h
            exact ⟨[], r'.answers lines, rfl, by simp, (feed_error hfeed).2⟩
          · rintro ⟨before, after, hanswers, hbefore, -⟩
            cases before with
            | nil =>
                obtain ⟨he, -⟩ := List.cons.inj hanswers
                cases he
                rfl
            | cons first before =>
                obtain ⟨rfl, -⟩ := List.cons.inj hanswers
                obtain ⟨added, hadded⟩ := hbefore _ List.mem_cons_self
                cases hadded
      | ok added =>
          simp only [feedAll_cons hfeed, ih r', line_of_feed hfeed, add_one_add_ofNat]
          constructor
          · rintro ⟨before, after, hanswers, hbefore, hline⟩
            exact ⟨.ok added :: before, after, by rw [hanswers]; rfl, by simpa using hbefore, hline⟩
          · rintro ⟨before, after, hanswers, hbefore, hline⟩
            cases before with
            | nil => cases (List.cons.inj hanswers).1
            | cons first before =>
                exact ⟨before, after, (List.cons.inj hanswers).2,
                  fun answer ha => hbefore answer (List.mem_cons_of_mem _ ha), hline⟩

end ProgramReader

theorem Program.ofText_eq_error_iff {source : String} {e : ReadError} :
    Program.ofText source = .error e ↔
      (ProgramReader.ofProgram .empty).feedAll (Text.lines source) = .error e := by
  rw [Program.ofText]
  cases (ProgramReader.ofProgram .empty).feedAll (Text.lines source) with
  | error e' => simp [bind, Except.bind]
  | ok r => simp [bind, Except.bind, pure, Except.pure]

namespace ProgramReader

theorem toNat_add_one {n : UInt32} (h : n.toNat + 1 < UInt32.size) :
    (n + 1).toNat = n.toNat + 1 := by
  rw [UInt32.toNat_add]
  exact Nat.mod_eq_of_lt h

theorem feed_atomic (r : ProgramReader) (line : String) :
    match (r.feed line).1 with
    | .error _ => (r.feed line).2.program = r.program ∧ (r.feed line).2.language = r.language
    | .ok none => (r.feed line).2.program = r.program
    | .ok (some entry) =>
      entry.language = (if r.language = "" then commonLanguage else r.language) ∧
        (r.feed line).2.program.entries = r.program.entries ++ [entry] ∧
        (r.feed line).2.language = r.language := by
  rcases hfeed : r.feed line with ⟨answer, r'⟩
  match answer with
  | .error e =>
      obtain ⟨rfl, -⟩ := feed_error hfeed
      exact ⟨rfl, rfl⟩
  | .ok none => exact feed_none hfeed
  | .ok (some entry) =>
      obtain ⟨hlanguage, rfl⟩ := feed_some hfeed
      exact ⟨hlanguage, rfl, rfl⟩

/-- Reading a line is atomic: it counts the line, and either adds one entry for the language in
force, or leaves the program alone; with an error it changes nothing else at all. So lines with
errors can be left out, and a text is rejected for the first line whose answer is an error. Lines
are counted in 32 bits: the number of a line is right up to `UInt32.size - 1`. -/
theorem feed_isolates_errors :
    (∀ (r : ProgramReader) (line : String),
      (r.feed line).2.line = r.line + 1 ∧
        (r.line.toNat + 1 < UInt32.size → (r.feed line).2.line.toNat = r.line.toNat + 1) ∧
        match (r.feed line).1 with
        | .error _ => (r.feed line).2.program = r.program ∧ (r.feed line).2.language = r.language
        | .ok none => (r.feed line).2.program = r.program
        | .ok (some entry) =>
          entry.language = (if r.language = "" then commonLanguage else r.language) ∧
            (r.feed line).2.program.entries = r.program.entries ++ [entry] ∧
            (r.feed line).2.language = r.language) ∧
    (∀ (r : ProgramReader) (lines : List String),
      (r.feedOn (r.readLines lines)).program = (r.feedOn lines).program ∧
        (r.feedOn (r.readLines lines)).language = (r.feedOn lines).language) ∧
    ∀ source : String,
      ((∃ e, Program.ofText source = .error e) ↔
        ∃ e, .error e ∈ (ofProgram .empty).answers (Text.lines source)) ∧
      ∀ e, Program.ofText source = .error e ↔ ∃ before after,
        (ofProgram .empty).answers (Text.lines source) = before ++ .error e :: after ∧
          (∀ answer ∈ before, ∃ added, answer = .ok added) ∧
          e.line = .ofNat (before.length + 1) ∧
          (before.length + 1 < UInt32.size → e.line.toNat = before.length + 1) := by
  refine ⟨?_, ?_, ?_⟩
  · intro r line
    have hline : (r.feed line).2.line = r.line + 1 := line_of_feed rfl
    refine ⟨hline, ?_, feed_atomic r line⟩
    intro hfits
    rw [hline, toNat_add_one hfits]
  · intro r lines
    rw [feedOn_readLines]
    exact ⟨rfl, rfl⟩
  · intro source
    simp only [Program.ofText_eq_error_iff]
    refine ⟨exists_error_iff _ _, ?_⟩
    intro e
    rw [feedAll_eq_error_iff]
    constructor
    · rintro ⟨before, after, hanswers, hbefore, hline⟩
      have hnumber : e.line = .ofNat (before.length + 1) := hline.trans (UInt32.zero_add _)
      refine ⟨before, after, hanswers, hbefore, hnumber, ?_⟩
      intro hfits
      rw [hnumber, UInt32.toNat_ofNat_of_lt' hfits]
    · rintro ⟨before, after, hanswers, hbefore, hnumber, -⟩
      exact ⟨before, after, hanswers, hbefore, hnumber.trans (UInt32.zero_add _).symm⟩

/-- A rule, the name of a language, a line without an arrow, and a rule for that language. -/
def mixedLines : List String := ["Leaf <- 0", "java:", "Leaf 0", "Leaf <- 0"]

def mixedAnswers : List (Except ReadError (Option Entry)) :=
  [.ok (some ⟨"common", .node (.ordinary "Leaf" [.empty])⟩), .ok none,
    .error ⟨.missingArrow, ⟨0, 6⟩, 3⟩, .ok (some ⟨"java", .node (.ordinary "Leaf" [.empty])⟩)]

theorem feed_isolates_errors_mixed :
    (ofProgram .empty).answers mixedLines = mixedAnswers ∧
      (ofProgram .empty).readLines mixedLines = ["Leaf <- 0", "java:", "Leaf <- 0"] ∧
      ((ofProgram .empty).feedOn ["Leaf <- 0", "java:", "Leaf <- 0"]).program =
        ((ofProgram .empty).feedOn mixedLines).program ∧
      ((ofProgram .empty).feedOn mixedLines).language = "java" ∧
      Program.ofText "Leaf <- 0\njava:\nLeaf 0\nLeaf <- 0" =
        .error ⟨.missingArrow, ⟨0, 6⟩, 3⟩ := by
  obtain ⟨-, hlines, hsource⟩ := feed_isolates_errors
  have hanswers : (ofProgram .empty).answers mixedLines = mixedAnswers := by with_unfolding_all rfl
  have hread : (ofProgram .empty).readLines mixedLines = ["Leaf <- 0", "java:", "Leaf <- 0"] := by
    rw [readLines, hanswers]
    rfl
  have hsplit : Text.lines "Leaf <- 0\njava:\nLeaf 0\nLeaf <- 0" = mixedLines := by rfl
  refine ⟨hanswers, hread, hread ▸ (hlines _ mixedLines).1, by with_unfolding_all rfl, ?_⟩
  rw [(hsource _).2, hsplit, hanswers]
  exact ⟨mixedAnswers.take 2, mixedAnswers.drop 3, rfl, by simp [mixedAnswers], rfl, fun _ => rfl⟩

/-- Behind the last number comes zero. -/
example : ((ProgramReader.mk .empty "" 4294967295).feed "Leaf 0").1 =
    .error ⟨.missingArrow, ⟨0, 6⟩, 0⟩ := by rfl

end ProgramReader

end NodeRules
