import Mathlib.Logic.Function.Basic
import NodeRules.Proofs.Program.Isolation
import NodeRules.Proofs.Program.Languages

namespace NodeRules.Program

theorem append_singleton_eq_cases {α : Type} {xs before after : List α} {x y : α}
    (h : xs ++ [y] = before ++ x :: after) :
    (xs = before ∧ y = x ∧ after = []) ∨
    ∃ after', xs = before ++ x :: after' ∧ after = after' ++ [y] := by
  rcases List.eq_nil_or_concat after with rfl | ⟨after', last, rfl⟩
  · obtain ⟨hxs, hlast⟩ := List.append_inj' h rfl
    exact .inl ⟨hxs, List.singleton_inj.mp hlast, rfl⟩
  · rw [List.concat_eq_append, ← List.cons_append, ← List.append_assoc] at h
    obtain ⟨hxs, hlast⟩ := List.append_inj' h rfl
    rw [List.concat_eq_append, hlast]
    exact .inr ⟨after', hxs, rfl⟩

inductive Call
  | add (e : Entry)
  | line (text : String) (answer : Except ReadError (Option Entry))
  | languages (answer : List String)
  | entriesIn (language : String) (answer : List Entry)

def Call.entry? : Call → Option Entry
  | add e => some e
  | line _ (.ok added) => added
  | _ => none

/-- What a call makes of a program. Lines come from readers in any language and at any line. -/
inductive Does (p : Program) : Call → Program → Prop
  | add (e : Entry) : Does p (.add e) (p.add e)
  | line {r r' : ProgramReader} {text : String} {answer : Except ReadError (Option Entry)}
      (hr : r.program = p) (hfeed : r.feed text = (answer, r')) :
      Does p (.line text answer) r'.program
  | languages {answer : List String} {q : Program} (hlanguages : p.languages = (answer, q)) :
      Does p (.languages answer) q
  | entriesIn (language : String) : Does p (.entriesIn language (p.entriesIn language)) p

section Calls

variable {p q : Program} {c : Call} {cs : List Call}

theorem Does.cases (h : p.Does c q) :
    (∃ e, c.entry? = some e ∧ q = p.add e) ∨
    (c = .languages p.languages.1 ∧ q = p.languages.2) ∨
    (c.entry? = none ∧ (∀ answer, c ≠ .languages answer) ∧ q = p) := by
  cases h with
  | add e => exact .inl ⟨e, rfl, rfl⟩
  | @line r r' text answer hr hfeed =>
      subst hr
      rcases answer with _ | _ | e
      · obtain ⟨rfl, -⟩ := ProgramReader.feed_error hfeed
        exact .inr (.inr ⟨rfl, nofun, rfl⟩)
      · exact .inr (.inr ⟨rfl, nofun, ProgramReader.feed_none hfeed⟩)
      · obtain ⟨-, rfl⟩ := ProgramReader.feed_some hfeed
        exact .inl ⟨e, rfl, rfl⟩
  | languages hlanguages =>
      rw [hlanguages]
      exact .inr (.inl ⟨rfl, rfl⟩)
  | entriesIn language => exact .inr (.inr ⟨rfl, nofun, rfl⟩)

theorem entries_languages (p : Program) : p.languages.2.entries = p.entries := by
  rw [languages]
  split <;> rfl

theorem isSome_knownLanguages_languages (p : Program) :
    p.languages.2.knownLanguages.isSome = true := by
  rw [languages]
  split
  · rename_i hknown
    rw [hknown]
    rfl
  · rfl

/-- The calls that have made the program of an empty one, the first one first. -/
inductive MadeBy : List Call → Program → Prop
  | empty : MadeBy [] .empty
  | call {cs : List Call} {c : Call} {p q : Program} (h : MadeBy cs p) (hcall : p.Does c q) :
      MadeBy (cs ++ [c]) q

theorem MadeBy.entries_eq (h : MadeBy cs p) : p.entries = cs.filterMap Call.entry? := by
  induction h with
  | empty => rfl
  | call _ hcall ih =>
      obtain ⟨e, he, rfl⟩ | ⟨rfl, rfl⟩ | ⟨he, -, rfl⟩ := hcall.cases
      · simp [ih, he]
      · simp [entries_languages, ih, Call.entry?]
      · simp [ih, he]

/-- The languages were asked for, and no call behind that has added an entry. -/
def AskedSince (cs : List Call) : Prop :=
  ∃ before answer after, cs = before ++ .languages answer :: after ∧
    ∀ c ∈ after, c.entry? = none

theorem askedSince_append_languages (cs : List Call) (answer : List String) :
    AskedSince (cs ++ [.languages answer]) :=
  ⟨cs, answer, [], rfl, by simp⟩

theorem askedSince_append (hc : ∀ answer, c ≠ .languages answer) :
    AskedSince (cs ++ [c]) ↔ c.entry? = none ∧ AskedSince cs := by
  constructor
  · rintro ⟨before, answer, after, heq, hafter⟩
    obtain ⟨-, hlast, -⟩ | ⟨after, rfl, rfl⟩ := append_singleton_eq_cases heq
    · exact absurd hlast (hc answer)
    · refine ⟨hafter c (by simp), before, answer, after, rfl, ?_⟩
      exact fun d hd => hafter d (by simp [hd])
  · rintro ⟨he, before, answer, after, rfl, hafter⟩
    refine ⟨before, answer, after ++ [c], by simp, ?_⟩
    intro d hd
    rcases List.mem_append.mp hd with hd | hd
    · exact hafter d hd
    · rwa [List.mem_singleton.mp hd]

theorem MadeBy.isSome_knownLanguages_iff (h : MadeBy cs p) :
    p.knownLanguages.isSome = true ↔ AskedSince cs := by
  induction h with
  | empty => simp [AskedSince]
  | @call cs c p q _ hcall ih =>
      obtain ⟨e, he, rfl⟩ | ⟨rfl, rfl⟩ | ⟨he, hc, rfl⟩ := hcall.cases
      -- An entry was added: the program has forgotten its languages, and nobody has asked since.
      · have hc : ∀ answer, c ≠ .languages answer := by
          rintro answer rfl
          cases he
        rw [askedSince_append hc, he]
        simp
      · exact iff_of_true p.isSome_knownLanguages_languages (askedSince_append_languages cs _)
      · rw [askedSince_append hc, ih]
        simp [he]

end Calls

section Runs

variable {ι : Type} [DecidableEq ι]

inductive Event (ι : Type)
  | call (i : ι) (c : Call)
  | copy (i j : ι)
  | compare (i j : ι) (same : Bool)

inductive Step (ps : ι → Program) : Event ι → (ι → Program) → Prop
  | call {i : ι} {c : Call} {p : Program} (hcall : (ps i).Does c p) :
      Step ps (.call i c) (Function.update ps i p)
  | copy (i j : ι) : Step ps (.copy i j) (Function.update ps j (ps i))
  | compare (i j : ι) : Step ps (.compare i j (ps i == ps j)) ps

inductive Run : List (Event ι) → (ι → Program) → Prop
  | start : Run [] fun _ => .empty
  | step {log : List (Event ι)} {ps ps' : ι → Program} {event : Event ι} (hrun : Run log ps)
      (hstep : Step ps event ps') : Run (log ++ [event]) ps'

/-- A copy takes over the calls on the program that it is a copy of. -/
def noteEvent (calls : ι → List Call) : Event ι → ι → List Call
  | .call i c => Function.update calls i (calls i ++ [c])
  | .copy i j => Function.update calls j (calls i)
  | .compare _ _ _ => calls

def callsOn (log : List (Event ι)) : ι → List Call := log.foldl noteEvent fun _ => []

def added (log : List (Event ι)) (i : ι) : List Entry := (callsOn log i).filterMap Call.entry?

theorem callsOn_append (log : List (Event ι)) (event : Event ι) :
    callsOn (log ++ [event]) = noteEvent (callsOn log) event := by
  rw [callsOn, List.foldl_append]
  rfl

variable {log : List (Event ι)} {ps ps' : ι → Program} {event : Event ι}

theorem Step.madeBy (h : Step ps event ps') {calls : ι → List Call}
    (hps : ∀ i, MadeBy (calls i) (ps i)) (i : ι) : MadeBy (noteEvent calls event i) (ps' i) := by
  cases h with
  | @call j c p hcall =>
      by_cases hij : i = j
      · subst hij
        simpa [noteEvent] using (hps i).call hcall
      · simpa [noteEvent, hij] using hps i
  | copy j k =>
      by_cases hik : i = k
      · subst hik
        simpa [noteEvent] using hps j
      · simpa [noteEvent, hik] using hps i
  | compare => exact hps i

namespace Run

theorem madeBy (h : Run log ps) (i : ι) : MadeBy (callsOn log i) (ps i) := by
  induction h generalizing i with
  | start => exact .empty
  | step _ hstep ih =>
      rw [callsOn_append]
      exact hstep.madeBy ih i

theorem entries_eq (h : Run log ps) (i : ι) : (ps i).entries = added log i :=
  (h.madeBy i).entries_eq

theorem exists_step (h : Run log ps) {before after : List (Event ι)}
    (hlog : log = before ++ event :: after) :
    ∃ ps₁ ps₂, Run before ps₁ ∧ Step ps₁ event ps₂ := by
  induction h generalizing after with
  | start => simp at hlog
  | @step log ps ps' last hrun hstep ih =>
      obtain ⟨rfl, rfl, -⟩ | ⟨after', hbefore, -⟩ := append_singleton_eq_cases hlog
      · exact ⟨ps, ps', hrun, hstep⟩
      · exact ih hbefore

theorem languages_answer (h : Run log ps) {i : ι} {answer : List String}
    (hstep : Step ps (.call i (.languages answer)) ps') : answer = languagesOf (added log i) := by
  cases hstep with
  | call hcall =>
      cases hcall with
      | languages hlanguages =>
          rw [← h.entries_eq, ← languages_eq, hlanguages]

theorem compare_answer (h : Run log ps) {i j : ι} {same : Bool}
    (hstep : Step ps (.compare i j same) ps') : same = true ↔ added log i = added log j := by
  cases hstep with
  | compare => rw [beq_iff, h.entries_eq, h.entries_eq]

/-- In every run, a program holds the entries that were added to it and to what it is a copy of.
Each time it is asked for its languages it answers with those of its entries, sorted and each once.
It remembers them exactly when they were asked for behind the last entry that was added. Programs
are the same when their entries are, whatever they remember. -/
theorem languages_coherent (h : Run log ps) :
    (∀ i, (ps i).entries = added log i) ∧
    (∀ before i answer after, log = before ++ .call i (.languages answer) :: after →
      answer.Pairwise (· < ·) ∧
      ∀ language, language ∈ answer ↔ ∃ e ∈ added before i, e.language = language) ∧
    (∀ i, (ps i).knownLanguages.isSome = true ↔ AskedSince (callsOn log i)) ∧
    (∀ before i j same after, log = before ++ .compare i j same :: after →
      (same = true ↔ added before i = added before j)) ∧
    ∀ p q : Program, (p == q) = true ↔ p.entries = q.entries := by
  refine ⟨h.entries_eq, ?_, fun i => (h.madeBy i).isSome_knownLanguages_iff, ?_,
    fun p q => beq_iff⟩
  · intro before i answer after hlog
    obtain ⟨ps₁, ps₂, hrun, hstep⟩ := h.exists_step hlog
    rw [hrun.languages_answer hstep]
    exact ⟨Text.pairwise_sortedSet _, fun language => mem_languagesOf⟩
  · intro before i j same after hlog
    obtain ⟨ps₁, ps₂, hrun, hstep⟩ := h.exists_step hlog
    exact hrun.compare_answer hstep

end Run

end Runs

def javaLeaf : Entry := ⟨"java", .node (.ordinary "Leaf" [.empty])⟩

def commonLeaf : Entry := ⟨"common", .node (.ordinary "Leaf" [.empty])⟩

/-- A program is asked for its languages and copied behind a line that fails. The copy grows, is
asked again, and grows once more. -/
def branched : List (Event Bool) :=
  [.call false (.add javaLeaf), .call false (.languages ["java"]),
    .call false (.line "Leaf 0" (.error ⟨.missingArrow, ⟨0, 6⟩, 1⟩)), .copy false true,
    .call true (.line "Leaf <- 0" (.ok (some commonLeaf))),
    .call true (.entriesIn "java" [javaLeaf]), .compare false true false,
    .call true (.languages ["common", "java"]), .call true (.add javaLeaf)]

def asked : Program := ⟨[javaLeaf], some ["java"], by decide⟩

def askedAgain : Program := ⟨[javaLeaf, commonLeaf], some ["common", "java"], by decide⟩

theorem languages_coherent_branched :
    ∃ ps, Run branched ps ∧ added branched true = [javaLeaf, commonLeaf, javaLeaf] ∧
      (ps true).entries = added branched true ∧
      (∀ language, language ∈ ["common", "java"] ↔
        ∃ e ∈ added (branched.take 7) true, e.language = language) ∧
      AskedSince (callsOn branched false) ∧ ¬ AskedSince (callsOn branched true) := by
  have hasked : (Program.empty.add javaLeaf).languages = (["java"], asked) := by rfl
  have hfails : (ProgramReader.ofProgram asked).feed "Leaf 0" =
      (.error ⟨.missingArrow, ⟨0, 6⟩, 1⟩, ⟨asked, "", 1⟩) := by rfl
  have hreads : (ProgramReader.ofProgram asked).feed "Leaf <- 0" =
      (.ok (some commonLeaf), ⟨asked.add commonLeaf, "", 1⟩) := by with_unfolding_all rfl
  have hagain : (asked.add commonLeaf).languages = (["common", "java"], askedAgain) := by rfl
  have hstart : Run ([] : List (Event Bool)) fun _ => .empty := .start
  have hfirst := (hstart.step (.call (i := false) (.add javaLeaf))).step
    (.call (i := false) (.languages hasked))
  have hcopied := (hfirst.step (.call (i := false) (.line rfl hfails))).step (.copy false true)
  have hgrown := (hcopied.step (.call (i := true) (.line (r := .ofProgram asked) rfl hreads))).step
    (.call (i := true) (.entriesIn "java"))
  have hlast := ((hgrown.step (.compare false true)).step
    (.call (i := true) (.languages hagain))).step (.call (i := true) (.add javaLeaf))
  have hrun : Run branched _ := hlast
  obtain ⟨hentries, hlanguages, hknown, -, -⟩ := hrun.languages_coherent
  refine ⟨_, hrun, rfl, hentries true, (hlanguages (branched.take 7) true _ _ rfl).2,
    (hknown false).mp rfl, ?_⟩
  rw [← hknown true]
  exact Bool.false_ne_true

end NodeRules.Program
