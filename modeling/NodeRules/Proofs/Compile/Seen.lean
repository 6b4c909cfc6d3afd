import NodeRules.Compile
import NodeRules.Proofs.Program.Languages
import NodeRules.Proofs.Scope.Declared
import NodeRules.Tree.Catalog

namespace NodeRules

namespace Program

def seenBy (p : Program) (language : String) : List Entry :=
  p.entries.filter fun e => e.language = language ∨ e.language = commonLanguage

variable {p q : Program} {language : String}

theorem seenBy_eq_filter (p : Program) (language : String) :
    p.seenBy language = p.entries.filter fun e => (e.originIn language).isSome := by
  apply List.filter_congr
  intro e _
  rw [Bool.eq_iff_iff, decide_eq_true_iff, Declared.originIn_isSome]

theorem seenBy_swap {front back : List Entry} {d e : Entry}
    (hp : p.entries = front ++ d :: e :: back) (hq : q.entries = front ++ e :: d :: back)
    (hne : d.language ≠ e.language) (hd : d.language ≠ commonLanguage)
    (he : e.language ≠ commonLanguage) (language : String) :
    p.seenBy language = q.seenBy language := by
  rw [seenBy, seenBy, hp, hq, List.filter_append, List.filter_append]
  congr 1
  -- No language sees both of them.
  by_cases hl : d.language = language
  · have hother : e.language ≠ language := fun h => hne (hl.trans h.symm)
    simp [hl, hother, he]
  · simp [List.filter_cons, hl, hd]

theorem entriesIn_eq_filter (p : Program) (language : String) :
    p.entriesIn language = (p.seenBy language).filter fun e => e.language == language := by
  rw [entriesIn, seenBy, List.filter_filter]
  apply List.filter_congr
  intro e _
  by_cases hl : e.language = language <;> simp [hl]

theorem exists_entry_iff (p : Program) (language : String) :
    (∃ e ∈ p.entries, e.language = language) ↔ ∃ e ∈ p.seenBy language, e.language = language := by
  constructor
  · rintro ⟨e, he, hl⟩
    exact ⟨e, List.mem_filter.mpr ⟨he, by simp [hl]⟩, hl⟩
  · rintro ⟨e, he, hl⟩
    exact ⟨e, (List.mem_filter.mp he).1, hl⟩

end Program

namespace Declared

theorem addAll_filter (language : String) (d : Declared) (es : List Entry) :
    d.addAll language (es.filter fun e => (e.originIn language).isSome) =
      d.addAll language es := by
  induction es generalizing d with
  | nil => rfl
  | cons e es ih =>
      cases he : e.originIn language with
      | none =>
          rw [List.filter_cons_of_neg (by simp [he]), ih]
          simp only [addAll, he]
      | some origin =>
          rw [List.filter_cons_of_pos (by simp [he])]
          simp only [addAll, he, ih]

theorem visibleRules_filter (language : String) (d : Declared) (es : List Entry) :
    d.visibleRules language (es.filter fun e => (e.originIn language).isSome) =
      d.visibleRules language es := by
  rw [visibleRules, visibleRules, List.filter_filter]
  congr 1
  apply List.filter_congr
  intro e _
  cases (e.originIn language).isSome <;> simp

end Declared

variable {p q : Program} {language : String}

theorem Scope.ofProgram_congr (h : p.seenBy language = q.seenBy language) :
    Scope.ofProgram p language = Scope.ofProgram q language := by
  rw [Program.seenBy_eq_filter, Program.seenBy_eq_filter] at h
  have hdeclared : Declared.empty.addAll language p.entries =
      Declared.empty.addAll language q.entries := by
    rw [← Declared.addAll_filter, h, Declared.addAll_filter]
  have hrules (d : Declared) :
      d.visibleRules language p.entries = d.visibleRules language q.entries := by
    rw [← Declared.visibleRules_filter, h, Declared.visibleRules_filter]
  simp only [Scope.ofProgram, hdeclared, hrules]

namespace Program

theorem languages_congr (h : ∀ language, p.seenBy language = q.seenBy language) :
    p.languages.1 = q.languages.1 := by
  rw [languages_eq, languages_eq]
  apply languagesOf_congr
  intro language
  rw [exists_entry_iff, exists_entry_iff, h]

theorem generateAll_congr (h : ∀ language, p.seenBy language = q.seenBy language)
    (target : Java.Target) (scope : Scope) :
    Java.generateAll target scope p = Java.generateAll target scope q := by
  rw [Java.generateAll, Java.generateAll, entriesIn_eq_filter, entriesIn_eq_filter, h]

/-- Two programs in which every language sees the same entries have the same scopes and catalogs
for each language, the same files for each scope, and the same output, or the same errors in their
place. -/
theorem languages_do_not_interfere (h : ∀ language, p.seenBy language = q.seenBy language) :
    (∀ language, Scope.ofProgram p language = Scope.ofProgram q language) ∧
    (∀ language, Tree.Catalog.ofProgram p language = Tree.Catalog.ofProgram q language) ∧
    (∀ target scope, Java.generateAll target scope p = Java.generateAll target scope q) ∧
    ∀ target, p.generate target = q.generate target := by
  have hscopes : Scope.ofProgram p = Scope.ofProgram q := by
    funext language
    exact Scope.ofProgram_congr (h language)
  refine ⟨congrFun hscopes, ?_, generateAll_congr h, ?_⟩
  · intro language
    rw [Tree.Catalog.ofProgram, Tree.Catalog.ofProgram, hscopes]
  · intro target
    simp only [generate, languages_congr h, hscopes, generateAll_congr h]

/-- A rule of one language, whose types loop, stands between the rules of another. -/
def interleaved : Program :=
  (Program.languages
    (.unasked
      [⟨"common", .node (.abstract "Expr" ["Name", "Pass"])⟩,
        ⟨"java", .node (.ordinary "Name" [.empty])⟩,
        ⟨"go", .node (.abstract "Name" ["Pass", "Expr"])⟩,
        ⟨"java", .node (.ordinary "Pass" [.empty])⟩,
        ⟨"common", .node (.ordinary "Pass" [.empty])⟩])).2

def separated : Program :=
  .unasked
    [⟨"common", .node (.abstract "Expr" ["Name", "Pass"])⟩,
      ⟨"go", .node (.abstract "Name" ["Pass", "Expr"])⟩,
      ⟨"java", .node (.ordinary "Name" [.empty])⟩,
      ⟨"java", .node (.ordinary "Pass" [.empty])⟩,
      ⟨"common", .node (.ordinary "Pass" [.empty])⟩]

theorem languages_do_not_interfere_interleaved :
    interleaved.entries ≠ separated.entries ∧
      interleaved.knownLanguages = some ["common", "go", "java"] ∧
      separated.knownLanguages = none ∧
      (∀ language, Scope.ofProgram interleaved language = Scope.ofProgram separated language) ∧
      (∃ scope, Scope.ofProgram interleaved "java" = .ok scope) ∧
      (∃ error, Scope.ofProgram interleaved "go" = .error error) ∧
      ∀ target, interleaved.generate target = separated.generate target := by
  have hp : interleaved.entries = separated.entries.take 1 ++
      ⟨"java", .node (.ordinary "Name" [.empty])⟩ ::
      ⟨"go", .node (.abstract "Name" ["Pass", "Expr"])⟩ :: separated.entries.drop 3 := rfl
  have hsame := seenBy_swap hp (q := separated) rfl (by decide) (by decide) (by decide)
  obtain ⟨hscopes, -, -, hgenerate⟩ := languages_do_not_interfere hsame
  exact ⟨by decide, by decide, rfl, hscopes, ⟨_, rfl⟩, ⟨_, rfl⟩, hgenerate⟩

end Program

end NodeRules
