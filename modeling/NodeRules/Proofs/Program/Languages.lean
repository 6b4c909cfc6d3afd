import NodeRules.Program.Basic
import NodeRules.Proofs.Text.Sorted

namespace NodeRules.Program

variable {p q : Program}

theorem beq_iff : (p == q) = true ↔ p.entries = q.entries :=
  beq_iff_eq (a := p.entries) (b := q.entries)

theorem languages_eq (p : Program) : p.languages.1 = languagesOf p.entries := by
  rw [languages]
  split
  · rename_i known hknown
    exact p.coherent known hknown
  · rfl

theorem mem_languagesOf {es : List Entry} {language : String} :
    language ∈ languagesOf es ↔ ∃ e ∈ es, e.language = language := by
  rw [languagesOf, Text.mem_sortedSet, List.mem_map]

theorem mem_languages (p : Program) {language : String} :
    language ∈ p.languages.1 ↔ ∃ e ∈ p.entries, e.language = language := by
  rw [languages_eq, mem_languagesOf]

theorem languagesOf_congr
    (h : ∀ language, (∃ e ∈ p.entries, e.language = language) ↔
      ∃ e ∈ q.entries, e.language = language) :
    languagesOf p.entries = languagesOf q.entries := by
  apply Text.sortedSet_congr
  intro language
  rw [List.mem_map, List.mem_map]
  exact h language

end NodeRules.Program
