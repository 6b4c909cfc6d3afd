import Mathlib.Data.List.Perm.Basic
import NodeRules.Proofs.Scope.Origins

namespace NodeRules

namespace Program

/-- The programs have the same entries, and the abstract ones among them in the same order. -/
structure Reorders (p q : Program) : Prop where
  perm : p.entries.Perm q.entries
  abstract_eq : p.entries.filter (fun e => e.rule.isAbstract) =
    q.entries.filter fun e => e.rule.isAbstract

variable {p q : Program} {language name : String}

theorem bases_eq_filter (p : Program) (language name : String) :
    p.bases language name = ((p.entries.filter fun e => e.rule.isAbstract).filter fun e =>
      decide (e.language = language ∨
        (e.language = commonLanguage ∧ ¬ p.Declares language e.name)) &&
      decide (name ∈ e.rule.subtypes)).map Entry.name := by
  rw [bases, Rule.basesAmong, visibleRules, List.filter_map, List.map_map, List.filter_filter,
    List.filter_filter]
  congr 1
  apply List.filter_congr
  intro e _
  rw [Function.comp_apply, Bool.and_comm, Bool.and_left_comm, Bool.and_comm]

namespace Reorders

theorem declares_iff (h : p.Reorders q) : p.Declares language name ↔ q.Declares language name := by
  simp only [Declares, h.perm.mem_iff]

theorem repeats_iff (h : p.Reorders q) : p.Repeats language ↔ q.Repeats language := by
  rw [← not_iff_not, not_repeats_iff, not_repeats_iff]
  apply h.perm.pairwise_iff
  intro d e hdiff hseen hl hname
  exact hdiff (hl ▸ hseen) hl.symm hname.symm

theorem visibleRules_perm (h : p.Reorders q) :
    (p.visibleRules language).Perm (q.visibleRules language) := by
  rw [visibleRules, visibleRules]
  simp only [h.declares_iff]
  exact (h.perm.filter _).map _

theorem bases_eq (h : p.Reorders q) : p.bases language name = q.bases language name := by
  rw [bases_eq_filter, bases_eq_filter, h.abstract_eq]
  simp only [h.declares_iff]

theorem firstBase_eq (h : p.Reorders q) : p.firstBase language = q.firstBase language := by
  funext name
  rw [firstBase, firstBase, h.bases_eq]

theorem listsUnknown_iff (h : p.Reorders q) {rule : Rule} :
    p.ListsUnknown language rule ↔ q.ListsUnknown language rule := by
  simp only [ListsUnknown, Unknown, h.declares_iff]

end Reorders

end Program

namespace Scope

variable {p q : Program} {language : String} {s t : Scope}

theorem exists_ofProgram_iff (h : p.Reorders q) :
    (∃ s, ofProgram p language = .ok s) ↔ ∃ t, ofProgram q language = .ok t := by
  rw [ofProgram_ok_iff, ofProgram_ok_iff]
  simp only [h.repeats_iff, h.visibleRules_perm.mem_iff, h.listsUnknown_iff, Program.Loops,
    h.firstBase_eq]

theorem Describes.origin?_congr (hs : s.Describes p language) (ht : t.Describes q language)
    (h : p.Reorders q) (name : String) : s.origin? name = t.origin? name := by
  ext origin
  cases origin with
  | own => rw [hs.origin?_eq_own, ht.origin?_eq_own, h.declares_iff]
  | common =>
      rw [hs.origin?_eq_common, ht.origin?_eq_common, h.declares_iff, h.declares_iff]

theorem Describes.imports_congr (hs : s.Describes p language) (ht : t.Describes q language)
    (h : p.Reorders q) (name : String) : s.imports name = t.imports name := by
  have horigin := hs.origin?_congr ht h
  by_cases hown : p.Declares language name
  · -- Only one entry of the language has the name, wherever it stands.
    obtain ⟨e, he, hl, rfl⟩ := hown
    have hbases : s.bases e.name = t.bases e.name := by
      rw [hs.bases_eq, ht.bases_eq, h.bases_eq]
    simp only [imports, hs.find?_rules he hl, ht.find?_rules (h.perm.mem_iff.mp he) hl, horigin,
      hbases]
  · have hnone {u : Scope} (hu : u.origin? name ≠ some .own) : u.imports name = [] := by
      rw [imports]
      split <;> simp [hu]
    have hne : s.origin? name ≠ some .own := fun ho => hown (hs.origin?_eq_own.mp ho)
    rw [hnone hne, hnone (horigin name ▸ hne)]

/-- Programs that differ only in where their rules without subtypes stand are accepted for the same
languages, and nothing that a scope tells about a name is different. -/
theorem ofProgram_reorders (h : p.Reorders q) (language : String) :
    ((∃ s, ofProgram p language = .ok s) ↔ ∃ t, ofProgram q language = .ok t) ∧
    ∀ s t, ofProgram p language = .ok s → ofProgram q language = .ok t → ∀ name,
      s.hierarchy name = t.hierarchy name ∧ s.bases name = t.bases name ∧
      s.imports name = t.imports name ∧ s.isDeclared name = t.isDeclared name ∧
      s.origin? name = t.origin? name := by
  refine ⟨exists_ofProgram_iff h, ?_⟩
  intro s t hs ht name
  have hp := describes hs
  have hq := describes ht
  have horigin := hp.origin?_congr hq h name
  refine ⟨?_, ?_, hp.imports_congr hq h name, ?_, horigin⟩
  · exact (hp.chain name).unique (h.firstBase_eq ▸ hq.chain name)
  · rw [hp.bases_eq, hq.bases_eq, h.bases_eq]
  · rw [isDeclared, isDeclared, horigin]

/-- A language that lists common types, each declared behind the rules that list it. -/
def listedFirst : Program := .ofEntries
  [⟨"common", .node (.abstract "Expression" ["Call", "Name"])⟩,
    ⟨"java", .node (.abstract "Target" ["Name", "Field"])⟩,
    ⟨"java", .literal ⟨"Field", "int", "#", "#", none⟩⟩,
    ⟨"common", .node (.ordinary "Name" [.empty])⟩, ⟨"common", .node (.ordinary "Call" [.empty])⟩]

def declaredFirst : Program := .ofEntries
  [⟨"common", .node (.ordinary "Call" [.empty])⟩,
    ⟨"java", .literal ⟨"Field", "int", "#", "#", none⟩⟩,
    ⟨"common", .node (.abstract "Expression" ["Call", "Name"])⟩,
    ⟨"common", .node (.ordinary "Name" [.empty])⟩,
    ⟨"java", .node (.abstract "Target" ["Name", "Field"])⟩]

theorem ofProgram_reorders_listedFirst :
    listedFirst.Reorders declaredFirst ∧ ∃ s t, ofProgram listedFirst "java" = .ok s ∧
      ofProgram declaredFirst "java" = .ok t ∧ s.rules ≠ t.rules ∧
      s.bases "Name" = ["Expression", "Target"] ∧ t.bases "Name" = ["Expression", "Target"] ∧
      s.imports "Target" = ["Name"] ∧ t.imports "Target" = ["Name"] := by
  have hreorders : listedFirst.Reorders declaredFirst := ⟨by decide, by decide⟩
  obtain ⟨hiff, hsame⟩ := ofProgram_reorders hreorders "java"
  obtain ⟨s, hs, hrules, hbases, himports⟩ :
      ∃ s, ofProgram listedFirst "java" = .ok s ∧ s.rules = listedFirst.visibleRules "java" ∧
        s.bases "Name" = ["Expression", "Target"] ∧ s.imports "Target" = ["Name"] :=
    ⟨_, rfl, rfl, by decide, by decide⟩
  obtain ⟨t, ht⟩ := hiff.mp ⟨s, hs⟩
  obtain ⟨-, hbases', -⟩ := hsame s t hs ht "Name"
  obtain ⟨-, -, himports', -⟩ := hsame s t hs ht "Target"
  refine ⟨hreorders, s, t, hs, ht, ?_, hbases, hbases' ▸ hbases, himports, himports' ▸ himports⟩
  rw [hrules, (describes ht).rules_eq]
  decide

end Scope

end NodeRules
