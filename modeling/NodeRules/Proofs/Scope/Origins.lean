import NodeRules.Proofs.Scope.Outcome
import NodeRules.Proofs.Text.Sorted

namespace NodeRules

def Scope.DeclaresChildren (s : Scope) (rule : Rule) : Prop :=
  ∀ r, rule = .node r → r.isAbstract = false →
    ∀ d ∈ r.descriptors, s.isDeclared d.typeName = true

namespace Scope.Describes

variable {p : Program} {language : String} {s : Scope}

theorem origin?_eq_own (h : s.Describes p language) {name : String} :
    s.origin? name = some .own ↔ p.Declares language name := by
  rw [origin?, h.declared_eq, Declared.origin?_eq_own, Declared.mem_own]

theorem origin?_eq_common (h : s.Describes p language) {name : String} :
    s.origin? name = some .common ↔
      ¬ p.Declares language name ∧ p.Declares commonLanguage name := by
  rw [origin?, h.declared_eq, Declared.origin?_eq_common, Declared.mem_own, Declared.mem_common]
  constructor
  · rintro ⟨hown, -, hcommon⟩
    exact ⟨hown, hcommon⟩
  · rintro ⟨hown, hcommon⟩
    refine ⟨hown, ?_, hcommon⟩
    rintro rfl
    exact hown hcommon

theorem isDeclared_iff (h : s.Describes p language) {name : String} :
    s.isDeclared name = true ↔ p.Declares language name ∨ p.Declares commonLanguage name := by
  rw [isDeclared, origin?, h.declared_eq]
  exact Declared.origin?_isSome

theorem find?_rules (h : s.Describes p language) {e : Entry} (he : e ∈ p.entries)
    (hlanguage : e.language = language) :
    s.rules.find? (fun rule => rule.name == e.name) = some e.rule := by
  have hvisible : e.rule ∈ p.visibleRules language :=
    Program.mem_visibleRules.mpr ⟨e, he, rfl, .inl hlanguage⟩
  rw [h.rules_eq]
  exact (find?_key_eq_some_iff h.nodup).mpr ⟨hvisible, rfl⟩

theorem mem_imports (h : s.Describes p language) {e : Entry} (he : e ∈ p.entries)
    (hlanguage : e.language = language) {name : String} :
    name ∈ s.imports e.name ↔
      (name ∈ e.rule.references ∨ name ∈ s.bases e.name) ∧
        ¬ p.Declares language name ∧ p.Declares commonLanguage name := by
  have hown : s.origin? e.name = some .own := h.origin?_eq_own.mpr ⟨e, he, hlanguage, rfl⟩
  rw [imports, h.find?_rules he hlanguage]
  simp only [hown, if_true, Text.mem_sortedSet, List.mem_filter, List.mem_append,
    decide_eq_true_eq, h.origin?_eq_common]

theorem exists_abstract (h : s.Describes p language) {name base : String}
    (hbase : base ∈ s.bases name) :
    ∃ rule ∈ p.visibleRules language, rule.name = base ∧ rule.isAbstract = true := by
  rw [h.bases_eq] at hbase
  obtain ⟨rule, hrule, habstract, -, hname⟩ := Rule.mem_basesAmong.mp hbase
  exact ⟨rule, hrule, hname, habstract⟩

end Scope.Describes

end NodeRules
