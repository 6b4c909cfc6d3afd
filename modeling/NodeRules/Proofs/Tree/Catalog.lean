import NodeRules.Proofs.Results
import NodeRules.Proofs.Scope.Origins
import NodeRules.Tree.Catalog

namespace NodeRules

namespace Tree.Catalog

theorem concrete?_eq_some_iff {rule : Rule} {r : NodeRule} :
    concrete? rule = some r ↔ rule = .node r ∧ r.isAbstract = false := by
  cases rule with
  | node node => simp [concrete?, Rule.node?, Option.filter_eq_some_iff]
  | literal _ => simp [concrete?, Rule.node?]

theorem typeOf_ok {scope : Scope} {r : NodeRule} {t : NodeType} (h : typeOf scope r = .ok t) :
    t = ⟨r.name, r.descriptors, scope.groups r.name⟩ := by
  rw [typeOf] at h
  split at h
  · cases h
  · cases h
    rfl

theorem ofScope_ok_of_declared {scope : Scope}
    (h : ∀ r ∈ scope.rules.filterMap concrete?,
      ∀ d ∈ r.descriptors, scope.isDeclared d.typeName = true) :
    ∃ catalog, ofScope scope = .ok catalog := by
  have htypes : ∀ r ∈ scope.rules.filterMap concrete?, ∃ t, typeOf scope r = .ok t := by
    intro r hr
    have hnone : r.descriptors.find? (fun d => !scope.isDeclared d.typeName) = none := by
      rw [List.find?_eq_none]
      intro d hd
      simp [h r hr d hd]
    exact ⟨_, by rw [typeOf, hnone]⟩
  obtain ⟨types, htypes⟩ := exists_mapM_ok htypes
  exact ⟨⟨types⟩, by rw [ofScope, htypes]; rfl⟩

section Types

variable {scope : Scope} {catalog : Catalog}

theorem types_eq (h : ofScope scope = .ok catalog) :
    catalog.types = (scope.rules.filterMap concrete?).map fun r =>
      ⟨r.name, r.descriptors, scope.groups r.name⟩ := by
  obtain ⟨types, htypes, h⟩ := bind_ok h
  cases h
  have hpairs := (forall₂_of_mapM htypes).imp fun _ _ => typeOf_ok
  rw [← List.forall₂_eq_eq_eq, List.forall₂_map_right_iff]
  exact hpairs.flip

theorem mem_types_iff (h : ofScope scope = .ok catalog) {t : NodeType} :
    t ∈ catalog.types ↔ ∃ r, .node r ∈ scope.rules ∧ r.isAbstract = false ∧
      t = ⟨r.name, r.descriptors, scope.groups r.name⟩ := by
  rw [types_eq h, List.mem_map]
  constructor
  · rintro ⟨r, hr, rfl⟩
    obtain ⟨rule, hrule, hconcrete⟩ := List.mem_filterMap.mp hr
    obtain ⟨rfl, habstract⟩ := concrete?_eq_some_iff.mp hconcrete
    exact ⟨r, hrule, habstract, rfl⟩
  · rintro ⟨r, hrule, habstract, rfl⟩
    have hconcrete := concrete?_eq_some_iff.mpr ⟨rfl, habstract⟩
    exact ⟨r, List.mem_filterMap.mpr ⟨_, hrule, hconcrete⟩, rfl⟩

theorem mem_types (h : ofScope scope = .ok catalog) {t : NodeType} (ht : t ∈ catalog.types) :
    ∃ r, .node r ∈ scope.rules ∧ r.isAbstract = false ∧
      t = ⟨r.name, r.descriptors, scope.groups r.name⟩ :=
  (mem_types_iff h).mp ht

theorem names_concrete_sublist (rules : List Rule) :
    ((rules.filterMap concrete?).map NodeRule.name).Sublist (rules.map Rule.name) := by
  induction rules with
  | nil => exact .slnil
  | cons rule rules ih =>
      rw [List.filterMap_cons, List.map_cons]
      split
      · exact ih.cons _
      · rename_i r hconcrete
        obtain ⟨rfl, -⟩ := concrete?_eq_some_iff.mp hconcrete
        exact ih.cons_cons _

theorem nodup_types (h : ofScope scope = .ok catalog) (hnodup : (scope.rules.map Rule.name).Nodup) :
    (catalog.types.map NodeType.name).Nodup := by
  rw [types_eq h, List.map_map]
  exact hnodup.sublist (names_concrete_sublist scope.rules)

theorem get?_eq_some_iff (h : ofScope scope = .ok catalog)
    (hnodup : (scope.rules.map Rule.name).Nodup) {name : String} {t : NodeType} :
    catalog.get? name = some t ↔ ∃ r, .node r ∈ scope.rules ∧ r.isAbstract = false ∧
      r.name = name ∧ t = ⟨r.name, r.descriptors, scope.groups r.name⟩ := by
  rw [get?, find?_key_eq_some_iff (nodup_types h hnodup), mem_types_iff h]
  constructor
  · rintro ⟨⟨r, hr, habstract, rfl⟩, hname⟩
    exact ⟨r, hr, habstract, hname, rfl⟩
  · rintro ⟨r, hr, habstract, hname, rfl⟩
    exact ⟨⟨r, hr, habstract, rfl⟩, hname⟩

end Types

end Tree.Catalog

theorem Scope.Describes.mem_entries {p : Program} {language : String} {s : Scope}
    (h : s.Describes p language) {rule : Rule} (hrule : rule ∈ s.rules) :
    (p.Declares language rule.name → ⟨language, rule⟩ ∈ p.entries) ∧
      (¬ p.Declares language rule.name → ⟨commonLanguage, rule⟩ ∈ p.entries) := by
  rw [h.rules_eq] at hrule
  obtain ⟨⟨home, rule⟩, he, rfl, hhome⟩ := Program.mem_visibleRules.mp hrule
  constructor
  · intro hown
    obtain rfl | ⟨-, hhidden⟩ := hhome
    · exact he
    · exact absurd hown hhidden
  · intro hother
    obtain rfl | ⟨rfl, -⟩ := hhome
    · exact absurd ⟨_, he, rfl, rfl⟩ hother
    · exact he

/-- A scope has one rule for each declared name: the one of the language itself, or else the common
one. The catalog has the types of those that are concrete, under their names. -/
theorem Scope.sees_one_rule_each {p : Program} {language : String} {s : Scope}
    (h : Scope.ofProgram p language = .ok s) :
    (s.rules.map Rule.name).Nodup ∧ s.rules = p.visibleRules language ∧
    (∀ name, name ∈ s.rules.map Rule.name ↔ s.isDeclared name = true) ∧
    (∀ name, s.isDeclared name = true ↔ ∃ e ∈ p.entries,
      (e.language = language ∨ e.language = commonLanguage) ∧ e.name = name) ∧
    (∀ rule ∈ s.rules,
      (p.Declares language rule.name →
        s.origin? rule.name = some .own ∧ ⟨language, rule⟩ ∈ p.entries) ∧
      (¬ p.Declares language rule.name →
        s.origin? rule.name = some .common ∧ ⟨commonLanguage, rule⟩ ∈ p.entries)) ∧
    ∀ catalog, Tree.Catalog.ofProgram p language = .ok catalog →
      (catalog.types.map Tree.NodeType.name).Nodup ∧
      ∀ name t, catalog.get? name = some t ↔ ∃ r, .node r ∈ s.rules ∧ r.isAbstract = false ∧
        r.name = name ∧ t = ⟨r.name, r.descriptors, s.groups r.name⟩ := by
  have hs := Scope.describes h
  have hnodup : (s.rules.map Rule.name).Nodup := hs.rules_eq ▸ hs.nodup
  refine ⟨hnodup, hs.rules_eq, fun name => ?_, fun name => ?_, fun rule hrule => ⟨?_, ?_⟩, ?_⟩
  · rw [hs.isDeclared_iff, ← Program.exists_visibleRules_name, ← hs.rules_eq, List.mem_map]
  · rw [hs.isDeclared_iff]
    simp only [Program.Declares, ← exists_or, ← and_or_left, ← or_and_right]
  · intro hown
    exact ⟨hs.origin?_eq_own.mpr hown, (hs.mem_entries hrule).1 hown⟩
  · intro hother
    have hentry := (hs.mem_entries hrule).2 hother
    exact ⟨hs.origin?_eq_common.mpr ⟨hother, _, hentry, rfl, rfl⟩, hentry⟩
  · intro catalog hcatalog
    obtain ⟨s', hs', hscope⟩ := bind_ok hcatalog
    obtain rfl : s = s' := Except.ok.inj (h.symm.trans hs')
    exact ⟨Tree.Catalog.nodup_types hscope hnodup,
      fun name t => Tree.Catalog.get?_eq_some_iff hscope hnodup⟩

/-- The language hides one common rule, and a third one repeats itself. -/
def overridden : Program :=
  .unasked
    [⟨"common", .node (.abstract "Stmt" ["Return", "Pass"])⟩,
      ⟨"common", .node (.ordinary "Return" [.empty])⟩,
      ⟨"java", .node (.ordinary "Return" [.descriptor (.plain "Stmt" .one)])⟩,
      ⟨"python", .node (.ordinary "Pass" [.empty])⟩,
      ⟨"python", .node (.ordinary "Pass" [.empty])⟩,
      ⟨"common", .node (.ordinary "Pass" [.empty])⟩]

theorem Scope.sees_one_rule_each_overridden :
    ∃ s catalog, Scope.ofProgram overridden "java" = .ok s ∧
      Tree.Catalog.ofProgram overridden "java" = .ok catalog ∧
      s.rules.map Rule.name = ["Stmt", "Return", "Pass"] ∧
      s.origin? "Return" = some .own ∧ s.origin? "Pass" = some .common ∧
      catalog.get? "Return" =
        some ⟨"Return", [.plain "Stmt" .one], ["Return", "Stmt"]⟩ ∧
      catalog.get? "Stmt" = none := by
  obtain ⟨s, hs, hgroups⟩ : ∃ s, Scope.ofProgram overridden "java" = .ok s ∧
      s.groups "Return" = ["Return", "Stmt"] := ⟨_, rfl, rfl⟩
  obtain ⟨catalog, hcatalog⟩ : ∃ catalog,
      Tree.Catalog.ofProgram overridden "java" = .ok catalog := ⟨_, rfl⟩
  obtain ⟨-, hrules, -, -, horigin, htypes⟩ := Scope.sees_one_rule_each hs
  have hreturn : .node (.ordinary "Return" [.descriptor (.plain "Stmt" .one)]) ∈ s.rules := by
    rw [hrules]
    decide
  have hpass : .node (.ordinary "Pass" [.empty]) ∈ s.rules := by
    rw [hrules]
    decide
  have hget := (htypes catalog hcatalog).2
  refine ⟨s, catalog, hs, hcatalog, by rw [hrules]; decide, ((horigin _ hreturn).1 (by decide)).1,
    ((horigin _ hpass).2 (by decide)).1, ?_, ?_⟩
  · exact (hget _ _).mpr ⟨_, hreturn, rfl, rfl, by rw [← hgroups]; rfl⟩
  · refine Option.eq_none_iff_forall_ne_some.mpr fun t ht => ?_
    obtain ⟨r, hr, habstract, hname, -⟩ := (hget _ _).mp ht
    have hall : ∀ rule ∈ s.rules, rule.name = "Stmt" → rule.isAbstract = true := by
      rw [hrules]
      decide
    exact absurd (hall _ hr hname) (by simp [Rule.isAbstract, habstract])

end NodeRules
