import NodeRules.Proofs.Scope.Declared

namespace NodeRules

def Rule.basesAmong (rules : List Rule) (name : String) : List String :=
  (rules.filter fun rule => rule.isAbstract && decide (name ∈ rule.subtypes)).map Rule.name

theorem Rule.isAbstract_of_mem_subtypes {rule : Rule} {name : String} (h : name ∈ rule.subtypes) :
    rule.isAbstract = true := by
  cases rule with
  | node r =>
      cases hs : r.subtypes with
      | nil => simp [Rule.subtypes, hs] at h
      | cons first rest => simp [Rule.isAbstract, NodeRule.isAbstract, hs]
  | literal r => simp [Rule.subtypes] at h

theorem Rule.basesAmong_append_singleton (rules : List Rule) (rule : Rule) (name : String) :
    Rule.basesAmong (rules ++ [rule]) name =
      if name ∈ rule.subtypes then Rule.basesAmong rules name ++ [rule.name]
      else Rule.basesAmong rules name := by
  by_cases h : name ∈ rule.subtypes
  · simp [Rule.basesAmong, h, Rule.isAbstract_of_mem_subtypes h]
  · simp [Rule.basesAmong, h]

theorem Rule.mem_basesAmong {rules : List Rule} {name base : String} :
    base ∈ Rule.basesAmong rules name ↔
      ∃ rule ∈ rules, rule.isAbstract ∧ name ∈ rule.subtypes ∧ rule.name = base := by
  simp only [Rule.basesAmong, List.mem_map, List.mem_filter, Bool.and_eq_true, decide_eq_true_eq]
  constructor
  · rintro ⟨rule, ⟨hr, ha, hs⟩, hname⟩
    exact ⟨rule, hr, ha, hs, hname⟩
  · rintro ⟨rule, hr, ha, hs, hname⟩
    exact ⟨rule, ⟨hr, ha, hs⟩, hname⟩

theorem Rule.nodup_basesAmong {rules : List Rule} (h : (rules.map Rule.name).Nodup)
    (name : String) : (Rule.basesAmong rules name).Nodup :=
  h.sublist (List.filter_sublist.map Rule.name)

namespace NameTable

theorem lookup_set (t : NameTable) (name other : String) (names : List String) :
    (t.set name names).lookup other = if other = name then some names else t.lookup other := by
  by_cases h : other = name
  · simp [set, h]
  · simp [set, List.lookup_cons, h, beq_eq_false_iff_ne.mpr h]

theorem get_set (t : NameTable) (name other : String) (names : List String) :
    (t.set name names).get other = if other = name then names else t.get other := by
  rw [get]
  rw [lookup_set]
  split <;> rfl

theorem get_addBase (t : NameTable) (name base other : String) :
    (t.addBase name base).get other =
      if other = name ∧ base ∉ t.get name then t.get name ++ [base] else t.get other := by
  by_cases hb : base ∈ t.get name
  · simp [addBase, hb]
  · by_cases ho : other = name <;> simp [addBase, hb, ho, get_set]

theorem addSubtypes_cases (t : NameTable) (d : Declared) (base : String) (names : List String) :
    (∃ name, First (fun _ name => ¬ (d.origin? name).isSome) names name ∧
      t.addSubtypes d base names = .error name) ∨
    ((∀ name ∈ names, (d.origin? name).isSome) ∧ ∃ t', t.addSubtypes d base names = .ok t' ∧
      ∀ other, t'.get other =
        if other ∈ names ∧ base ∉ t.get other then t.get other ++ [base] else t.get other) := by
  induction names generalizing t with
  | nil => exact .inr ⟨by simp, t, rfl, by simp⟩
  | cons name names ih =>
      by_cases hd : (d.origin? name).isSome
      · have hstep : t.addSubtypes d base (name :: names) =
            (t.addBase name base).addSubtypes d base names := by
          simp [addSubtypes, Option.isNone_iff_eq_none, Option.isSome_iff_ne_none.mp hd]
        rw [hstep]
        rcases ih (t.addBase name base) with ⟨bad, hbad, hres⟩ | ⟨hall, t', hres, hget⟩
        · exact .inl ⟨bad, .cons (not_not_intro hd) hbad, hres⟩
        · refine .inr ⟨by simpa [hd] using hall, t', hres, ?_⟩
          intro other
          rw [hget other, get_addBase]
          -- Behind the first time, `base` stands in the list and is not appended again.
          by_cases ho : other = name
          · subst ho
            by_cases hb : base ∈ t.get other <;> simp [hb]
          · simp [ho]
      · refine .inl ⟨name, .head hd, ?_⟩
        simp [addSubtypes, Option.not_isSome_iff_eq_none.mp hd]

/-- The rule lists a subtype that is not declared. -/
def Unresolved (d : Declared) (rule : Rule) : Prop :=
  ∃ name ∈ rule.subtypes, ¬ (d.origin? name).isSome

theorem addRules_cases (language : String) (d : Declared) (t : NameTable) (done rules : List Rule)
    (hnodup : ((done ++ rules).map Rule.name).Nodup)
    (hget : ∀ name, t.get name = Rule.basesAmong done name) :
    (∃ rule name, First (fun _ => Unresolved d) rules rule ∧
      First (fun _ name => ¬ (d.origin? name).isSome) rule.subtypes name ∧
      addRules language d t rules = .error (.unresolvedType name rule.name language)) ∨
    ((∀ rule ∈ rules, ¬ Unresolved d rule) ∧ ∃ t', addRules language d t rules = .ok t' ∧
      ∀ name, t'.get name = Rule.basesAmong (done ++ rules) name) := by
  induction rules generalizing t done with
  | nil => exact .inr ⟨by simp, t, rfl, by simpa using hget⟩
  | cons rule rules ih =>
      rcases addSubtypes_cases t d rule.name rule.subtypes with
        ⟨name, hname, hres⟩ | ⟨hall, t', hres, hget'⟩
      · exact .inl ⟨rule, name, .head ⟨name, hname.holds⟩, hname, by simp [addRules, hres]⟩
      · have hrule : ¬ Unresolved d rule := by
          rintro ⟨name, hname, hd⟩
          exact hd (hall name hname)
        have hfresh (name : String) : rule.name ∉ Rule.basesAmong done name := by
          intro hmem
          obtain ⟨other, ho, -, -, heq⟩ := Rule.mem_basesAmong.mp hmem
          rw [List.map_append, List.nodup_append] at hnodup
          exact hnodup.2.2 _ (List.mem_map_of_mem ho) _ (by simp) heq
        have hnext (name : String) : t'.get name = Rule.basesAmong (done ++ [rule]) name := by
          rw [hget', hget, Rule.basesAmong_append_singleton]
          simp [hfresh]
        have heq : addRules language d t (rule :: rules) = addRules language d t' rules := by
          simp [addRules, hres]
        rw [heq]
        rcases ih t' (done ++ [rule]) (by simpa using hnodup) hnext with
          ⟨bad, name, hbad, hname, hres'⟩ | ⟨hall', t'', hres', hget''⟩
        · exact .inl ⟨bad, name, .cons hrule hbad, hname, hres'⟩
        · exact .inr ⟨by simpa [hrule] using hall', t'', hres', by simpa using hget''⟩

end NameTable

end NodeRules
