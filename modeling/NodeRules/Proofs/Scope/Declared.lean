import Mathlib.Data.List.Nodup
import Mathlib.Tactic.Tauto
import NodeRules.Proofs.First
import NodeRules.Scope

namespace NodeRules

/-- The entry declares a type that an entry of the same language in front of it declares, and
`language` sees it. -/
def Entry.Repeats (language : String) (before : List Entry) (e : Entry) : Prop :=
  (e.language = language ∨ e.language = commonLanguage) ∧
    ∃ d ∈ before, d.language = e.language ∧ d.name = e.name

namespace Program

def Repeats (p : Program) (language : String) : Prop :=
  ∃ before e after, p.entries = before ++ e :: after ∧ e.Repeats language before

def Declares (p : Program) (language name : String) : Prop :=
  ∃ e ∈ p.entries, e.language = language ∧ e.name = name

instance (p : Program) (language name : String) : Decidable (p.Declares language name) :=
  inferInstanceAs (Decidable (∃ e ∈ p.entries, e.language = language ∧ e.name = name))

/-- The rules of `language`, and the common ones that it does not declare itself. -/
def visibleRules (p : Program) (language : String) : List Rule :=
  (p.entries.filter fun e =>
    e.language = language ∨ (e.language = commonLanguage ∧ ¬ p.Declares language e.name)).map
      Entry.rule

end Program

namespace Declared

def ofEntries (language : String) (es : List Entry) : Declared :=
  ⟨(es.filter fun e => e.originIn language = some .own).map Entry.name,
    (es.filter fun e => e.originIn language = some .common).map Entry.name⟩

theorem originIn_eq_own {e : Entry} {language : String} :
    e.originIn language = some .own ↔ e.language = language := by
  rw [Entry.originIn]
  split
  · simp_all
  · split <;> simp_all

theorem originIn_eq_common {e : Entry} {language : String} :
    e.originIn language = some .common ↔ e.language ≠ language ∧ e.language = commonLanguage := by
  rw [Entry.originIn, Entry.isCommon]
  split
  · simp_all
  · split <;> simp_all

theorem originIn_isSome {e : Entry} {language : String} :
    (e.originIn language).isSome ↔ e.language = language ∨ e.language = commonLanguage := by
  rw [Entry.originIn, Entry.isCommon]
  split
  · simp_all
  · split <;> simp_all

theorem originIn_eq_iff {d e : Entry} {language : String} {origin : Origin}
    (he : e.originIn language = some origin) :
    d.originIn language = some origin ↔ d.language = e.language := by
  cases origin with
  | own => rw [originIn_eq_own] at he ⊢; rw [he]
  | common =>
      rw [originIn_eq_common] at he ⊢
      constructor
      · intro hd; rw [hd.2, he.2]
      · intro hd; rw [hd]; exact he

theorem mem_names_ofEntries {language name : String} {es : List Entry} {origin : Origin} :
    name ∈ (ofEntries language es).names origin ↔
      ∃ d ∈ es, d.originIn language = some origin ∧ d.name = name := by
  cases origin <;> simp [ofEntries, names, and_assoc]

theorem ofEntries_append_none {language : String} {before : List Entry} {e : Entry}
    (he : e.originIn language = none) :
    ofEntries language (before ++ [e]) = ofEntries language before := by
  simp [ofEntries, he]

theorem ofEntries_append_some {language : String} {before : List Entry} {e : Entry}
    {origin : Origin} (he : e.originIn language = some origin) :
    ofEntries language (before ++ [e]) = (ofEntries language before).add origin e.name := by
  cases origin <;> simp [ofEntries, add, he]

theorem repeats_iff {language : String} {before : List Entry} {e : Entry} {origin : Origin}
    (he : e.originIn language = some origin) :
    e.Repeats language before ↔ e.name ∈ (ofEntries language before).names origin := by
  have hseen : e.language = language ∨ e.language = commonLanguage :=
    originIn_isSome.mp (by simp [he])
  rw [mem_names_ofEntries, Entry.Repeats]
  simp only [originIn_eq_iff he, hseen, true_and]

theorem addAll_cons_cases (language : String) (before : List Entry) (e : Entry) (es : List Entry) :
    (e.Repeats language before ∧ (ofEntries language before).addAll language (e :: es) =
      .error (.duplicateType e.name e.language)) ∨
    (¬ e.Repeats language before ∧ (ofEntries language before).addAll language (e :: es) =
      (ofEntries language (before ++ [e])).addAll language es) := by
  cases he : e.originIn language with
  | none =>
      right
      refine ⟨fun hr => ?_, by simp [addAll, he, ofEntries_append_none he]⟩
      have := originIn_isSome.mpr hr.1
      simp [he] at this
  | some origin =>
      rw [repeats_iff he, ofEntries_append_some he]
      by_cases hm : e.name ∈ (ofEntries language before).names origin <;> simp [addAll, he, hm]

/-- Declaring entry after entry stops at the first repetition, and otherwise collects all names. -/
theorem addAll_cases (language : String) (before es : List Entry) :
    (∃ e, First (fun mid => Entry.Repeats language (before ++ mid)) es e ∧
      (ofEntries language before).addAll language es = .error (.duplicateType e.name e.language)) ∨
    ((∀ mid e after, es = mid ++ e :: after → ¬ e.Repeats language (before ++ mid)) ∧
      (ofEntries language before).addAll language es =
        .ok (ofEntries language (before ++ es))) := by
  induction es generalizing before with
  | nil => exact .inr ⟨by simp, by simp [addAll]⟩
  | cons e es ih =>
      rcases addAll_cons_cases language before e es with ⟨hr, heq⟩ | ⟨hr, heq⟩
      · exact .inl ⟨e, .head (by simpa using hr), heq⟩
      · rw [heq]
        have hr' : ¬ e.Repeats language (before ++ []) := by simpa using hr
        rcases ih (before ++ [e]) with ⟨d, hd, hres⟩ | ⟨hnone, hres⟩
        · exact .inl ⟨d, .cons hr' (by simpa using hd), hres⟩
        · refine .inr ⟨?_, by simpa using hres⟩
          intro mid d after he
          cases mid with
          | nil =>
              obtain ⟨rfl, -⟩ := List.cons.inj he
              exact hr'
          | cons c mid =>
              obtain ⟨rfl, htail⟩ := List.cons.inj he
              simpa using hnone mid d after htail

theorem mem_own {p : Program} {language name : String} :
    name ∈ (ofEntries language p.entries).own ↔ p.Declares language name := by
  rw [show (ofEntries language p.entries).own = (ofEntries language p.entries).names .own from rfl,
    mem_names_ofEntries]
  simp only [originIn_eq_own, Program.Declares]

theorem mem_common {p : Program} {language name : String} :
    name ∈ (ofEntries language p.entries).common ↔
      language ≠ commonLanguage ∧ p.Declares commonLanguage name := by
  rw [show (ofEntries language p.entries).common =
    (ofEntries language p.entries).names .common from rfl, mem_names_ofEntries]
  simp only [originIn_eq_common, Program.Declares]
  constructor
  · rintro ⟨d, hd, ⟨hne, hc⟩, hname⟩
    exact ⟨fun hl => hne (hc.trans hl.symm), d, hd, hc, hname⟩
  · rintro ⟨hne, d, hd, hc, hname⟩
    exact ⟨d, hd, ⟨fun hl => hne (hl.symm.trans hc), hc⟩, hname⟩

theorem origin?_eq_own {d : Declared} {name : String} :
    d.origin? name = some .own ↔ name ∈ d.own := by
  rw [origin?]
  split
  · simp_all
  · split <;> simp_all

theorem origin?_eq_common {d : Declared} {name : String} :
    d.origin? name = some .common ↔ name ∉ d.own ∧ name ∈ d.common := by
  rw [origin?]
  split
  · simp_all
  · split <;> simp_all

theorem origin?_isSome {p : Program} {language name : String} :
    ((ofEntries language p.entries).origin? name).isSome ↔
      p.Declares language name ∨ p.Declares commonLanguage name := by
  rw [origin?]
  simp only [mem_own, mem_common]
  by_cases hl : language = commonLanguage
  · subst hl
    by_cases hd : p.Declares commonLanguage name <;> simp [hd]
  · by_cases hd : p.Declares language name <;> by_cases hc : p.Declares commonLanguage name <;>
      simp [hl, hd, hc]

theorem length_le_size {d : Declared} {names : List String} (hnodup : names.Nodup)
    (hmem : ∀ name ∈ names, (d.origin? name).isSome) : names.length ≤ d.size := by
  have hsub : names ⊆ d.own ++ d.common.filter (· ∉ d.own) := by
    intro name hname
    have horigin := hmem name hname
    rw [origin?] at horigin
    by_cases ho : name ∈ d.own
    · simp [ho]
    · by_cases hc : name ∈ d.common
      · simp [ho, hc]
      · simp [ho, hc] at horigin
  have hle := List.Nodup.length_le_of_subset hnodup hsub
  rwa [List.length_append] at hle

theorem visibleRules_ofEntries (p : Program) (language : String) :
    (ofEntries language p.entries).visibleRules language p.entries = p.visibleRules language := by
  rw [visibleRules, Program.visibleRules]
  congr 1
  apply List.filter_congr
  intro e he
  by_cases ho : e.language = language
  · have horigin := originIn_eq_own.mpr ho
    have hown : p.Declares language e.name := ⟨e, he, ho, rfl⟩
    simp [horigin, ho, origin?_eq_own.mpr (mem_own.mpr hown)]
  · by_cases hc : e.language = commonLanguage
    · have horigin := originIn_eq_common.mpr ⟨ho, hc⟩
      have hne : language ≠ commonLanguage := fun h => ho (hc.trans h.symm)
      have hdecl : p.Declares commonLanguage e.name := ⟨e, he, hc, rfl⟩
      by_cases hown : p.Declares language e.name
      · simp [horigin, ho, hown, origin?_eq_own.mpr (mem_own.mpr hown)]
      · have hcommon := origin?_eq_common.mpr
          ⟨fun h => hown (mem_own.mp h), mem_common.mpr ⟨hne, hdecl⟩⟩
        simp [horigin, hc, hown, hcommon]
    · have hnone : ¬ (e.originIn language).isSome := fun h => by
        rcases originIn_isSome.mp h with h | h
        · exact ho h
        · exact hc h
      simp [hnone, ho, hc]

end Declared

namespace Program

variable {p : Program} {language : String}

theorem mem_visibleRules {rule : Rule} :
    rule ∈ p.visibleRules language ↔ ∃ e ∈ p.entries, e.rule = rule ∧ (e.language = language ∨
      (e.language = commonLanguage ∧ ¬ p.Declares language e.name)) := by
  rw [visibleRules]
  simp only [List.mem_map, List.mem_filter, decide_eq_true_eq]
  constructor
  · rintro ⟨e, ⟨he, hv⟩, rfl⟩
    exact ⟨e, he, rfl, hv⟩
  · rintro ⟨e, he, rfl, hv⟩
    exact ⟨e, ⟨he, hv⟩, rfl⟩

/-- The visible rules declare all names that are declared, hidden rules notwithstanding. -/
theorem exists_visibleRules_name {name : String} :
    (∃ rule ∈ p.visibleRules language, rule.name = name) ↔
      p.Declares language name ∨ p.Declares commonLanguage name := by
  constructor
  · rintro ⟨rule, hr, rfl⟩
    obtain ⟨e, he, rfl, hl | ⟨hc, -⟩⟩ := mem_visibleRules.mp hr
    · exact .inl ⟨e, he, hl, rfl⟩
    · exact .inr ⟨e, he, hc, rfl⟩
  · intro h
    by_cases hown : p.Declares language name
    · obtain ⟨e, he, hl, hname⟩ := hown
      exact ⟨e.rule, mem_visibleRules.mpr ⟨e, he, rfl, .inl hl⟩, hname⟩
    · obtain ⟨e, he, hc, hname⟩ := h.resolve_left hown
      have hhidden : ¬ p.Declares language e.name := by rwa [hname]
      exact ⟨e.rule, mem_visibleRules.mpr ⟨e, he, rfl, .inr ⟨hc, hhidden⟩⟩, hname⟩

theorem not_repeats_iff :
    ¬ p.Repeats language ↔ p.entries.Pairwise fun d e =>
      (e.language = language ∨ e.language = commonLanguage) → d.language = e.language →
        d.name ≠ e.name := by
  constructor
  · intro h
    rw [List.pairwise_iff_forall_sublist]
    intro d e hsub hseen hl hname
    obtain ⟨front, back, he, hd, hmem⟩ := List.cons_sublist_iff.mp hsub
    obtain ⟨mid, after, rfl⟩ := List.append_of_mem (List.singleton_sublist.mp hmem)
    exact h ⟨front ++ mid, e, after, by simp [he], hseen, d, by simp [hd], hl, hname⟩
  · rintro h ⟨before, e, after, he, hseen, d, hd, hl, hname⟩
    rw [he, List.pairwise_append] at h
    exact h.2.2 d hd e List.mem_cons_self hseen hl hname

theorem nodup_visibleRules (h : ¬ p.Repeats language) :
    ((p.visibleRules language).map Rule.name).Nodup := by
  have hpairs := not_repeats_iff.mp h
  rw [visibleRules]
  rw [List.map_map]
  refine List.pairwise_map.mpr ((hpairs.filter _).imp_of_mem ?_)
  intro d e hd he hdiff hname
  simp only [List.mem_filter, decide_eq_true_eq] at hd he
  have hname : d.name = e.name := hname
  rcases hd.2 with hdl | ⟨hdc, hdh⟩
  · rcases he.2 with hel | ⟨hec, heh⟩
    · exact hdiff (.inl hel) (hdl.trans hel.symm) hname
    · exact heh ⟨d, hd.1, hdl, hname⟩
  · rcases he.2 with hel | ⟨hec, heh⟩
    · exact hdh ⟨e, he.1, hel, hname.symm⟩
    · exact hdiff (.inr hec) (hdc.trans hec.symm) hname

end Program

end NodeRules
