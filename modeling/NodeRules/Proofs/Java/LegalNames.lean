import Mathlib.Data.List.Nodup
import NodeRules.Proofs.Java.Fields

namespace NodeRules

theorem MatchesName.append {s rest : String} (h : MatchesName s)
    (hrest : ∀ c ∈ rest.toList, IsLetterOrDigit c) : MatchesName (s ++ rest) := by
  obtain ⟨c, cs, hs, hc, hcs⟩ := h
  refine ⟨c, cs ++ rest.toList, by simp [hs], hc, ?_⟩
  rw [List.forall_mem_append]
  exact ⟨hcs, hrest⟩

namespace Java

def nodeAccessors : List String :=
  ["getType", "getTypeName", "getFragment", "getData", "getChildCount", "getChild",
    "getChildrenList", "getClass"]

/-- Each of these methods would be the getter of a name that is taken. -/
theorem isTaken_of_accessor {label : String} (h : "get" ++ label ∈ nodeAccessors) :
    IsTaken label := by
  have hget : nodeAccessors = ["Type", "TypeName", "Fragment", "Data", "ChildCount", "Child",
      "ChildrenList", "Class"].map ("get" ++ ·) := by decide
  have htaken : ∀ label ∈ ["Type", "TypeName", "Fragment", "Data", "ChildCount", "Child",
      "ChildrenList", "Class"], IsTaken label := by decide
  rw [hget, List.mem_map] at h
  obtain ⟨other, hother, he⟩ := h
  rw [← (String.append_right_inj "get").mp he]
  exact htaken other hother

theorem matchesName_lower {t : String} (h : MatchesTypeName t) :
    MatchesName (mapFirst Text.lower t) := by
  obtain ⟨c, cs, hcs, hc, hrest⟩ := h
  have hletter : IsLetter c := .inl hc
  have hlower : Text.lower c = [c.toLower] := by rw [Text.lower, if_pos hletter.toNat_lt]
  exact ⟨c.toLower, cs, by simp [mapFirst, hcs, hlower], hletter.recased.1, hrest⟩

theorem matchesName_variableFor {t : String} (h : MatchesTypeName t) :
    MatchesName (variableFor t) := by
  have hnode : "Node".toList.all Scanner.isNameChar = true := by decide
  rw [variableFor]
  split
  · exact (matchesName_lower h).append fun c hc =>
      isLetterOrDigit_iff.mpr (List.all_eq_true.mp hnode c hc)
  · exact matchesName_lower h

section Fields

variable {types : List String}

theorem exists_of_mem_fieldsFor {field : String} (h : field ∈ fieldsFor types) :
    ∃ i t, types[i]? = some t ∧ field = variableFor t ++ mark types i t := by
  rw [fieldsFor_eq, List.mem_mapIdx] at h
  obtain ⟨i, hi, he⟩ := h
  exact ⟨i, types[i], List.getElem?_eq_getElem hi, he.symm⟩

theorem mark_mem_marks {i : Nat} {t : String} (hi : types[i]? = some t) :
    mark types i t ∈ marks types t :=
  (mem_marks_iff (List.mem_of_getElem? hi)).mpr ⟨i, hi, rfl⟩

theorem not_isTaken_label {t a : String} (ht : t ≠ "") (ha : a ∈ marks types t) :
    ¬ IsTaken (stem t ++ a) := by
  by_cases hempty : a = ""
  · rw [hempty, String.append_empty, stem]
    split
    · exact not_isTaken_node ht
    · assumption
  · exact not_isTaken_digits (stem_ne_empty ht) hempty (isDigit_of_mem_marks ha)

theorem fieldsFor_legal (htypes : ∀ t ∈ types, MatchesTypeName t) {field : String}
    (h : field ∈ fieldsFor types) :
    MatchesName field ∧ field ∉ keywords ∧ field ∉ memberNames ∧
      "get" ++ capitalized field ∉ nodeAccessors := by
  obtain ⟨i, t, hi, rfl⟩ := exists_of_mem_fieldsFor h
  have ht := htypes t (List.mem_of_getElem? hi)
  have hmark := mark_mem_marks hi
  have hfree := not_isTaken_label ht.ne_empty hmark
  have hfield : variableFor t ++ mark types i t =
      mapFirst Text.lower (stem t ++ mark types i t) := by
    rw [variableFor_eq ht.ne_empty, mapFirst_append (stem_ne_empty ht.ne_empty)]
  have hwords : variableFor t ++ mark types i t ∉ keywords ++ memberNames := by
    rw [hfield]
    exact hfree
  rw [List.mem_append, not_or] at hwords
  refine ⟨(matchesName_variableFor ht).append ?_, hwords.1, hwords.2, ?_⟩
  · intro c hc
    simp [isLetterOrDigit_iff, Scanner.isNameChar, isDigit_of_mem_marks hmark c hc]
  · rw [capitalized_variableFor ht]
    exact mt isTaken_of_accessor hfree

end Fields

/-- There is one field for each child, in order. It is called after the type of the child, with the
number of the child among those of its type if there are several. Its name can be declared in Java,
and neither the name nor the getter hides what a class of nodes has. -/
theorem fieldsFor_names (ds : List Descriptor) (hds : ∀ d ∈ ds, MatchesTypeName d.typeName) :
    (fieldsFor (ds.map Descriptor.typeName)).length = ds.length ∧
    (∀ (i : Nat) d, ds[i]? = some d → (ds.map Descriptor.typeName).count d.typeName = 1 →
      (fieldsFor (ds.map Descriptor.typeName))[i]? = some (variableFor d.typeName)) ∧
    (∀ (i : Nat) d k, ds[i]? = some d → 1 < (ds.map Descriptor.typeName).count d.typeName →
      ((ds.take (i + 1)).map Descriptor.typeName).count d.typeName = k →
      (fieldsFor (ds.map Descriptor.typeName))[i]? = some (variableFor d.typeName ++ toString k)) ∧
    ∀ field ∈ fieldsFor (ds.map Descriptor.typeName), MatchesName field ∧ field ∉ keywords ∧
      field ∉ memberNames ∧ "get" ++ capitalized field ∉ nodeAccessors := by
  have hfield (i : Nat) (d : Descriptor) (hi : ds[i]? = some d) :
      (fieldsFor (ds.map Descriptor.typeName))[i]? =
        some (variableFor d.typeName ++ mark (ds.map Descriptor.typeName) i d.typeName) := by
    simp [fieldsFor_eq, hi]
  refine ⟨by simp [fieldsFor_eq], ?_, ?_, ?_⟩
  · intro i d hi hone
    rw [hfield i d hi, mark, if_neg (by omega), String.append_empty]
  · intro i d k hi hmany hk
    have hnumber : ((ds.map Descriptor.typeName).take i).count d.typeName + 1 = k := by
      rw [← hk, List.take_add_one, hi, List.map_append, List.count_append, List.map_take]
      simp
    rw [hfield i d hi, mark, if_pos hmany, hnumber]
  · intro field
    exact fieldsFor_legal (by simpa using hds)

/-- Two children whose getters would be `getType`, and one whose field would be a reserved word. -/
def takenChildren : List Descriptor :=
  [.plain "Type" .one, .plain "Class" .optional, .plain "Type" .one]

theorem fieldsFor_names_taken :
    (∀ d ∈ takenChildren, MatchesTypeName d.typeName) ∧
      (fieldsFor (takenChildren.map Descriptor.typeName))[1]? = some "classNode" ∧
      (fieldsFor (takenChildren.map Descriptor.typeName))[2]? = some "typeNode2" ∧
      "get" ++ capitalized "typeNode2" ∉ nodeAccessors := by
  have htypes : ∀ d ∈ takenChildren, MatchesTypeName d.typeName := by decide
  obtain ⟨-, hone, hmany, hlegal⟩ := fieldsFor_names takenChildren htypes
  have hvariable : variableFor "Class" = "classNode" ∧
      variableFor "Type" ++ toString 2 = "typeNode2" := by decide
  have hclass : (fieldsFor (takenChildren.map Descriptor.typeName))[1]? = some "classNode" :=
    hvariable.1 ▸ hone 1 (.plain "Class" .optional) rfl (by decide)
  have htype : (fieldsFor (takenChildren.map Descriptor.typeName))[2]? = some "typeNode2" :=
    hvariable.2 ▸ hmany 2 (.plain "Type" .one) 2 rfl (by decide) (by decide)
  obtain ⟨-, -, -, hgetter⟩ := hlegal "typeNode2" (List.mem_of_getElem? htype)
  exact ⟨htypes, hclass, htype, hgetter⟩

end Java

end NodeRules
