import Mathlib.Data.List.Nodup
import NodeRules.Proofs.Java.Library
import NodeRules.Proofs.Token.Names
import NodeRules.Proofs.Token.Written

namespace NodeRules

theorem MatchesTypeName.ne_empty {t : String} (h : MatchesTypeName t) : t ≠ "" := by
  rintro rfl
  obtain ⟨c, cs, hcs, -⟩ := h
  cases hcs

namespace Java

section Words

theorem mapFirst_append {f : Char → List Char} {s : String} (hs : s ≠ "") (rest : String) :
    mapFirst f (s ++ rest) = mapFirst f s ++ rest := by
  obtain ⟨c, cs, hcs⟩ := List.exists_cons_of_ne_nil (mt String.toList_eq_nil_iff.mp hs)
  rw [← String.toList_inj]
  simp [mapFirst, hcs]

theorem upper_lower {c : Char} (h : IsCapital c) :
    ∃ d, Text.lower c = [d] ∧ Text.upper d = [c] := by
  have hall : ∀ n : Fin 26, ∃ d, Text.lower (Char.ofNat (65 + n)) = [d] ∧
      Text.upper d = [Char.ofNat (65 + n)] := fun n => ⟨Char.ofNat (97 + n), by decide +revert⟩
  have hlow : 65 ≤ c.toNat := h.1
  have hhigh : c.toNat ≤ 90 := h.2
  have hc := hall ⟨c.toNat - 65, by omega⟩
  rwa [Nat.add_sub_cancel' hlow, Char.ofNat_toNat] at hc

theorem capitalized_lower {t : String} (h : MatchesTypeName t) :
    capitalized (mapFirst Text.lower t) = t := by
  obtain ⟨c, cs, hcs, hc, -⟩ := h
  obtain ⟨d, hlower, hupper⟩ := upper_lower hc
  rw [← String.toList_inj, hcs]
  simp [capitalized, mapFirst, hcs, hlower, hupper]

def IsTaken (t : String) : Prop := mapFirst Text.lower t ∈ keywords ++ memberNames

instance (t : String) : Decidable (IsTaken t) :=
  inferInstanceAs (Decidable (mapFirst Text.lower t ∈ keywords ++ memberNames))

theorem not_isTaken_node {t : String} (ht : t ≠ "") : ¬ IsTaken (t ++ "Node") := by
  have hwords : ∀ w ∈ keywords ++ memberNames, ¬ "Node".toList <:+ w.toList := by decide
  intro h
  apply hwords _ h
  rw [mapFirst_append ht, String.toList_append]
  exact List.suffix_append _ _

theorem not_isTaken_digits {s rest : String} (hs : s ≠ "") (hrest : rest ≠ "")
    (hdigits : ∀ c ∈ rest.toList, c.isDigit = true) : ¬ IsTaken (s ++ rest) := by
  have hwords : ∀ w ∈ keywords ++ memberNames, ¬ w.toList.any Char.isDigit := by decide
  intro h
  obtain ⟨c, cs, hcs⟩ := List.exists_cons_of_ne_nil (mt String.toList_eq_nil_iff.mp hrest)
  have hc : c ∈ rest.toList := by rw [hcs]; exact List.mem_cons_self
  apply hwords _ h
  have hany : rest.toList.any Char.isDigit = true := List.any_eq_true.mpr ⟨c, hc, hdigits c hc⟩
  rw [mapFirst_append hs, String.toList_append, List.any_append, hany, Bool.or_true]

/-- What the fields of a type start with, but for the case of the first letter. -/
def stem (t : String) : String := if IsTaken t then t ++ "Node" else t

theorem stem_ne_empty {t : String} (ht : t ≠ "") : stem t ≠ "" := by
  rw [stem]
  split
  · simp
  · exact ht

theorem keywords_sorted : keywords.Pairwise (· < ·) := by decide

theorem memberNames_sorted : memberNames.Pairwise (· < ·) := by decide

theorem variableFor_eq {t : String} (ht : t ≠ "") :
    variableFor t = mapFirst Text.lower (stem t) := by
  have htaken : (Text.isListed keywords (mapFirst Text.lower t) ||
      Text.isListed memberNames (mapFirst Text.lower t)) = decide (IsTaken t) := by
    rw [Bool.eq_iff_iff, Bool.or_eq_true, Text.isListed_iff keywords_sorted,
      Text.isListed_iff memberNames_sorted, ← List.mem_append, decide_eq_true_iff, IsTaken]
  rw [variableFor, stem, htaken]
  by_cases h : IsTaken t
  · simp [h, mapFirst_append ht]
  · simp [h]

theorem capitalized_variableFor {t : String} (h : MatchesTypeName t) (rest : String) :
    capitalized (variableFor t ++ rest) = stem t ++ rest := by
  have hne : mapFirst Text.lower t ≠ "" := by
    intro he
    have hback := capitalized_lower h
    rw [he] at hback
    exact h.ne_empty hback.symm
  rw [variableFor_eq h.ne_empty, stem]
  split
  · rw [mapFirst_append h.ne_empty, String.append_assoc, capitalized, mapFirst_append hne,
      ← capitalized, capitalized_lower h, String.append_assoc]
  · rw [capitalized, mapFirst_append hne, ← capitalized, capitalized_lower h]

end Words

section Occurrences

variable {types : List String} {t : String} {i j k : Nat}

theorem count_take_lt (hij : i < j) (hi : types[i]? = some t) :
    (types.take i).count t < (types.take j).count t := by
  have hnext : types.take (i + 1) = types.take i ++ [t] := by
    rw [List.take_add_one, hi]
    rfl
  calc (types.take i).count t < (types.take (i + 1)).count t := by simp [hnext]
    _ ≤ (types.take j).count t := (List.take_sublist_take_left hij).count_le t

theorem count_take_lt_count (hi : types[i]? = some t) :
    (types.take i).count t < types.count t := by
  obtain ⟨hlt, -⟩ := List.getElem?_eq_some_iff.mp hi
  have h := count_take_lt hlt hi
  rwa [List.take_length] at h

theorem exists_occurrence (h : k < types.count t) :
    ∃ i, types[i]? = some t ∧ (types.take i).count t = k := by
  induction types generalizing k with
  | nil => simp at h
  | cons u types ih =>
      by_cases hu : u = t
      · subst hu
        cases k with
        | zero => exact ⟨0, rfl, rfl⟩
        | succ k =>
            obtain ⟨i, hi, hcount⟩ := ih (k := k) (by simpa using h)
            exact ⟨i + 1, by simpa using hi, by simp [hcount]⟩
      · obtain ⟨i, hi, hcount⟩ := ih (k := k) (by simpa [hu] using h)
        exact ⟨i + 1, by simpa using hi, by simp [hu, hcount]⟩

/-- What stands behind the stem in the field of the `i`-th type. -/
def mark (types : List String) (i : Nat) (t : String) : String :=
  if 1 < types.count t then toString ((types.take i).count t + 1) else ""

def marks (types : List String) (t : String) : List String :=
  if 1 < types.count t then (List.range (types.count t)).map fun k => toString (k + 1) else [""]

theorem mem_marks_iff (ht : t ∈ types) {a : String} :
    a ∈ marks types t ↔ ∃ i, types[i]? = some t ∧ mark types i t = a := by
  by_cases hmany : 1 < types.count t
  · simp only [marks, mark, hmany, if_true, List.mem_map, List.mem_range]
    constructor
    · rintro ⟨k, hk, rfl⟩
      obtain ⟨i, hi, hcount⟩ := exists_occurrence hk
      exact ⟨i, hi, by rw [hcount]⟩
    · rintro ⟨i, hi, rfl⟩
      exact ⟨_, count_take_lt_count hi, rfl⟩
  · simp only [marks, mark, hmany, if_false, List.mem_singleton]
    constructor
    · rintro rfl
      obtain ⟨i, hi⟩ := List.mem_iff_getElem?.mp ht
      exact ⟨i, hi, rfl⟩
    · rintro ⟨i, -, rfl⟩
      rfl

theorem isDigit_of_mem_marks {a : String} (ha : a ∈ marks types t) :
    ∀ c ∈ a.toList, c.isDigit = true := by
  rw [marks] at ha
  split at ha
  · obtain ⟨k, -, rfl⟩ := List.mem_map.mp ha
    rw [Scanner.toList_toString]
    exact fun c hc => Scanner.isDigit_of_mem_toDigits hc
  · rw [List.mem_singleton.mp ha]
    simp

theorem mark_ne (hij : i < j) (hi : types[i]? = some t) (hj : types[j]? = some t) :
    mark types i t ≠ mark types j t := by
  have hlt := count_take_lt hij hi
  have hmany : 1 < types.count t := by
    have := count_take_lt_count hj
    omega
  rw [mark, mark, if_pos hmany, if_pos hmany]
  intro he
  have hnumbers := congrArg (fun s : String => Scanner.decimal s.toList) he
  simp only [Scanner.toList_toString, Scanner.decimal_toDigits] at hnumbers
  omega

theorem fieldsFrom_eq (all earlier types : List String) :
    fieldsFrom all earlier types = types.mapIdx fun i t => variableFor t ++
      if 1 < all.count t then toString (earlier.count t + (types.take i).count t + 1) else "" := by
  induction types generalizing earlier with
  | nil => rfl
  | cons u types ih =>
      rw [fieldsFrom, ih, List.mapIdx_cons]
      congr 1
      · split <;> simp
      · apply List.ext_getElem?
        intro i
        simp only [List.getElem?_mapIdx, List.take_succ_cons, List.count_cons]
        congr 1
        funext t
        split
        · congr 3
          omega
        · rfl

theorem fieldsFor_eq (types : List String) :
    fieldsFor types = types.mapIdx fun i t => variableFor t ++ mark types i t := by
  rw [fieldsFor, fieldsFrom_eq]
  simp [mark]

end Occurrences

section Clashes

variable {types : List String} {t u : String}

/-- The name of `u` goes on behind the stem of `t` with the front of a mark of `t`, and a mark of
`u` completes it. -/
def Clash (types : List String) (t u : String) : Prop :=
  t ≠ u ∧ ∃ front, u = stem t ++ front ∧ ∃ a ∈ marks types u, front ++ a ∈ marks types t

theorem isDigit_front {front a : String} (h : front ++ a ∈ marks types t) :
    ∀ c ∈ front.toList, c.isDigit = true := by
  intro c hc
  apply isDigit_of_mem_marks h
  rw [String.toList_append]
  exact List.mem_append_left _ hc

theorem eq_empty_of_append_node {s front : String} (h : u ++ "Node" = s ++ front)
    (hdigits : ∀ c ∈ front.toList, c.isDigit = true) : front = "" := by
  by_contra hne
  have hlast := congrArg (fun w : String => w.toList.getLast?) h
  have hfront : front.toList ≠ [] := mt String.toList_eq_nil_iff.mp hne
  simp only [String.toList_append, List.getLast?_append_of_ne_nil _ hfront] at hlast
  have he : 'e' ∈ front.toList := List.mem_of_getLast? (by simpa using hlast.symm)
  exact absurd (hdigits 'e' he) (by decide)

theorem Clash.stem_eq (ht : t ≠ "") (h : Clash types t u) : stem u = u := by
  obtain ⟨hne, front, rfl, a, -, hmark⟩ := h
  rw [stem, if_neg]
  by_cases hfront : front = ""
  · subst hfront
    rw [String.append_empty] at hne ⊢
    rw [stem] at hne ⊢
    split
    · exact not_isTaken_node ht
    · rename_i hfree
      simp [hfree] at hne
  · exact not_isTaken_digits (stem_ne_empty ht) hfront (isDigit_front hmark)

theorem clash_of_stem_eq {front a : String} (hne : t ≠ u) (hstem : stem u = stem t ++ front)
    (ha : a ∈ marks types u) (hmark : front ++ a ∈ marks types t) :
    Clash types t u ∨ Clash types u t := by
  by_cases hu : IsTaken u
  · -- The stem of `u` ends in `Node`, so it is that of `t` too, and only `u` can be taken.
    have hnode : stem u = u ++ "Node" := if_pos hu
    rw [hnode] at hstem
    obtain rfl := eq_empty_of_append_node hstem (isDigit_front hmark)
    rw [String.append_empty] at hstem
    rw [String.empty_append] at hmark
    have ht : stem t = t := by
      rw [stem, if_neg]
      intro htaken
      rw [stem, if_pos htaken] at hstem
      exact hne ((String.append_left_inj "Node").mp hstem).symm
    refine .inr ⟨hne.symm, "", ?_, a, hmark, ?_⟩
    · rw [hnode, hstem, ht, String.append_empty]
    · rwa [String.empty_append]
  · have hfree : stem u = u := if_neg hu
    exact .inl ⟨hne, front, hfree ▸ hstem, a, ha, hmark⟩

theorem clash_of_eq {a b : String} (hne : t ≠ u) (ha : a ∈ marks types t) (hb : b ∈ marks types u)
    (h : stem t ++ a = stem u ++ b) : Clash types t u ∨ Clash types u t := by
  have hlists := congrArg String.toList h
  rw [String.toList_append, String.toList_append] at hlists
  rcases List.append_eq_append_iff.mp hlists with ⟨front, hu, ha'⟩ | ⟨front, ht, hb'⟩
  · have hstem : stem u = stem t ++ String.ofList front := by
      rw [← String.toList_inj, hu, String.toList_append, String.toList_ofList]
    refine clash_of_stem_eq hne hstem hb ?_
    have hmark : String.ofList front ++ b = a := by
      rw [← String.toList_inj, ha', String.toList_append, String.toList_ofList]
    rwa [hmark]
  · have hstem : stem t = stem u ++ String.ofList front := by
      rw [← String.toList_inj, ht, String.toList_append, String.toList_ofList]
    refine (clash_of_stem_eq hne.symm hstem ha ?_).symm
    have hmark : String.ofList front ++ a = b := by
      rw [← String.toList_inj, hb', String.toList_append, String.toList_ofList]
    rwa [hmark]

def labels (types : List String) : List String := types.mapIdx fun i t => stem t ++ mark types i t

theorem nodup_labels_iff (htypes : ∀ t ∈ types, t ≠ "") :
    (labels types).Nodup ↔ ∀ t ∈ types, ∀ u ∈ types, ¬ Clash types t u := by
  constructor
  · intro hnodup t ht u hu hclash
    have hstem := hclash.stem_eq (htypes t ht)
    obtain ⟨hne, front, he, a, ha, hmark⟩ := hclash
    obtain ⟨i, hi, hmi⟩ := (mem_marks_iff ht).mp hmark
    obtain ⟨j, hj, hmj⟩ := (mem_marks_iff hu).mp ha
    have hlt : i < (labels types).length := by
      rw [labels, List.length_mapIdx]
      exact (List.getElem?_eq_some_iff.mp hi).1
    have hij : i = j := by
      apply (List.getElem?_inj hlt hnodup).mp
      simp only [labels, List.getElem?_mapIdx, hi, hj, Option.map_some, hmi, hmj]
      rw [hstem, he, String.append_assoc]
    rw [hij, hj] at hi
    exact hne (Option.some.inj hi).symm
  · intro hclash
    rw [List.nodup_iff_getElem?_ne_getElem?]
    intro i j hij hj he
    rw [labels, List.length_mapIdx] at hj
    have hi := List.getElem?_eq_getElem (hij.trans hj)
    have hj := List.getElem?_eq_getElem hj
    simp only [labels, List.getElem?_mapIdx, hi, hj, Option.map_some, Option.some.injEq] at he
    have hmem {k : Nat} {t : String} (hk : types[k]? = some t) : t ∈ types :=
      List.mem_of_getElem? hk
    by_cases hne : types[i] = types[j]
    · rw [← hne] at hj he
      exact mark_ne hij hi hj ((String.append_right_inj _).mp he)
    · have ha := (mem_marks_iff (hmem hi)).mpr ⟨i, hi, rfl⟩
      have hb := (mem_marks_iff (hmem hj)).mpr ⟨j, hj, rfl⟩
      rcases clash_of_eq hne ha hb he with h | h
      · exact hclash _ (hmem hi) _ (hmem hj) h
      · exact hclash _ (hmem hj) _ (hmem hi) h

end Clashes

theorem Slot.map_field_ofDescriptors (ds : List Descriptor) :
    (Slot.ofDescriptors ds).map Slot.field = fieldsFor (ds.map Descriptor.typeName) := by
  have hlength : (fieldsFor (ds.map Descriptor.typeName)).length ≤ ds.length := by
    rw [fieldsFor, length_fieldsFrom, List.length_map]
  have hsecond := List.map_snd_zip hlength
  rw [List.zip_eq_zipWith, List.map_zipWith] at hsecond
  rw [ofDescriptors, List.map_zipWith]
  exact hsecond

section Names

variable {types : List String}

theorem map_capitalized_fieldsFor (htypes : ∀ t ∈ types, MatchesTypeName t) :
    (fieldsFor types).map capitalized = labels types := by
  apply List.ext_getElem?
  intro i
  rw [fieldsFor_eq, labels, List.getElem?_map, List.getElem?_mapIdx, List.getElem?_mapIdx]
  cases hi : types[i]? with
  | none => rfl
  | some t =>
      exact congrArg some (capitalized_variableFor (htypes t (List.mem_of_getElem? hi)) _)

theorem map_lower_labels (htypes : ∀ t ∈ types, MatchesTypeName t) :
    (labels types).map (mapFirst Text.lower) = fieldsFor types := by
  apply List.ext_getElem?
  intro i
  rw [fieldsFor_eq, labels, List.getElem?_map, List.getElem?_mapIdx, List.getElem?_mapIdx]
  cases hi : types[i]? with
  | none => rfl
  | some t =>
      have ht := (htypes t (List.mem_of_getElem? hi)).ne_empty
      simp [variableFor_eq ht, mapFirst_append (stem_ne_empty ht)]

theorem nodup_fieldsFor_iff (htypes : ∀ t ∈ types, MatchesTypeName t) :
    (fieldsFor types).Nodup ↔ (labels types).Nodup := by
  constructor
  · intro h
    rw [← map_lower_labels htypes] at h
    exact h.of_map
  · intro h
    rw [← map_capitalized_fieldsFor htypes] at h
    exact h.of_map

theorem nodup_getters_iff (htypes : ∀ t ∈ types, MatchesTypeName t) :
    ((fieldsFor types).map fun field => "get" ++ capitalized field).Nodup ↔
      (labels types).Nodup := by
  have hget : Function.Injective fun label : String => "get" ++ label :=
    fun _ _ h => (String.append_right_inj "get").mp h
  rw [← map_capitalized_fieldsFor htypes]
  conv_rhs => rw [← List.nodup_map_iff hget, List.map_map]
  rfl

end Names

/-- The fields for children, and the getters of the fields, have different names exactly when no two
of the types clash. -/
theorem Slot.nodup_fields_iff (ds : List Descriptor)
    (hds : ∀ d ∈ ds, MatchesTypeName d.typeName) :
    (((ofDescriptors ds).map field).Nodup ↔
      ∀ d ∈ ds, ∀ e ∈ ds, ¬ Clash (ds.map Descriptor.typeName) d.typeName e.typeName) ∧
    (((ofDescriptors ds).map getterName).Nodup ↔
      ∀ d ∈ ds, ∀ e ∈ ds, ¬ Clash (ds.map Descriptor.typeName) d.typeName e.typeName) := by
  have htypes : ∀ t ∈ ds.map Descriptor.typeName, MatchesTypeName t := by
    simpa using hds
  have hgetters : (ofDescriptors ds).map getterName =
      (fieldsFor (ds.map Descriptor.typeName)).map fun field => "get" ++ capitalized field := by
    rw [← map_field_ofDescriptors, List.map_map]
    rfl
  have hlabels := nodup_labels_iff fun t ht => (htypes t ht).ne_empty
  simp only [List.forall_mem_map] at hlabels
  rw [hgetters, map_field_ofDescriptors, nodup_fieldsFor_iff htypes, nodup_getters_iff htypes]
  exact ⟨hlabels, hlabels⟩

/-- `Sum1` is a type, and what the first of two sums is called. -/
theorem Slot.nodup_fields_iff_sums :
    Clash ["Sum1", "Sum", "Sum"] "Sum" "Sum1" ∧
      ¬ ((ofDescriptors
        [.plain "Sum1" .one, .plain "Sum" .one, .plain "Sum" .optional]).map getterName).Nodup := by
  have hclash : Clash ["Sum1", "Sum", "Sum"] "Sum" "Sum1" :=
    ⟨by decide, "1", by decide, "", by decide, by decide⟩
  refine ⟨hclash, fun hnodup => ?_⟩
  have hiff := nodup_fields_iff [.plain "Sum1" .one, .plain "Sum" .one, .plain "Sum" .optional]
    (by decide)
  exact hiff.2.mp hnodup (.plain "Sum" .one) (by decide) (.plain "Sum1" .one) (by decide) hclash

/-- `return` is a word of Java, so the field of a `Return` is called as that of a `ReturnNode`. -/
theorem Slot.not_nodup_fields_returns :
    (∀ d ∈ [Descriptor.plain "Return" .one, .plain "ReturnNode" .one],
      MatchesTypeName d.typeName) ∧
    (ofDescriptors [.plain "Return" .one, .plain "ReturnNode" .one]).map field =
      ["returnNode", "returnNode"] ∧
    (ofDescriptors [.plain "Return" .one, .plain "ReturnNode" .one]).map getterName =
      ["getReturnNode", "getReturnNode"] := by
  decide

end Java

end NodeRules
