import Mathlib.Data.List.GetD
import Mathlib.Data.List.Sort
import Mathlib.Data.String.Basic
import NodeRules.Text.Basic

namespace NodeRules.Text

variable {s t : String} {ss ts : List String}

theorem mem_insertSorted : t ∈ insertSorted s ts ↔ t = s ∨ t ∈ ts := by
  induction ts with
  | nil => simp [insertSorted]
  | cons u ts ih =>
      rw [insertSorted]
      split
      · simp
      · split
        · rename_i he
          simp [he]
        · simp only [List.mem_cons, ih]
          exact or_left_comm

theorem mem_sortedSet : s ∈ sortedSet ss ↔ s ∈ ss := by
  induction ss with
  | nil => simp [sortedSet]
  | cons t ss ih =>
      rw [sortedSet, List.foldr_cons, mem_insertSorted, List.mem_cons]
      exact or_congr_right ih

theorem pairwise_insertSorted (h : ts.Pairwise (· < ·)) : (insertSorted s ts).Pairwise (· < ·) := by
  induction ts with
  | nil => simp [insertSorted]
  | cons t ts ih =>
      obtain ⟨hhead, htail⟩ := List.pairwise_cons.mp h
      rw [insertSorted]
      split
      · rename_i hst
        apply List.Pairwise.cons _ h
        intro u hu
        rcases List.mem_cons.mp hu with rfl | hu
        · exact hst
        · exact lt_trans hst (hhead u hu)
      · split
        · exact h
        · rename_i hst hne
          apply List.Pairwise.cons _ (ih htail)
          intro u hu
          rcases mem_insertSorted.mp hu with rfl | hu
          · exact lt_of_le_of_ne (not_lt.mp hst) (Ne.symm hne)
          · exact hhead u hu

theorem pairwise_sortedSet (ss : List String) : (sortedSet ss).Pairwise (· < ·) := by
  induction ss with
  | nil => exact .nil
  | cons s ss ih => exact pairwise_insertSorted ih

theorem nodup_sortedSet (ss : List String) : (sortedSet ss).Nodup :=
  (pairwise_sortedSet ss).imp fun hlt => ne_of_lt hlt

theorem sortedSet_congr (h : ∀ s, s ∈ ss ↔ s ∈ ts) : sortedSet ss = sortedSet ts := by
  apply (pairwise_sortedSet ss).eq_of_mem_iff (pairwise_sortedSet ts)
  intro s
  rw [mem_sortedSet, mem_sortedSet]
  exact h s

section Table

variable {table : List String} {name : String}

theorem getD_lt (h : table.Pairwise (· < ·)) {i j : Nat} (hij : i < j) (hj : j < table.length) :
    table.getD i "" < table.getD j "" := by
  rw [List.getD_eq_getElem _ _ (hij.trans hj), List.getD_eq_getElem _ _ hj]
  exact List.pairwise_iff_getElem.mp h i j (hij.trans hj) hj hij

theorem indexIn_eq (h : table.Pairwise (· < ·)) {i steps base size : Nat}
    (hi : table.getD i "" = name) (hsteps : size ≤ steps) (hbase : base ≤ i)
    (hsize : i < base + size) (hlength : base + size ≤ table.length) :
    indexIn table name steps base size = i := by
  subst hi
  fun_induction indexIn table (table.getD i "") steps base size with
  | case1 base size => omega
  | case2 steps base size half hhalf =>
      have hone : size / 2 = 0 := hhalf
      omega
  | case3 steps base size half hhalf hlt ih =>
      have hdef : half = size / 2 := rfl
      have hfront : i < base + half := by
        by_contra hge
        rcases (Nat.le_of_not_lt hge).eq_or_lt with heq | hgt
        · exact lt_irrefl _ (heq ▸ hlt)
        · exact lt_asymm hlt (getD_lt h hgt (by omega))
      exact ih (by omega) hbase (by omega) (by omega)
  | case4 steps base size half hhalf hge ih =>
      have hdef : half = size / 2 := rfl
      have hback : base + half ≤ i := by
        by_contra hlt
        exact hge (getD_lt h (Nat.lt_of_not_le hlt) (by omega))
      exact ih (by omega) hback (by omega) (by omega)

/-- A search by halves finds what a sorted table holds, and nothing else. -/
theorem isListed_iff (h : table.Pairwise (· < ·)) : isListed table name = true ↔ name ∈ table := by
  rw [isListed, beq_iff_eq]
  constructor
  · exact List.mem_of_getElem?
  · intro hname
    obtain ⟨i, hi, rfl⟩ := List.mem_iff_getElem.mp hname
    have hindex : indexIn table table[i] table.length 0 table.length = i :=
      indexIn_eq h (List.getD_eq_getElem _ _ hi) le_rfl (Nat.zero_le i) (by omega) (by omega)
    rw [hindex, List.getElem?_eq_getElem hi]

end Table

end NodeRules.Text
