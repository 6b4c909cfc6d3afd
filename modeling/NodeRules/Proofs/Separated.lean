import Mathlib.Data.List.Basic

namespace NodeRules

variable {α : Type}

theorem intersperse_cons {sep x : α} {xs : List α} (hxs : xs ≠ []) :
    (x :: xs).intersperse sep = x :: sep :: xs.intersperse sep := by
  obtain ⟨y, ys, rfl⟩ := List.exists_cons_of_ne_nil hxs
  exact List.intersperse_cons_cons

theorem intersperse_eq_flatMap (sep x : α) (xs : List α) :
    (x :: xs).intersperse sep = x :: xs.flatMap fun y => [sep, y] := by
  induction xs generalizing x with
  | nil => rfl
  | cons y ys ih => rw [List.intersperse_cons_cons, ih, List.flatMap_cons]; rfl

theorem mem_intersperse {sep x : α} {xs : List α} (h : x ∈ xs) : x ∈ xs.intersperse sep := by
  cases xs with
  | nil => cases h
  | cons y ys =>
      rw [intersperse_eq_flatMap]
      rcases List.mem_cons.mp h with rfl | h
      · exact List.mem_cons_self
      · exact List.mem_cons_of_mem _ (List.mem_flatMap.mpr ⟨x, h, by simp⟩)

theorem mem_of_mem_intersperse {sep x : α} {xs : List α} (h : x ∈ xs.intersperse sep) :
    x ∈ xs ∨ x = sep := by
  cases xs with
  | nil => cases h
  | cons y ys =>
      simp only [intersperse_eq_flatMap, List.mem_cons, List.mem_flatMap, List.not_mem_nil,
        or_false] at h
      rcases h with rfl | ⟨z, hz, rfl | rfl⟩
      · exact .inl List.mem_cons_self
      · exact .inr rfl
      · exact .inl (List.mem_cons_of_mem _ hz)

theorem intercalate_cons (sep first : List α) (more : List (List α)) :
    sep.intercalate (first :: more) = first ++ more.flatMap fun a => sep ++ a := by
  induction more generalizing first with
  | nil => rw [List.intercalate_singleton, List.flatMap_nil, List.append_nil]
  | cons second more ih =>
      rw [List.intercalate_cons_cons, ih second, List.flatMap_cons, List.append_assoc,
        List.append_assoc]

theorem intercalate_append {sep : List α} {xs ys : List (List α)} (hxs : xs ≠ []) (hys : ys ≠ []) :
    sep.intercalate (xs ++ ys) = sep.intercalate xs ++ sep ++ sep.intercalate ys := by
  obtain ⟨x, xs, rfl⟩ := List.exists_cons_of_ne_nil hxs
  obtain ⟨y, ys, rfl⟩ := List.exists_cons_of_ne_nil hys
  simp [intercalate_cons]

theorem intercalate_append_cons (sep : List α) (members : List (List α)) (last : List α)
    (more : List (List α)) :
    sep.intercalate (members ++ last :: more) =
      (members.flatMap fun a => a ++ sep) ++ sep.intercalate (last :: more) := by
  induction members with
  | nil => rfl
  | cons a members ih =>
      rw [List.cons_append, List.intercalate_cons_of_ne_nil (by simp), ih, List.flatMap_cons]
      simp only [List.append_assoc]

end NodeRules
