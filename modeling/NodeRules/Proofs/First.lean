import Mathlib.Data.List.Nodup

namespace NodeRules

/-- The first member of a list with a property, which may depend on the members in front of it. -/
def First {α : Type} (P : List α → α → Prop) (xs : List α) (x : α) : Prop :=
  ∃ before after, xs = before ++ x :: after ∧ P before x ∧
    ∀ front y back, before = front ++ y :: back → ¬ P front y

namespace First

variable {α : Type} {P : List α → α → Prop} {xs : List α} {x y : α}

theorem head {rest : List α} (h : P [] x) : First P (x :: rest) x :=
  ⟨[], rest, rfl, h, by simp⟩

theorem cons (hx : ¬ P [] x) (h : First (fun before => P (x :: before)) xs y) :
    First P (x :: xs) y := by
  obtain ⟨before, after, rfl, hy, hbefore⟩ := h
  refine ⟨x :: before, after, rfl, hy, ?_⟩
  intro front z back he
  cases front with
  | nil =>
      obtain ⟨rfl, -⟩ := List.cons.inj he
      exact hx
  | cons w front =>
      obtain ⟨rfl, htail⟩ := List.cons.inj he
      exact hbefore front z back htail

theorem unique (hx : First P xs x) (hy : First P xs y) : x = y := by
  obtain ⟨before, after, rfl, hpx, hbefore⟩ := hx
  obtain ⟨before', after', he, hpy, hbefore'⟩ := hy
  -- If one of the two stood in front of the other, the other would not be first.
  rcases List.append_eq_append_iff.mp he with ⟨mid, hb, ha⟩ | ⟨mid, hb, ha⟩
  · cases mid with
    | nil => exact (List.cons.inj ha).1
    | cons z mid =>
        obtain ⟨rfl, -⟩ := List.cons.inj ha
        exact absurd hpx (hbefore' _ _ _ hb)
  · cases mid with
    | nil => exact (List.cons.inj ha).1.symm
    | cons z mid =>
        obtain ⟨rfl, -⟩ := List.cons.inj ha
        exact absurd hpy (hbefore _ _ _ hb)

theorem holds {P : α → Prop} (h : First (fun _ => P) xs x) : x ∈ xs ∧ P x := by
  obtain ⟨before, after, rfl, hx, -⟩ := h
  exact ⟨by simp, hx⟩

theorem iff_forall_not {P : α → Prop} : First (fun _ => P) xs x ↔
    ∃ before after, xs = before ++ x :: after ∧ P x ∧ ∀ y ∈ before, ¬ P y := by
  constructor
  · rintro ⟨before, after, he, hx, hbefore⟩
    refine ⟨before, after, he, hx, fun y hy => ?_⟩
    obtain ⟨front, back, hsplit⟩ := List.append_of_mem hy
    exact hbefore front y back hsplit
  · rintro ⟨before, after, he, hx, hbefore⟩
    refine ⟨before, after, he, hx, ?_⟩
    rintro front y back rfl
    exact hbefore y (by simp)

theorem map {β : Type} (f : β → α) (P : α → Prop) {bs : List β} {b : β}
    (h : First (fun _ b => P (f b)) bs b) : First (fun _ => P) (bs.map f) (f b) := by
  obtain ⟨before, after, rfl, hb, hbefore⟩ := iff_forall_not.mp h
  refine iff_forall_not.mpr ⟨before.map f, after.map f, by simp, hb, ?_⟩
  simpa using hbefore

theorem exists_split (h : First P xs x) :
    ∃ before after, xs = before ++ x :: after ∧ P before x := by
  obtain ⟨before, after, he, hx, -⟩ := h
  exact ⟨before, after, he, hx⟩

end First

section Search

variable {α β : Type} {xs : List α}

theorem find?_eq_some_iff_first {p : α → Bool} {x : α} :
    xs.find? p = some x ↔ First (fun _ x => p x = true) xs x := by
  rw [List.find?_eq_some_iff_append, First.iff_forall_not]
  constructor
  · rintro ⟨hx, before, after, he, hbefore⟩
    exact ⟨before, after, he, hx, fun y hy => by simpa using hbefore y hy⟩
  · rintro ⟨before, after, he, hx, hbefore⟩
    exact ⟨hx, before, after, he, fun y hy => by simpa using hbefore y hy⟩

theorem exists_first {p : α → Bool} (h : ∃ x ∈ xs, p x = true) :
    ∃ x, First (fun _ x => p x = true) xs x := by
  obtain ⟨x, hx⟩ := Option.isSome_iff_exists.mp (List.find?_isSome.mpr h)
  exact ⟨x, find?_eq_some_iff_first.mp hx⟩

theorem findSome?_eq_some_iff_first {f : α → Option β} {b : β} :
    xs.findSome? f = some b ↔
      ∃ x, First (fun _ x => ∃ b, f x = some b) xs x ∧ f x = some b := by
  simp only [List.findSome?_eq_some_iff, First.iff_forall_not]
  constructor
  · rintro ⟨before, x, after, he, hx, hbefore⟩
    refine ⟨x, ⟨before, after, he, ⟨b, hx⟩, ?_⟩, hx⟩
    rintro y hy ⟨c, hc⟩
    rw [hbefore y hy] at hc
    cases hc
  · rintro ⟨x, ⟨before, after, he, -, hbefore⟩, hx⟩
    refine ⟨before, x, after, he, hx, fun y hy => ?_⟩
    exact Option.eq_none_iff_forall_ne_some.mpr fun c hc => hbefore y hy ⟨c, hc⟩

theorem find?_key_eq_some_iff [DecidableEq β] {key : α → β} (h : (xs.map key).Nodup) {b : β}
    {x : α} : xs.find? (fun x => key x == b) = some x ↔ x ∈ xs ∧ key x = b := by
  constructor
  · intro hfind
    exact ⟨List.mem_of_find?_eq_some hfind, by simpa using List.find?_some hfind⟩
  · rintro ⟨hx, hkey⟩
    cases hfind : xs.find? fun x => key x == b with
    | none => simpa [hkey] using List.find?_eq_none.mp hfind x hx
    | some y =>
        have hy : key y = key x := by simpa [hkey] using List.find?_some hfind
        rw [List.inj_on_of_nodup_map h (List.mem_of_find?_eq_some hfind) hx hy]

end Search

end NodeRules
