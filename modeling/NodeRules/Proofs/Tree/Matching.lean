import Mathlib.Data.List.Forall2
import NodeRules.Tree.Node

namespace NodeRules

def Multiplicity.Admits : Multiplicity → Nat → Prop
  | one, n => n = 1
  | optional, n => n ≤ 1
  | list, _ => True

namespace Tree

/-- Nodes that a descriptor can take together: all of its group, and as many as it admits. -/
structure Fills (d : Descriptor) (piece : List Node) : Prop where
  group : ∀ n ∈ piece, d.typeName ∈ n.type.groups
  admits : d.multiplicity.Admits piece.length

/-- The nodes in their order, cut into one piece for each descriptor. -/
def CanCut (ds : List Descriptor) (ns : List Node) : Prop :=
  ∃ pieces : List (List Node), pieces.flatten = ns ∧ List.Forall₂ Fills ds pieces

def tries (d : Descriptor) (ns : List Node) : List Nat :=
  counts d.multiplicity (ns.takeWhile (·.belongsTo d.typeName)).length

/-- While it is decided whether nodes fit, the same is asked for the descriptors and nodes that are
left. -/
inductive Asks : List Descriptor → List Node → List Descriptor → List Node → Prop
  | now (ds : List Descriptor) (ns : List Node) : Asks ds ns ds ns
  | later {d : Descriptor} {ds ds' : List Descriptor} {ns ns' : List Node} {taken : Nat}
      (htaken : taken ∈ tries d ns) (h : Asks ds (ns.drop taken) ds' ns') :
      Asks (d :: ds) ns ds' ns'

variable {d : Descriptor} {ds : List Descriptor} {ns : List Node}

theorem mem_counts_iff {m : Multiplicity} {fitting taken : Nat} :
    taken ∈ counts m fitting ↔ m.Admits taken ∧ taken ≤ fitting := by
  cases m with
  | one =>
      rw [counts, Multiplicity.Admits]
      split <;> simp <;> omega
  | optional =>
      rw [counts, Multiplicity.Admits]
      split <;> simp <;> omega
  | list =>
      simp only [counts, Multiplicity.Admits, List.mem_reverse, List.mem_range, true_and]
      omega

theorem le_length_takeWhile_iff {α : Type} {p : α → Bool} {xs : List α} {n : Nat} :
    n ≤ (xs.takeWhile p).length ↔ n ≤ xs.length ∧ ∀ x ∈ xs.take n, p x = true := by
  induction xs generalizing n with
  | nil => simp
  | cons x xs ih =>
      cases n with
      | zero => simp
      | succ n =>
          by_cases hx : p x = true
          · simp [hx, ih]
          · simp [hx]

theorem mem_tries_iff {taken : Nat} :
    taken ∈ tries d ns ↔ taken ≤ ns.length ∧ Fills d (ns.take taken) := by
  rw [tries, mem_counts_iff, le_length_takeWhile_iff]
  constructor
  · rintro ⟨hadmits, hle, hgroup⟩
    refine ⟨hle, fun n hn => ?_, ?_⟩
    · simpa [Node.belongsTo, NodeType.belongsTo] using hgroup n hn
    · rwa [List.length_take_of_le hle]
  · rintro ⟨hle, hgroup, hadmits⟩
    refine ⟨?_, hle, fun n hn => ?_⟩
    · rwa [List.length_take_of_le hle] at hadmits
    · simpa [Node.belongsTo, NodeType.belongsTo] using hgroup n hn

theorem fits_cons : fits (d :: ds) ns = true ↔ ∃ taken ∈ tries d ns, fits ds (ns.drop taken) := by
  simp [fits, tries]

theorem fits_iff_asks : fits ds ns = true ↔ Asks ds ns [] [] := by
  induction ds generalizing ns with
  | nil =>
      rw [fits, List.isEmpty_iff]
      constructor
      · rintro rfl
        exact .now [] []
      · intro h
        cases h
        rfl
  | cons d ds ih =>
      rw [fits_cons]
      constructor
      · rintro ⟨taken, htaken, hfits⟩
        exact .later htaken (ih.mp hfits)
      · intro h
        cases h with
        | later htaken h => exact ⟨_, htaken, ih.mpr h⟩

theorem Asks.canCut {ds' : List Descriptor} {ns' : List Node} (h : Asks ds ns ds' ns')
    (hrest : CanCut ds' ns') : CanCut ds ns := by
  induction h with
  | now => exact hrest
  | @later d ds ds' ns ns' taken htaken _ ih =>
      obtain ⟨pieces, hflat, hfills⟩ := ih hrest
      refine ⟨ns.take taken :: pieces, ?_, .cons (mem_tries_iff.mp htaken).2 hfills⟩
      rw [List.flatten_cons, hflat, List.take_append_drop]

theorem asks_of_fills {pieces : List (List Node)} (h : List.Forall₂ Fills ds pieces) :
    Asks ds pieces.flatten [] [] := by
  induction h with
  | nil => exact .now [] []
  | @cons d piece ds pieces hfills _ ih =>
      -- The whole piece is tried: the search stops only behind the last node of the group.
      have htaken : piece.length ∈ tries d (piece :: pieces).flatten := by
        rw [mem_tries_iff, List.flatten_cons, List.take_left]
        exact ⟨by simp, hfills⟩
      refine .later htaken ?_
      rwa [List.flatten_cons, List.drop_left]

/-- Nodes fit exactly when they can be cut into one piece for each descriptor. To find out, the
search never gives a descriptor more nodes than there are left. -/
theorem fits_iff_canCut (ds : List Descriptor) (ns : List Node) :
    (fits ds ns = true ↔ CanCut ds ns) ∧
    ∀ d ds' ns', Asks ds ns (d :: ds') ns' →
      ∀ taken ∈ counts d.multiplicity (ns'.takeWhile (·.belongsTo d.typeName)).length,
        taken ≤ ns'.length := by
  refine ⟨?_, fun d ds' ns' _ taken htaken => (mem_tries_iff.mp htaken).1⟩
  rw [fits_iff_asks]
  constructor
  · intro h
    exact h.canCut ⟨[], rfl, .nil⟩
  · rintro ⟨pieces, rfl, hfills⟩
    exact asks_of_fills hfills

def identifier : Node := ⟨⟨"Name", [], ["Name", "Expr"]⟩, none, "", []⟩

/-- The list takes both nodes at first, and has to give one back. -/
theorem fits_iff_canCut_givesBack :
    fits [.plain "Expr" .list, .plain "Name" .one] [identifier, identifier] = true ∧
      Asks [.plain "Expr" .list, .plain "Name" .one] [identifier, identifier]
        [.plain "Name" .one] [identifier] ∧
      ∀ taken ∈ counts .one 1, taken ≤ 1 := by
  obtain ⟨hiff, hbound⟩ :=
    fits_iff_canCut [.plain "Expr" .list, .plain "Name" .one] [identifier, identifier]
  have hasks : Asks [.plain "Expr" .list, .plain "Name" .one] [identifier, identifier]
      [.plain "Name" .one] [identifier] := by
    have htaken : 1 ∈ tries (.plain "Expr" .list) [identifier, identifier] := by decide
    exact .later htaken (.now _ _)
  refine ⟨hiff.mpr ⟨[[identifier], [identifier]], rfl, ?_⟩, hasks, hbound _ _ _ hasks⟩
  refine .cons ⟨?_, trivial⟩ (.cons ⟨?_, rfl⟩ .nil)
  · intro n hn
    obtain rfl := List.mem_singleton.mp hn
    decide
  · intro n hn
    obtain rfl := List.mem_singleton.mp hn
    decide

end Tree

end NodeRules
