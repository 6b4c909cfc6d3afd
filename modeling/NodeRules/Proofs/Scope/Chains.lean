import Mathlib.Logic.Relation
import NodeRules.Proofs.Scope.Bases

namespace NodeRules

/-- The ancestors of a name along `next`, the root first. -/
inductive Chain (next : String → Option String) : String → List String → Prop
  | root {name : String} (hnext : next name = none) : Chain next name []
  | step {name base : String} {chain : List String} (hnext : next name = some base)
      (hchain : Chain next base chain) : Chain next name (chain ++ [base])

/-- The walk from `name` along `next` never ends. -/
def Endless (next : String → Option String) (name : String) : Prop :=
  ∃ walk : Nat → String, walk 0 = name ∧ ∀ i, next (walk i) = some (walk (i + 1))

/-- The names that a walk along `next` visits. At its end it stays. -/
def walkFrom (next : String → Option String) (name : String) : Nat → String
  | 0 => name
  | i + 1 => (next (walkFrom next name i)).getD (walkFrom next name i)

namespace Chain

variable {next : String → Option String} {name : String} {chain : List String}

theorem unique {other : List String} (h : Chain next name chain) (h' : Chain next name other) :
    chain = other := by
  induction h generalizing other with
  | root hnext =>
      cases h' with
      | root => rfl
      | step hnext' => simp [hnext] at hnext'
  | step hnext _ ih =>
      cases h' with
      | root hnext' => simp [hnext] at hnext'
      | step hnext' hchain' =>
          rw [hnext] at hnext'
          cases hnext'
          rw [ih hchain']

theorem eq_nil (h : Chain next name chain) (hnext : next name = none) : chain = [] :=
  h.unique (.root hnext)

theorem shorter (h : Chain next name chain) {x : String} (hx : x ∈ chain) :
    ∃ front, Chain next x front ∧ front.length < chain.length := by
  induction h with
  | root => simp at hx
  | step hnext hchain ih =>
      rcases List.mem_append.mp hx with hx | hx
      · obtain ⟨front, hf, hlt⟩ := ih hx
        exact ⟨front, hf, by rw [List.length_append]; omega⟩
      · obtain rfl := List.mem_singleton.mp hx
        exact ⟨_, hchain, by simp⟩

theorem not_mem (h : Chain next name chain) : name ∉ chain := by
  intro hmem
  obtain ⟨front, hf, hlt⟩ := h.shorter hmem
  rw [h.unique hf] at hlt
  exact Nat.lt_irrefl _ hlt

theorem nodup (h : Chain next name chain) : chain.Nodup := by
  induction h with
  | root => exact List.nodup_nil
  | step _ hchain ih =>
      rw [List.nodup_append]
      refine ⟨ih, by simp, ?_⟩
      intro x hx y hy
      rw [List.mem_singleton.mp hy]
      exact fun he => hchain.not_mem (he ▸ hx)

theorem exists_next (h : Chain next name chain) {x : String} (hx : x ∈ chain) :
    ∃ y, next y = some x := by
  induction h with
  | root => simp at hx
  | step hnext _ ih =>
      rcases List.mem_append.mp hx with hx | hx
      · exact ih hx
      · exact ⟨_, by rw [List.mem_singleton.mp hx]; exact hnext⟩

theorem cases_next (h : Chain next name chain) :
    (next name = none ∧ chain = []) ∨
      ∃ base front, next name = some base ∧ chain = front ++ [base] ∧ Chain next base front := by
  cases h with
  | root hnext => exact .inl ⟨hnext, rfl⟩
  | step hnext hchain => exact .inr ⟨_, _, hnext, rfl, hchain⟩

theorem congr {next' : String → Option String} (h : Chain next name chain)
    (hagree : ∀ x ∈ name :: chain, next x = next' x) : Chain next' name chain := by
  induction h with
  | root hnext => exact .root ((hagree _ List.mem_cons_self).symm.trans hnext)
  | @step name base chain hnext hchain ih =>
      refine .step ((hagree name List.mem_cons_self).symm.trans hnext) (ih ?_)
      intro x hx
      apply hagree
      rcases List.mem_cons.mp hx with rfl | hx
      · simp
      · simp [hx]

theorem agree {next' : String → Option String} (h : Chain next name chain)
    (h' : Chain next' name chain) : ∀ x ∈ name :: chain, next x = next' x := by
  induction h with
  | @root name hnext =>
      intro x hx
      obtain rfl := List.mem_singleton.mp hx
      obtain ⟨hnext', -⟩ | ⟨base, front, -, he, -⟩ := h'.cases_next
      · rw [hnext, hnext']
      · simp at he
  | @step name base chain hnext hchain ih =>
      obtain ⟨-, he⟩ | ⟨base', front, hnext', he, hfront⟩ := h'.cases_next
      · simp at he
      obtain ⟨rfl, hbase⟩ := List.append_inj' he rfl
      obtain rfl := List.cons.inj hbase |>.1
      intro x hx
      rcases List.mem_cons.mp hx with rfl | hx
      · rw [hnext, hnext']
      · refine ih hfront x ?_
        rcases List.mem_append.mp hx with hx | hx
        · exact List.mem_cons_of_mem _ hx
        · obtain rfl := List.mem_singleton.mp hx
          exact List.mem_cons_self

theorem eq_iff {next' : String → Option String} {chain' : List String}
    (h : Chain next name chain) (h' : Chain next' name chain') :
    chain' = chain ↔ ∀ x ∈ name :: chain, next' x = next x := by
  constructor
  · rintro rfl
    exact h'.agree h
  · intro hagree
    exact h'.unique (h.congr fun x hx => (hagree x hx).symm)

theorem mem_of_transGen (h : Chain next name chain) {x : String}
    (hwalk : Relation.TransGen (fun a b => next a = some b) name x) : x ∈ chain := by
  induction h generalizing x with
  | root hnext =>
      obtain ⟨b, hb, -⟩ := Relation.TransGen.head'_iff.mp hwalk
      rw [hnext] at hb
      cases hb
  | step hnext _ ih =>
      obtain ⟨b, hb, hrest⟩ := Relation.TransGen.head'_iff.mp hwalk
      rw [hnext] at hb
      cases hb
      rcases Relation.reflTransGen_iff_eq_or_transGen.mp hrest with rfl | hrest
      · simp
      · exact List.mem_append_left _ (ih hrest)

theorem not_endless (h : Chain next name chain) : ¬ Endless next name := by
  rintro ⟨walk, rfl, hwalk⟩
  generalize hstart : walk 0 = name at h
  induction h generalizing walk with
  | root hnext =>
      have := hwalk 0
      rw [hstart, hnext] at this
      cases this
  | step hnext _ ih =>
      have hfirst := hwalk 0
      rw [hstart, hnext] at hfirst
      exact ih (fun i => walk (i + 1)) (fun i => hwalk (i + 1)) (Option.some.inj hfirst).symm

theorem exists_of_not_endless (h : ¬ Endless next name) : ∃ chain, Chain next name chain := by
  by_contra hnone
  -- Without a chain there is a next name, which has no chain either.
  have hstep (x : String) (hx : ¬ ∃ chain, Chain next x chain) :
      ∃ y, next x = some y ∧ ¬ ∃ chain, Chain next y chain := by
    cases hn : next x with
    | none => exact absurd ⟨[], .root hn⟩ hx
    | some y =>
        refine ⟨y, rfl, ?_⟩
        rintro ⟨chain, hc⟩
        exact hx ⟨_, .step hn hc⟩
  have hwalk (i : Nat) : ¬ ∃ chain, Chain next (walkFrom next name i) chain := by
    induction i with
    | zero => exact hnone
    | succ i ih =>
        obtain ⟨y, hy, hchain⟩ := hstep _ ih
        simpa [walkFrom, hy] using hchain
  refine h ⟨walkFrom next name, rfl, fun i => ?_⟩
  obtain ⟨y, hy, -⟩ := hstep _ (hwalk i)
  simp [walkFrom, hy]

end Chain

namespace NameTable

def firstBase (bases : NameTable) (name : String) : Option String := (bases.get name).head?

def Known (bases known : NameTable) : Prop :=
  ∀ name chain, known.lookup name = some chain → Chain bases.firstBase name chain

variable {bases known : NameTable}

theorem climb_chain (hknown : Known bases known) {bound : Nat} {name : String}
    {chain : List String} (h : climb bases known bound name = some chain) :
    Chain bases.firstBase name chain := by
  fun_induction climb bases known bound name generalizing chain with
  | case1 bound name hb =>
      cases h
      exact .root hb
  | case2 bound name base hb front hl =>
      cases h
      exact .step hb (hknown base front hl)
  | case3 => cases h
  | case4 name base hb hl bound ih =>
      obtain ⟨front, hf, rfl⟩ := Option.map_eq_some_iff.mp h
      exact .step hb (ih hf)

/-- The walk gives up only where a chain would be longer than its bound. -/
theorem lt_length_of_climb {bound : Nat} {name : String} {chain : List String}
    (h : climb bases known bound name = none) (hchain : Chain bases.firstBase name chain) :
    bound < chain.length := by
  induction hchain generalizing bound with
  | root hb =>
      rw [climb] at h
      simp only [firstBase] at hb
      simp [hb] at h
  | step hb _ ih =>
      rw [climb] at h
      simp only [firstBase] at hb
      rw [hb] at h
      dsimp only at h
      split at h
      · cases h
      · cases bound with
        | zero => simp
        | succ bound =>
            have hlt := ih (Option.map_eq_none_iff.mp h)
            rw [List.length_append, List.length_singleton]
            omega

theorem Known.set (hknown : Known bases known) {name : String} {chain : List String}
    (h : Chain bases.firstBase name chain) : Known bases (known.set name chain) := by
  intro other front hl
  rw [lookup_set] at hl
  split at hl
  · rename_i he
    cases hl
    rwa [he]
  · exact hknown other front hl

/-- Either the rule has a chain, which is known behind it, or its walk is endless. -/
theorem addChains_cons_cases {bound : Nat} (rule : Rule) (rules : List Rule)
    (hknown : Known bases known)
    (hbound : ∀ name chain, Chain bases.firstBase name chain → chain.length ≤ bound) :
    (Endless bases.firstBase rule.name ∧
      addChains bases bound known (rule :: rules) = .error (.cyclicHierarchy rule.name)) ∨
    (¬ Endless bases.firstBase rule.name ∧ ∃ known', Known bases known' ∧
      addChains bases bound known (rule :: rules) = addChains bases bound known' rules ∧
      ∀ name, (known'.lookup name).isSome ↔ (known.lookup name).isSome ∨ rule.name = name) := by
  cases hl : known.lookup rule.name with
  | some chain =>
      refine .inr ⟨(hknown _ _ hl).not_endless, known, hknown, by simp [addChains, hl], ?_⟩
      intro name
      constructor
      · exact .inl
      · rintro (h | rfl)
        · exact h
        · simp [hl]
  | none =>
      cases hc : climb bases known bound rule.name with
      | none =>
          refine .inl ⟨?_, by simp [addChains, hl, hc]⟩
          by_contra hend
          obtain ⟨chain, hchain⟩ := Chain.exists_of_not_endless hend
          have hlt := lt_length_of_climb hc hchain
          have hle := hbound _ _ hchain
          omega
      | some chain =>
          have hchain := climb_chain hknown hc
          refine .inr ⟨hchain.not_endless, known.set rule.name chain, hknown.set hchain,
            by simp [addChains, hl, hc], ?_⟩
          intro name
          rw [lookup_set]
          by_cases hn : name = rule.name
          · simp [hn]
          · simp [hn, Ne.symm hn]

theorem addChains_cases {bound : Nat} (rules : List Rule) (hknown : Known bases known)
    (hbound : ∀ name chain, Chain bases.firstBase name chain → chain.length ≤ bound) :
    (∃ rule, First (fun _ rule => Endless bases.firstBase rule.name) rules rule ∧
      addChains bases bound known rules = .error (.cyclicHierarchy rule.name)) ∨
    ((∀ rule ∈ rules, ¬ Endless bases.firstBase rule.name) ∧
      ∃ t, addChains bases bound known rules = .ok t ∧ Known bases t ∧
        ∀ name, (t.lookup name).isSome ↔
          (known.lookup name).isSome ∨ ∃ rule ∈ rules, rule.name = name) := by
  induction rules generalizing known with
  | nil => exact .inr ⟨by simp, known, rfl, hknown, by simp⟩
  | cons rule rules ih =>
      rcases addChains_cons_cases rule rules hknown hbound with
        ⟨hend, heq⟩ | ⟨hend, known', hknown', heq, hlookup⟩
      · exact .inl ⟨rule, .head hend, heq⟩
      · rw [heq]
        rcases ih hknown' with ⟨bad, hbad, hres⟩ | ⟨hall, t, hres, ht, hlookup'⟩
        · exact .inl ⟨bad, .cons hend hbad, hres⟩
        · refine .inr ⟨by simpa [hend] using hall, t, hres, ht, ?_⟩
          intro name
          rw [hlookup', hlookup]
          simp only [List.mem_cons, exists_eq_or_imp]
          tauto

end NameTable

end NodeRules
