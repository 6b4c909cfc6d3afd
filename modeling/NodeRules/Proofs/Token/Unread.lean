import NodeRules.Token.Place

namespace NodeRules.Place

variable {p : Place} {k k' : Token.Kind} {ks : List Token.Kind}

def kinds (p : Place) : List Token.Kind := p.unread.map Token.kind

theorem unread_of_kinds (h : p.kinds = k :: ks) :
    ∃ t ts, p.unread = t :: ts ∧ t.kind = k ∧ ts.map Token.kind = ks :=
  List.map_eq_cons_iff.mp h

theorem kind_eq (h : p.kinds = k :: ks) : p.kind = k := by
  obtain ⟨t, ts, hu, rfl, -⟩ := unread_of_kinds h
  simp [kind, current, hu]

theorem kindAfter_eq (h : p.kinds = k :: k' :: ks) : p.kindAfter = k' := by
  obtain ⟨t, ts, hu, rfl, hts⟩ := unread_of_kinds h
  obtain ⟨t', ts', rfl, rfl, -⟩ := List.map_eq_cons_iff.mp hts
  simp [kindAfter, hu]

theorem kinds_forward (h : p.kinds = k :: ks) (hk : k ≠ .stop) : p.forward.kinds = ks := by
  obtain ⟨t, ts, hu, rfl, hts⟩ := unread_of_kinds h
  simpa [kinds, forward, hu, hk] using hts

theorem take?_eq_some (h : p.kinds = k :: ks) : p.take? k = some p.forward := by
  simp [take?, kind_eq h]

theorem take?_eq_none (h : p.kinds = k' :: ks) (hne : k' ≠ k) : p.take? k = none := by
  simp [take?, kind_eq h, hne]

theorem forward_of_take? {p' : Place} (h : p.take? k = some p') : p.kind = k ∧ p' = p.forward := by
  rw [take?] at h
  split at h
  · rename_i hk
    exact ⟨hk, (Option.some.inj h).symm⟩
  · cases h

theorem kind_eq_stop_iff : p.kind = .stop ↔ ∀ k ∈ p.kinds.head?, k = .stop := by
  cases hu : p.unread with
  | nil => simp [kind, current, kinds, hu]
  | cons t ts => simp [kind, current, kinds, hu]

theorem kind_of_demandEnd {u : Unit} (h : p.demandEnd = .ok u) : p.kind = .stop := by
  rw [demandEnd] at h
  split at h
  · assumption
  · cases h

theorem demandEnd_ok (h : p.kinds = .stop :: ks) : p.demandEnd = .ok () := by
  simp [demandEnd, kind_eq h]

theorem demandName_ok {name : String} (h : p.kinds = .name name :: ks)
    (expected : ReadError.Expected) :
    ∃ hlt, p.demandName expected = .ok ⟨name, p.forward, hlt⟩ := by
  have hkind := kind_eq h
  refine ⟨length_forward (by simp [hkind]), ?_⟩
  rw [demandName]
  split
  · rename_i value hv
    rw [hkind] at hv
    cases hv
    rfl
  · rename_i hv
    exact absurd hkind (hv name)

theorem demandName_inv {expected : ReadError.Expected} {step : Step p String}
    (h : p.demandName expected = .ok step) :
    p.kind = .name step.value ∧ step.rest = p.forward := by
  rw [demandName] at h
  split at h
  · rename_i value hv
    cases h
    exact ⟨hv, rfl⟩
  · cases h

theorem kinds_of_kind (hk : p.kind ≠ .stop) : p.kinds = p.kind :: p.forward.kinds := by
  cases hu : p.unread with
  | nil => simp [kind, current, hu] at hk
  | cons t ts =>
      have ht : t.kind ≠ .stop := by simpa [kind, current, hu] using hk
      simp [kinds, kind, current, forward, hu, ht]

theorem kinds_of_take? {p' : Place} (h : p.take? k = some p') (hk : k ≠ .stop) :
    p.kinds = k :: p'.kinds := by
  obtain ⟨rfl, rfl⟩ := forward_of_take? h
  exact kinds_of_kind hk

theorem kinds_of_demand {hk : k ≠ .stop} {step : Step p Unit} (h : p.demand k hk = .ok step) :
    p.kinds = k :: step.rest.kinds := by
  rw [demand] at h
  split at h
  · rename_i p' htake
    cases h
    exact kinds_of_take? htake hk
  · cases h

theorem kinds_of_demandName {expected : ReadError.Expected} {step : Step p String}
    (h : p.demandName expected = .ok step) : p.kinds = .name step.value :: step.rest.kinds := by
  obtain ⟨hkind, hrest⟩ := demandName_inv h
  rw [hrest, ← hkind]
  exact kinds_of_kind (by simp [hkind])

theorem take?_of_head? (h : p.kinds.head? ≠ some k) (hk : k ≠ .stop) : p.take? k = none := by
  rw [take?, if_neg]
  rintro rfl
  exact h (by rw [kinds_of_kind hk, List.head?_cons])

theorem demand_ok (h : p.kinds = k :: ks) (hk : k ≠ .stop) :
    ∃ step, p.demand k hk = .ok step ∧ step.rest.kinds = ks := by
  rw [demand]
  split
  · rename_i p' htake
    have hrest := kinds_of_take? htake hk
    rw [h] at hrest
    exact ⟨_, rfl, (List.cons.inj hrest).2.symm⟩
  · rename_i hnone
    rw [take?_eq_some h] at hnone
    cases hnone

end NodeRules.Place
