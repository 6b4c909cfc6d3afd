import NodeRules.Proofs.Separated
import NodeRules.Proofs.Token.Unread
import NodeRules.Rule.Reader

namespace NodeRules

theorem requireCapital_ok {name : String} {span : Span} {u : Unit}
    (h : requireCapital name span = .ok u) : startsCapital name := by
  rw [requireCapital] at h
  split at h
  · assumption
  · cases h

namespace NodeRule

open Token (Kind)

section Equations

variable {p p₁ p₂ : Place} {rule name : String} {seen : List String}
  {hlt : p₁.unread.length < p.unread.length}

theorem readSubtypes_last (hname : p.demandName .subtype = .ok ⟨name, p₁, hlt⟩)
    (hcapital : startsCapital name) (hseen : name ∉ seen) (htake : p₁.take? .bar = none) :
    readSubtypes rule seen p = .ok ([name], p₁) := by
  rw [readSubtypes, hname]
  dsimp only
  rw [requireCapital, if_pos hcapital]
  dsimp only
  rw [if_neg hseen]
  split
  · rfl
  · rename_i hsome
    rw [htake] at hsome
    cases hsome

theorem readSubtypes_more {names : List String} {p₃ : Place}
    (hname : p.demandName .subtype = .ok ⟨name, p₁, hlt⟩) (hcapital : startsCapital name)
    (hseen : name ∉ seen) (htake : p₁.take? .bar = some p₂)
    (hmore : readSubtypes rule (name :: seen) p₂ = .ok (names, p₃)) :
    readSubtypes rule seen p = .ok (name :: names, p₃) := by
  rw [readSubtypes, hname]
  dsimp only
  rw [requireCapital, if_pos hcapital]
  dsimp only
  rw [if_neg hseen]
  split
  · rename_i hnone
    rw [htake] at hnone
    cases hnone
  · rename_i p₂' hp₂
    rw [htake] at hp₂
    cases hp₂
    rw [hmore]

end Equations

theorem readSubtypes_sound {rule : String} {seen : List String} {p p' : Place}
    {names : List String} (h : readSubtypes rule seen p = .ok (names, p')) :
    names ≠ [] ∧ p.kinds = (names.map Kind.name).intersperse .bar ++ p'.kinds ∧
      p'.kinds.head? ≠ some .bar ∧ (∀ name ∈ names, startsCapital name ∧ name ∉ seen) ∧
      names.Nodup := by
  fun_induction readSubtypes rule seen p generalizing names p' with
  | case1 => cases h
  | case2 => cases h
  | case3 => cases h
  | case4 seen p name p₁ h₁ hd hcap hseen htake =>
      cases h
      refine ⟨by simp, Place.kinds_of_demandName hd, ?_, ?_, by simp⟩
      · intro hhead
        obtain ⟨ks, hks⟩ := List.head?_eq_some_iff.mp hhead
        rw [Place.take?_eq_some hks] at htake
        cases htake
      · intro other hother
        rw [List.mem_singleton.mp hother]
        exact ⟨requireCapital_ok hcap, hseen⟩
  | case5 => cases h
  | case6 seen p name p₁ h₁ hd hcap hseen p₂ htake hlt more p₃ hmore ih =>
      cases h
      obtain ⟨hne, hkinds, hend, hall, hnodup⟩ := ih hmore
      refine ⟨by simp, ?_, hend, ?_, ?_⟩
      · rw [Place.kinds_of_demandName hd, Place.kinds_of_take? htake (by simp), hkinds,
          List.map_cons, intersperse_cons (by simpa using hne)]
        rfl
      · intro other hother
        rcases List.mem_cons.mp hother with rfl | hother
        · exact ⟨requireCapital_ok hcap, hseen⟩
        · exact ⟨(hall other hother).1, fun hs => (hall other hother).2 (List.mem_cons_of_mem _ hs)⟩
      · exact List.nodup_cons.mpr ⟨fun hm => (hall name hm).2 List.mem_cons_self, hnodup⟩

theorem readSubtypes_complete (rule : String) {seen : List String} {p : Place}
    {names : List String} {rest : List Kind} (hne : names ≠ [])
    (hcapital : ∀ name ∈ names, startsCapital name) (hnodup : names.Nodup)
    (hseen : ∀ name ∈ names, name ∉ seen) (hrest : rest.head? ≠ some .bar)
    (hp : p.kinds = (names.map Kind.name).intersperse .bar ++ rest) :
    ∃ p', readSubtypes rule seen p = .ok (names, p') ∧ p'.kinds = rest := by
  induction names generalizing p seen with
  | nil => exact absurd rfl hne
  | cons name names ih =>
      by_cases hlast : names = []
      · subst hlast
        obtain ⟨hlt, hname⟩ := Place.demandName_ok hp .subtype
        have hforward : p.forward.kinds = rest := Place.kinds_forward hp (by simp)
        have htake : p.forward.take? .bar = none :=
          Place.take?_of_head? (by rwa [hforward]) (by simp)
        refine ⟨p.forward, ?_, hforward⟩
        exact readSubtypes_last hname (hcapital name (by simp)) (hseen name (by simp)) htake
      · rw [List.map_cons, intersperse_cons (by simpa using hlast)] at hp
        obtain ⟨hlt, hname⟩ := Place.demandName_ok hp .subtype
        have hforward := Place.kinds_forward hp (by simp)
        rw [List.nodup_cons] at hnodup
        have hfresh : ∀ other ∈ names, other ∉ name :: seen := by
          intro other ho hmem
          rcases List.mem_cons.mp hmem with rfl | hmem
          · exact hnodup.1 ho
          · exact hseen other (List.mem_cons_of_mem _ ho) hmem
        obtain ⟨p', hmore, hp'⟩ := ih hlast (fun other ho => hcapital other (by simp [ho]))
          hnodup.2 hfresh (Place.kinds_forward hforward (by simp))
        refine ⟨p', ?_, hp'⟩
        exact readSubtypes_more hname (hcapital name (by simp)) (hseen name (by simp))
          (Place.take?_eq_some hforward) hmore

theorem startsAbstract_iff {p : Place} :
    startsAbstract p = true ↔ ∃ name ks, p.kinds = .name name :: .bar :: ks := by
  constructor
  · intro h
    rw [startsAbstract] at h
    split at h
    · rename_i name hname
      cases hu : p.unread with
      | nil => simp [Place.kind, Place.current, hu] at hname
      | cons t ts =>
          cases ts with
          | nil => simp [Place.kindAfter, hu] at h
          | cons t' ts =>
              have ht : t.kind = .name name := by simpa [Place.kind, Place.current, hu] using hname
              have ht' : t'.kind = .bar := by simpa [Place.kindAfter, hu] using h
              exact ⟨name, ts.map Token.kind, by simp [Place.kinds, hu, ht, ht']⟩
    · cases h
  · rintro ⟨name, ks, hp⟩
    simp [startsAbstract, Place.kind_eq hp, Place.kindAfter_eq hp]

theorem two_le_length_of_startsAbstract {rule : String} {seen : List String} {p p' : Place}
    {names : List String} (h : readSubtypes rule seen p = .ok (names, p'))
    (habstract : startsAbstract p = true) : 2 ≤ names.length := by
  obtain ⟨hne, hkinds, hend, -, -⟩ := readSubtypes_sound h
  obtain ⟨first, ks, hp⟩ := startsAbstract_iff.mp habstract
  rw [hp] at hkinds
  match names with
  | [] => exact absurd rfl hne
  | [_] =>
      -- Behind the only name there would be the bar.
      have hrest : .bar :: ks = p'.kinds := (List.cons.inj hkinds).2
      exact absurd (by rw [← hrest]; rfl) hend
  | _ :: _ :: _ => simp

end NodeRule

end NodeRules
