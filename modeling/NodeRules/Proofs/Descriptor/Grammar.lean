import NodeRules.Descriptor.Reader
import NodeRules.Proofs.Results
import NodeRules.Proofs.Token.Unread

namespace NodeRules

namespace Descriptor

inductive HeadDerives : List Token.Kind → Option String → String → Prop
  | name (typeName : String) : HeadDerives [.name typeName] none typeName
  | tagged (tag typeName : String) :
      HeadDerives [.name tag, .atSign, .name typeName] (some tag) typeName

inductive DataDerives : List Token.Kind → Option Data → Prop
  | absent : DataDerives [] none
  | hole (hole : Hole) : DataDerives [.leftAngle, .hole hole, .rightAngle] (some (.hole hole))
  | text (value : String) : DataDerives [.leftAngle, .text value, .rightAngle] (some (.text value))

inductive MultiplicityDerives : List Token.Kind → Multiplicity → Prop
  | one : MultiplicityDerives [] .one
  | optional : MultiplicityDerives [.question] .optional
  | list : MultiplicityDerives [.star] .list

mutual

inductive Derives : List Token.Kind → Descriptor → Prop
  | mk {head parameters data multiplicity : List Token.Kind} {tag : Option String}
      {typeName : String} {ds : List Descriptor} {value : Option Data} {m : Multiplicity}
      (hhead : HeadDerives head tag typeName) (hparameters : ParametersDerive parameters ds)
      (hdata : DataDerives data value) (hmultiplicity : MultiplicityDerives multiplicity m) :
      Derives (head ++ (parameters ++ (data ++ multiplicity))) ⟨tag, typeName, ds, value, m⟩

inductive ParametersDerive : List Token.Kind → List Descriptor → Prop
  | absent : ParametersDerive [] []
  | list {ks : List Token.Kind} {ds : List Descriptor} (h : SomeDerive ks ds) :
      ParametersDerive (.leftParen :: (ks ++ [.rightParen])) ds

inductive SomeDerive : List Token.Kind → List Descriptor → Prop
  | last {ks : List Token.Kind} {d : Descriptor} (h : Derives ks d) : SomeDerive ks [d]
  | more {ks ks' : List Token.Kind} {d : Descriptor} {ds : List Descriptor} (h : Derives ks d)
      (hmore : SomeDerive ks' ds) : SomeDerive (ks ++ .comma :: ks') (d :: ds)

end

end Descriptor

namespace Descriptor

/-- The kinds that no descriptor has: it ends before the end of the line, and before a bar. -/
def Outer (k : Token.Kind) : Prop := k = .stop ∨ k = .bar

section Outer

variable {k : Token.Kind} (hk : Outer k) {ks : List Token.Kind}

include hk

theorem HeadDerives.outer_not_mem {tag : Option String} {typeName : String}
    (h : HeadDerives ks tag typeName) : k ∉ ks := by
  cases h <;> rcases hk with rfl | rfl <;> simp

theorem DataDerives.outer_not_mem {data : Option Data} (h : DataDerives ks data) : k ∉ ks := by
  cases h <;> rcases hk with rfl | rfl <;> simp

theorem MultiplicityDerives.outer_not_mem {m : Multiplicity} (h : MultiplicityDerives ks m) :
    k ∉ ks := by
  cases h <;> rcases hk with rfl | rfl <;> simp

end Outer

theorem Outer.ne_separator {k : Token.Kind} (hk : Outer k) :
    k ≠ .comma ∧ k ≠ .leftParen ∧ k ≠ .rightParen := by
  rcases hk with rfl | rfl <;> simp

mutual

theorem Derives.outer_not_mem {k : Token.Kind} (hk : Outer k) {ks : List Token.Kind}
    {d : Descriptor} (h : Derives ks d) : k ∉ ks := by
  match h with
  | .mk hhead hparameters hdata hmultiplicity =>
      have hks := hparameters.outer_not_mem hk
      simp only [List.mem_append, not_or]
      exact ⟨hhead.outer_not_mem hk, hks, hdata.outer_not_mem hk, hmultiplicity.outer_not_mem hk⟩

theorem ParametersDerive.outer_not_mem {k : Token.Kind} (hk : Outer k) {ks : List Token.Kind}
    {ds : List Descriptor} (h : ParametersDerive ks ds) : k ∉ ks := by
  match h with
  | .absent => simp
  | .list h =>
      have hks := h.outer_not_mem hk
      simp [hks, hk.ne_separator]

theorem SomeDerive.outer_not_mem {k : Token.Kind} (hk : Outer k) {ks : List Token.Kind}
    {ds : List Descriptor} (h : SomeDerive ks ds) : k ∉ ks := by
  match h with
  | .last h => exact h.outer_not_mem hk
  | .more h hmore =>
      have hks := h.outer_not_mem hk
      have hks' := hmore.outer_not_mem hk
      simp [hks, hks', hk.ne_separator]

end

theorem Derives.exists_name {ks : List Token.Kind} {d : Descriptor} (h : Derives ks d) :
    ∃ name ks', ks = .name name :: ks' := by
  cases h with
  | mk hhead => cases hhead <;> exact ⟨_, _, rfl⟩

section Sound

variable {p p' : Place}

theorem readHead_sound {step : Place.Step p (Option String × String)}
    (h : readHead p = .ok step) :
    ∃ ks, HeadDerives ks step.value.1 step.value.2 ∧ p.kinds = ks ++ step.rest.kinds := by
  rw [readHead] at h
  split at h
  · cases h
  rename_i first p₁ h₁ hfirst
  have hp := Place.kinds_of_demandName hfirst
  split at h
  · cases h
    exact ⟨_, .name first, hp⟩
  rename_i p₂ htake
  split at h
  · cases h
  rename_i second p₃ h₃ hsecond
  cases h
  refine ⟨_, .tagged first second, ?_⟩
  rw [hp, Place.kinds_of_take? htake (by simp), Place.kinds_of_demandName hsecond]
  rfl

theorem Data.ofKind?_eq_some {k : Token.Kind} {data : Data} (h : Data.ofKind? k = some data) :
    DataDerives [.leftAngle, k, .rightAngle] (some data) ∧ k ≠ .stop := by
  cases k <;> cases h
  · exact ⟨.hole _, by simp⟩
  · exact ⟨.text _, by simp⟩

theorem readData_sound {data : Option Data} (h : readData p = .ok (data, p')) :
    ∃ ks, DataDerives ks data ∧ p.kinds = ks ++ p'.kinds := by
  rw [readData] at h
  split at h
  · cases h
    exact ⟨[], .absent, rfl⟩
  rename_i p₁ htake
  split at h
  · cases h
  rename_i data hdata
  obtain ⟨hderives, hstop⟩ := Data.ofKind?_eq_some hdata
  split at h
  · cases h
  rename_i p₂ h₂ hdemand
  cases h
  refine ⟨_, hderives, ?_⟩
  rw [Place.kinds_of_take? htake (by simp), Place.kinds_of_kind hstop,
    Place.kinds_of_demand hdemand]
  rfl

theorem readMultiplicity_sound (p : Place) :
    ∃ ks, MultiplicityDerives ks (readMultiplicity p).1 ∧
      p.kinds = ks ++ (readMultiplicity p).2.kinds := by
  rw [readMultiplicity]
  split
  · rename_i p₁ htake
    exact ⟨_, .optional, Place.kinds_of_take? htake (by simp)⟩
  split
  · rename_i p₁ htake
    exact ⟨_, .list, Place.kinds_of_take? htake (by simp)⟩
  · exact ⟨_, .one, rfl⟩

theorem readTail_sound {tag : Option String} {typeName : String} {ds : List Descriptor}
    {d : Descriptor} (h : readTail tag typeName ds p = .ok (d, p')) :
    ∃ data multiplicity value m, DataDerives data value ∧ MultiplicityDerives multiplicity m ∧
      d = ⟨tag, typeName, ds, value, m⟩ ∧ p.kinds = data ++ multiplicity ++ p'.kinds := by
  rw [readTail] at h
  split at h
  · cases h
  rename_i value p₁ hdata
  cases h
  obtain ⟨data, hderives, hp⟩ := readData_sound hdata
  obtain ⟨multiplicity, hm, hp₁⟩ := readMultiplicity_sound p₁
  refine ⟨data, multiplicity, value, _, hderives, hm, rfl, ?_⟩
  rw [hp, hp₁, List.append_assoc]
  rfl

end Sound

mutual

theorem read_sound (p : Place) {step : Place.Step p Descriptor} (h : read p = .ok step) :
    ∃ ks, Derives ks step.value ∧ p.kinds = ks ++ step.rest.kinds := by
  rw [read] at h
  split at h
  · cases h
  rename_i tag typeName p₁ h₁ hhead
  obtain ⟨head, hderives, hp⟩ := readHead_sound hhead
  split at h
  · split at h
    · cases h
    rename_i d p₂ htail
    cases h
    obtain ⟨data, multiplicity, value, m, hdata, hm, rfl, hp₁⟩ := readTail_sound htail
    refine ⟨_, .mk hderives .absent hdata hm, ?_⟩
    simp only at hp
    rw [hp, hp₁]
    simp
  rename_i p₂ htake
  have hlt := Place.length_take? htake (by simp)
  dsimp only at h
  split at h
  · cases h
  rename_i ds p₃ h₃ hparameters
  obtain ⟨ks, hks, hp₂⟩ := readParameters_sound p₂ hparameters
  split at h
  · cases h
  rename_i p₄ h₄ hdemand
  split at h
  · cases h
  rename_i d p₅ htail
  cases h
  obtain ⟨data, multiplicity, value, m, hdata, hm, rfl, hp₄⟩ := readTail_sound htail
  refine ⟨_, .mk hderives (.list hks) hdata hm, ?_⟩
  simp only at hp hp₂
  rw [hp, Place.kinds_of_take? htake (by simp), hp₂, Place.kinds_of_demand hdemand, hp₄]
  simp
termination_by 2 * p.unread.length

theorem readParameters_sound (p : Place) {step : Place.Step p (List Descriptor)}
    (h : readParameters p = .ok step) :
    ∃ ks, SomeDerive ks step.value ∧ p.kinds = ks ++ step.rest.kinds := by
  rw [readParameters] at h
  split at h
  · cases h
  rename_i d p₁ h₁ hread
  obtain ⟨ks, hks, hp⟩ := read_sound p hread
  split at h
  · cases h
    exact ⟨ks, .last hks, hp⟩
  rename_i p₂ htake
  have hlt := Place.length_take? htake (by simp)
  dsimp only at h
  split at h
  · cases h
  rename_i ds p₃ h₃ hmore
  cases h
  obtain ⟨ks', hks', hp₂⟩ := readParameters_sound p₂ hmore
  refine ⟨_, .more hks hks', ?_⟩
  simp only at hp hp₂
  rw [hp, Place.kinds_of_take? htake (by simp), hp₂]
  simp
termination_by 2 * p.unread.length + 1

end

/-- What may stand behind a descriptor: none of the tokens that continue one. -/
def Follows (rest : List Token.Kind) : Prop :=
  ∀ k ∈ rest.head?, k = .comma ∨ k = .rightParen ∨ k = .stop

theorem Follows.head?_ne {rest : List Token.Kind} (h : Follows rest) {k : Token.Kind}
    (hk : k ≠ .comma ∧ k ≠ .rightParen ∧ k ≠ .stop) : rest.head? ≠ some k := by
  intro hhead
  rcases h k hhead with rfl | rfl | rfl
  · exact hk.1 rfl
  · exact hk.2.1 rfl
  · exact hk.2.2 rfl

section Head

variable {k : Token.Kind} {ks rest : List Token.Kind}

theorem ParametersDerive.head?_ne {ds : List Descriptor} (h : ParametersDerive ks ds)
    (hk : k ≠ .leftParen) (hrest : rest.head? ≠ some k) : (ks ++ rest).head? ≠ some k := by
  cases h with
  | absent => exact hrest
  | list => simpa using hk.symm

theorem DataDerives.head?_ne {data : Option Data} (h : DataDerives ks data)
    (hk : k ≠ .leftAngle) (hrest : rest.head? ≠ some k) : (ks ++ rest).head? ≠ some k := by
  cases h with
  | absent => exact hrest
  | hole | text => simpa using hk.symm

theorem MultiplicityDerives.head?_ne {m : Multiplicity} (h : MultiplicityDerives ks m)
    (hk : k ≠ .question ∧ k ≠ .star) (hrest : rest.head? ≠ some k) :
    (ks ++ rest).head? ≠ some k := by
  cases h with
  | one => exact hrest
  | optional => simpa using hk.1.symm
  | list => simpa using hk.2.symm

end Head

section Complete

variable {p : Place} {ks rest : List Token.Kind}

theorem readHead_complete {tag : Option String} {typeName : String}
    (h : HeadDerives ks tag typeName) (hp : p.kinds = ks ++ rest)
    (hrest : rest.head? ≠ some .atSign) :
    ∃ step, readHead p = .ok step ∧ step.value = (tag, typeName) ∧ step.rest.kinds = rest := by
  cases h with
  | name =>
      obtain ⟨hlt, hname⟩ := Place.demandName_ok hp .descriptor
      have hforward : p.forward.kinds = rest := Place.kinds_forward hp (by simp)
      have htake : p.forward.take? .atSign = none :=
        Place.take?_of_head? (by rwa [hforward]) (by simp)
      rw [readHead, hname]
      dsimp only
      split
      · exact ⟨_, rfl, rfl, hforward⟩
      · rename_i hsome
        rw [htake] at hsome
        cases hsome
  | tagged tag =>
      obtain ⟨hlt, hname⟩ := Place.demandName_ok hp .descriptor
      have hforward : p.forward.kinds = .atSign :: .name typeName :: rest :=
        Place.kinds_forward hp (by simp)
      rw [readHead, hname]
      dsimp only
      split
      · rename_i hnone
        rw [Place.take?_eq_some hforward] at hnone
        cases hnone
      rename_i p₂ hsome
      rw [Place.take?_eq_some hforward] at hsome
      cases hsome
      have hp₂ := Place.kinds_forward hforward (by simp)
      obtain ⟨hlt₂, htype⟩ := Place.demandName_ok hp₂ .taggedType
      rw [htype]
      exact ⟨_, rfl, rfl, Place.kinds_forward hp₂ (by simp)⟩

theorem readData_complete {data : Option Data} (h : DataDerives ks data)
    (hp : p.kinds = ks ++ rest) (hrest : rest.head? ≠ some .leftAngle) :
    ∃ p', readData p = .ok (data, p') ∧ p'.kinds = rest := by
  cases h with
  | absent =>
      have htake : p.take? .leftAngle = none := Place.take?_of_head? (by rwa [hp]) (by simp)
      exact ⟨p, by rw [readData, htake], hp⟩
  | hole | text =>
      have hp₁ := Place.kinds_forward hp (by simp)
      have hp₂ := Place.kinds_forward hp₁ (by simp)
      obtain ⟨step, hdemand, hstep⟩ := Place.demand_ok hp₂ (by simp)
      refine ⟨step.rest, ?_, hstep⟩
      rw [readData, Place.take?_eq_some hp]
      dsimp only
      rw [Place.kind_eq hp₁]
      dsimp only [Data.ofKind?]
      rw [hdemand]

theorem readMultiplicity_complete {m : Multiplicity} (h : MultiplicityDerives ks m)
    (hp : p.kinds = ks ++ rest) (hrest : Follows rest) :
    ∃ p', readMultiplicity p = (m, p') ∧ p'.kinds = rest := by
  cases h with
  | one =>
      have hquestion : p.take? .question = none :=
        Place.take?_of_head? (by rw [hp]; exact hrest.head?_ne (by simp)) (by simp)
      have hstar : p.take? .star = none :=
        Place.take?_of_head? (by rw [hp]; exact hrest.head?_ne (by simp)) (by simp)
      exact ⟨p, by rw [readMultiplicity, hquestion, hstar], hp⟩
  | optional =>
      refine ⟨p.forward, ?_, Place.kinds_forward hp (by simp)⟩
      rw [readMultiplicity, Place.take?_eq_some hp]
  | list =>
      have hquestion : p.take? .question = none := Place.take?_eq_none hp (by simp)
      refine ⟨p.forward, ?_, Place.kinds_forward hp (by simp)⟩
      rw [readMultiplicity, hquestion, Place.take?_eq_some hp]

theorem readTail_complete {data multiplicity : List Token.Kind} {value : Option Data}
    {m : Multiplicity} (tag : Option String) (typeName : String) (ds : List Descriptor)
    (hdata : DataDerives data value) (hm : MultiplicityDerives multiplicity m)
    (hp : p.kinds = data ++ (multiplicity ++ rest)) (hrest : Follows rest) :
    ∃ p', readTail tag typeName ds p = .ok (⟨tag, typeName, ds, value, m⟩, p') ∧
      p'.kinds = rest := by
  have hangle : (multiplicity ++ rest).head? ≠ some .leftAngle :=
    hm.head?_ne (by simp) (hrest.head?_ne (by simp))
  obtain ⟨p₁, hread, hp₁⟩ := readData_complete hdata hp hangle
  obtain ⟨p₂, hread₂, hp₂⟩ := readMultiplicity_complete hm hp₁ hrest
  exact ⟨p₂, by rw [readTail, hread]; simp only [hread₂], hp₂⟩

end Complete

section Equations

variable {p p₁ p₂ p₃ : Place} {tag : Option String} {typeName : String} {d : Descriptor}
  {hlt : p₁.unread.length < p.unread.length}

theorem read_without_parameters (hhead : readHead p = .ok ⟨(tag, typeName), p₁, hlt⟩)
    (hparen : p₁.take? .leftParen = none) (htail : readTail tag typeName [] p₁ = .ok (d, p₂)) :
    ∃ hlt', read p = .ok ⟨d, p₂, hlt'⟩ := by
  have hle := length_readTail htail
  refine ⟨by omega, ?_⟩
  rw [read, hhead]
  dsimp only
  split
  · split
    · rename_i herror
      rw [htail] at herror
      cases herror
    · rename_i hok
      rw [htail] at hok
      cases hok
      rfl
  · rename_i hsome
    rw [hparen] at hsome
    cases hsome

theorem read_with_parameters {inner : Place.Step p₂ (List Descriptor)}
    {close : Place.Step inner.rest Unit} (hhead : readHead p = .ok ⟨(tag, typeName), p₁, hlt⟩)
    (hparen : p₁.take? .leftParen = some p₂) (hinner : readParameters p₂ = .ok inner)
    (hclose : inner.rest.demand .rightParen (by simp) = .ok close)
    (htail : readTail tag typeName inner.value close.rest = .ok (d, p₃)) :
    ∃ hlt', read p = .ok ⟨d, p₃, hlt'⟩ := by
  have hle := length_readTail htail
  have hlt₂ := Place.length_take? hparen (by simp)
  have hlt₃ := inner.shorter
  have hlt₄ := close.shorter
  refine ⟨by omega, ?_⟩
  rw [read, hhead]
  dsimp only
  split
  · rename_i hnone
    rw [hparen] at hnone
    cases hnone
  rename_i p₂' hsome
  rw [hparen] at hsome
  cases hsome
  rw [hinner]
  dsimp only
  rw [hclose]
  dsimp only
  split
  · rename_i herror
    rw [htail] at herror
    cases herror
  · rename_i hok
    rw [htail] at hok
    cases hok
    rfl

theorem readParameters_last (hread : read p = .ok ⟨d, p₁, hlt⟩) (hcomma : p₁.take? .comma = none) :
    readParameters p = .ok ⟨[d], p₁, hlt⟩ := by
  rw [readParameters, hread]
  dsimp only
  split
  · rfl
  · rename_i hsome
    rw [hcomma] at hsome
    cases hsome

theorem readParameters_more {step : Place.Step p₂ (List Descriptor)}
    (hread : read p = .ok ⟨d, p₁, hlt⟩) (hcomma : p₁.take? .comma = some p₂)
    (hmore : readParameters p₂ = .ok step) :
    ∃ hlt', readParameters p = .ok ⟨d :: step.value, step.rest, hlt'⟩ := by
  have hlt₂ := Place.length_take? hcomma (by simp)
  have hlt₃ := step.shorter
  refine ⟨by omega, ?_⟩
  rw [readParameters, hread]
  dsimp only
  split
  · rename_i hnone
    rw [hcomma] at hnone
    cases hnone
  · rename_i p₂' hsome
    rw [hcomma] at hsome
    cases hsome
    rw [hmore]

end Equations

mutual

theorem read_complete {ks rest : List Token.Kind} {d : Descriptor} (h : Derives ks d) {p : Place}
    (hp : p.kinds = ks ++ rest) (hrest : Follows rest) :
    ∃ step, read p = .ok step ∧ step.value = d ∧ step.rest.kinds = rest := by
  match h with
  | @Derives.mk _ _ data multiplicity tag typeName _ _ _ hhead hparameters hdata hm =>
      simp only [List.append_assoc] at hp
      have hopen {k : Token.Kind} (hk : k = .atSign ∨ k = .leftParen) :
          (data ++ (multiplicity ++ rest)).head? ≠ some k :=
        hdata.head?_ne (by rcases hk with rfl | rfl <;> simp)
          (hm.head?_ne (by rcases hk with rfl | rfl <;> simp)
            (hrest.head?_ne (by rcases hk with rfl | rfl <;> simp)))
      obtain ⟨⟨value, p₁, hlt⟩, hread, rfl, hp₁⟩ := readHead_complete hhead hp
        (hparameters.head?_ne (by simp) (hopen (.inl rfl)))
      dsimp only at hp₁
      match hparameters with
      | .absent =>
          have hparen : p₁.take? .leftParen = none :=
            Place.take?_of_head? (by rw [hp₁]; exact hopen (.inr rfl)) (by simp)
          obtain ⟨p₂, htail, hp₂⟩ := readTail_complete tag typeName [] hdata hm hp₁ hrest
          obtain ⟨hlt', hok⟩ := read_without_parameters hread hparen htail
          exact ⟨_, hok, rfl, hp₂⟩
      | .list hsome =>
          simp only [List.cons_append, List.append_assoc] at hp₁
          obtain ⟨inner, hinner, rfl, hp₃⟩ := readParameters_complete hsome
            (Place.kinds_forward hp₁ (by simp))
          obtain ⟨close, hclose, hp₄⟩ := Place.demand_ok hp₃ (by simp)
          obtain ⟨p₅, htail, hp₅⟩ :=
            readTail_complete tag typeName inner.value hdata hm hp₄ hrest
          obtain ⟨hlt', hok⟩ :=
            read_with_parameters hread (Place.take?_eq_some hp₁) hinner hclose htail
          exact ⟨_, hok, rfl, hp₅⟩

theorem readParameters_complete {ks rest : List Token.Kind} {ds : List Descriptor}
    (h : SomeDerive ks ds) {p : Place} (hp : p.kinds = ks ++ .rightParen :: rest) :
    ∃ step, readParameters p = .ok step ∧ step.value = ds ∧
      step.rest.kinds = .rightParen :: rest := by
  match h with
  | .last h =>
      obtain ⟨⟨d, p₁, hlt⟩, hread, rfl, hp₁⟩ := read_complete h hp (by simp [Follows])
      exact ⟨_, readParameters_last hread (Place.take?_eq_none hp₁ (by simp)), rfl, hp₁⟩
  | .more h hmore =>
      rw [List.append_assoc, List.cons_append] at hp
      obtain ⟨⟨d, p₁, hlt⟩, hread, rfl, hp₁⟩ := read_complete h hp (by simp [Follows])
      obtain ⟨step, hstep, rfl, hrest⟩ := readParameters_complete hmore
        (Place.kinds_forward hp₁ (by simp))
      obtain ⟨hlt', hok⟩ := readParameters_more hread (Place.take?_eq_some hp₁) hstep
      exact ⟨_, hok, rfl, hrest⟩

end

end Descriptor

end NodeRules
