import NodeRules.Proofs.Descriptor.Alike

namespace NodeRules

namespace Descriptor

open Place (Alike SameResult Step)

theorem readHead_step (p : Place) : Step.pair <$> readHead p = do
    let (first, p₁) ← Step.pair <$> p.demandName .descriptor
    if p₁.kind = .atSign then
      let (second, p₂) ← Step.pair <$> p₁.forward.demandName .taggedType
      return ((some first, second), p₂)
    else return ((none, first), p₁) := by
  rw [readHead]
  rcases p.demandName .descriptor with e | ⟨first, p₁, h₁⟩
  · rfl
  change _ = if p₁.kind = .atSign then _ else _
  dsimp only
  split
  · rename_i htake
    rw [if_neg (Place.kind_ne_of_take? htake)]
    rfl
  · rename_i htake
    obtain ⟨hkind, rfl⟩ := Place.forward_of_take? htake
    rw [if_pos hkind]
    rcases p₁.forward.demandName .taggedType with e | ⟨second, p₂, h₂⟩ <;> rfl

theorem readData_step (p : Place) : readData p =
    if p.kind = .leftAngle then
      match Data.ofKind? p.forward.kind with
      | none => .error (p.forward.mismatch .data)
      | some data => do
        let (_, p₁) ← Step.pair <$> p.forward.forward.demand .rightAngle (by simp)
        return (some data, p₁)
    else .ok (none, p) := by
  rw [readData]
  split
  · rename_i htake
    rw [if_neg (Place.kind_ne_of_take? htake)]
  · rename_i htake
    obtain ⟨hkind, rfl⟩ := Place.forward_of_take? htake
    rw [if_pos hkind]
    rcases Data.ofKind? p.forward.kind with _ | data
    · rfl
    · rcases p.forward.forward.demand .rightAngle _ with e | ⟨_, p₁, h₁⟩ <;> rfl

theorem readMultiplicity_step (p : Place) : readMultiplicity p =
    if p.kind = .question then (.optional, p.forward)
    else if p.kind = .star then (.list, p.forward) else (.one, p) := by
  rw [readMultiplicity, Place.take?, Place.take?]
  split_ifs <;> rfl

theorem read_step (p : Place) : Step.pair <$> read p = (do
    let ((tag, typeName), p₁) ← Step.pair <$> readHead p
    if p₁.kind = .leftParen then
      let (parameters, p₂) ← Step.pair <$> readParameters p₁.forward
      let (_, p₃) ← Step.pair <$> p₂.demand .rightParen (by simp)
      readTail tag typeName parameters p₃
    else readTail tag typeName [] p₁) := by
  rw [read]
  rcases readHead p with e | ⟨⟨tag, typeName⟩, p₁, h₁⟩
  · rfl
  change _ = if p₁.kind = .leftParen then _ else _
  dsimp only
  split
  · rename_i htake
    rw [if_neg (Place.kind_ne_of_take? htake)]
    split
    · rename_i htail
      exact htail.symm
    · rename_i htail
      exact htail.symm
  · rename_i htake
    obtain ⟨hkind, rfl⟩ := Place.forward_of_take? htake
    rw [if_pos hkind]
    rcases readParameters p₁.forward with e | ⟨parameters, p₂, h₂⟩
    · rfl
    change _ = Step.pair <$> p₂.demand .rightParen _ >>= fun x =>
      readTail tag typeName parameters x.2
    dsimp only
    rcases p₂.demand .rightParen (by simp) with e | ⟨_, p₃, h₃⟩
    · rfl
    dsimp only
    split
    · rename_i htail
      exact htail.symm
    · rename_i htail
      exact htail.symm

theorem readParameters_step (p : Place) : Step.pair <$> readParameters p = do
    let (d, p₁) ← Step.pair <$> read p
    if p₁.kind = .comma then
      let (ds, p₂) ← Step.pair <$> readParameters p₁.forward
      return (d :: ds, p₂)
    else return ([d], p₁) := by
  rw [readParameters]
  rcases read p with e | ⟨d, p₁, h₁⟩
  · rfl
  change _ = if p₁.kind = .comma then _ else _
  dsimp only
  split
  · rename_i htake
    rw [if_neg (Place.kind_ne_of_take? htake)]
    rfl
  · rename_i htake
    obtain ⟨hkind, rfl⟩ := Place.forward_of_take? htake
    rw [if_pos hkind]
    rcases readParameters p₁.forward with e | ⟨ds, p₂, h₂⟩ <;> rfl

section Alike

variable {ts ts' : List Token} {p q : Place}

theorem readHead_same (h : Alike ts ts' p q) :
    SameResult ts ts' (Step.pair <$> readHead p) (Step.pair <$> readHead q) := by
  rw [readHead_step, readHead_step]
  refine (Place.demandName_same h _).bind ?_
  intro first p₁ q₁ _ h₁
  dsimp only
  rw [h₁.kind]
  split
  · refine (Place.demandName_same h₁.forward _).bind ?_
    intro second p₂ q₂ _ h₂
    exact .ok _ h₂
  · exact .ok _ h₁

theorem readData_same (h : Alike ts ts' p q) : SameResult ts ts' (readData p) (readData q) := by
  rw [readData_step, readData_step, h.kind, h.forward.kind, h.forward.mismatch]
  split
  · split
    · exact .error _
    · refine (Place.demand_same h.forward.forward _ _).bind ?_
      intro _ p₁ q₁ _ h₁
      exact .ok _ h₁
  · exact .ok _ h

theorem readMultiplicity_same (h : Alike ts ts' p q) :
    SameResult ts ts' (.ok (readMultiplicity p)) (.ok (readMultiplicity q)) := by
  rw [readMultiplicity_step, readMultiplicity_step, h.kind]
  split_ifs
  · exact .ok _ h.forward
  · exact .ok _ h.forward
  · exact .ok _ h

theorem readTail_step (tag : Option String) (typeName : String) (ds : List Descriptor)
    (p : Place) : readTail tag typeName ds p = do
    let (data, p₁) ← readData p
    let (multiplicity, p₂) ← .ok (readMultiplicity p₁)
    return (⟨tag, typeName, ds, data, multiplicity⟩, p₂) := by
  rw [readTail]
  rcases readData p with e | ⟨data, p₁⟩ <;> rfl

theorem readTail_same (h : Alike ts ts' p q) (tag : Option String) (typeName : String)
    (ds : List Descriptor) :
    SameResult ts ts' (readTail tag typeName ds p) (readTail tag typeName ds q) := by
  rw [readTail_step, readTail_step]
  refine (readData_same h).bind ?_
  intro data p₁ q₁ _ h₁
  refine (readMultiplicity_same h₁).bind ?_
  intro multiplicity p₂ q₂ _ h₂
  exact .ok _ h₂

end Alike

mutual

theorem read_same {ts ts' : List Token} {p q : Place} (h : Alike ts ts' p q) :
    SameResult ts ts' (Step.pair <$> read p) (Step.pair <$> read q) := by
  rw [read_step, read_step]
  refine (readHead_same h).bind ?_
  rintro ⟨tag, typeName⟩ p₁ q₁ hhead h₁
  have hshorter := Step.shorter_of_pair hhead
  dsimp only
  rw [h₁.kind]
  split
  · have := p₁.length_forward_le
    refine (readParameters_same h₁.forward).bind ?_
    intro parameters p₂ q₂ _ h₂
    refine (Place.demand_same h₂ _ _).bind ?_
    intro _ p₃ q₃ _ h₃
    exact readTail_same h₃ _ _ _
  · exact readTail_same h₁ _ _ _
termination_by 2 * p.unread.length

theorem readParameters_same {ts ts' : List Token} {p q : Place} (h : Alike ts ts' p q) :
    SameResult ts ts' (Step.pair <$> readParameters p) (Step.pair <$> readParameters q) := by
  rw [readParameters_step, readParameters_step]
  refine (read_same h).bind ?_
  intro d p₁ q₁ hread h₁
  have hshorter := Step.shorter_of_pair hread
  dsimp only
  rw [h₁.kind]
  split
  · have := p₁.length_forward_le
    refine (readParameters_same h₁.forward).bind ?_
    intro ds p₂ q₂ _ h₂
    exact .ok _ h₂
  · exact .ok _ h₁
termination_by 2 * p.unread.length + 1

end

end Descriptor

namespace Child

open Place (Alike SameResult Step)

theorem read_step (p : Place) : Step.pair <$> read p =
    if p.kind = .number 0 then .ok (.empty, p.forward)
    else do
      let (d, p₁) ← Step.pair <$> Descriptor.read p
      return (.descriptor d, p₁) := by
  rw [read]
  split
  · rfl
  · rcases Descriptor.read p with e | ⟨d, p₁, h₁⟩ <;> rfl

theorem readSome_step (p : Place) : Step.pair <$> readSome p = do
    let (child, p₁) ← Step.pair <$> read p
    let placed : Placed := ⟨child, p.span.cover p₁.spanBefore⟩
    if p₁.kind = .comma then
      let (more, p₂) ← Step.pair <$> readSome p₁.forward
      return (placed :: more, p₂)
    else return ([placed], p₁) := by
  rw [readSome]
  rcases read p with e | ⟨child, p₁, h₁⟩
  · rfl
  change _ = if p₁.kind = .comma then _ else _
  dsimp only
  split
  · rename_i htake
    rw [if_neg (Place.kind_ne_of_take? htake)]
    rfl
  · rename_i htake
    obtain ⟨hkind, rfl⟩ := Place.forward_of_take? htake
    rw [if_pos hkind]
    rcases readSome p₁.forward with e | ⟨more, p₂, h₂⟩ <;> rfl

theorem readAll_step (p : Place) : readAll p =
    if p.kind = .stop then .ok ([], p) else Step.pair <$> readSome p := by
  rw [readAll]
  split
  · rfl
  · rcases readSome p with e | ⟨children, p₁, h₁⟩ <;> rfl

theorem read_same {ts ts' : List Token} {p q : Place} (h : Alike ts ts' p q) :
    SameResult ts ts' (Step.pair <$> read p) (Step.pair <$> read q) := by
  rw [read_step, read_step, h.kind]
  split
  · exact .ok _ h.forward
  · refine (Descriptor.read_same h).bind ?_
    intro d p₁ q₁ _ h₁
    exact .ok _ h₁

theorem readSome_same {ts ts' : List Token} {p q : Place} (h : Alike ts ts' p q) :
    SameResult ts ts' (Step.pair <$> readSome p) (Step.pair <$> readSome q) := by
  rw [readSome_step, readSome_step, h.span]
  refine (read_same h).bind ?_
  intro child p₁ q₁ hread h₁
  have hshorter := Step.shorter_of_pair hread
  dsimp only
  rw [h₁.kind, h₁.spanBefore]
  split
  · have := p₁.length_forward_le
    refine (readSome_same h₁.forward).bind ?_
    intro more p₂ q₂ _ h₂
    exact .ok _ h₂
  · exact .ok _ h₁
termination_by p.unread.length

theorem readAll_same {ts ts' : List Token} {p q : Place} (h : Alike ts ts' p q) :
    SameResult ts ts' (readAll p) (readAll q) := by
  rw [readAll_step, readAll_step, h.kind]
  split
  · exact .ok _ h
  · exact readSome_same h

theorem ofTokens_congr {ts ts' : List Token} (h : Token.seen ts = Token.seen ts') :
    ofTokens ts = ofTokens ts' := by
  refine (readAll_same (Place.alike_start h)).bind_eq ?_
  intro children p q h
  dsimp only
  rw [h.demandEnd]

end Child

end NodeRules
