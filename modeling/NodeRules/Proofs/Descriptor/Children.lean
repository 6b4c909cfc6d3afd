import NodeRules.Proofs.Descriptor.Grammar

namespace NodeRules

namespace Child

inductive Derives : List Token.Kind → Child → Prop
  | empty : Derives [.number 0] .empty
  | descriptor {ks : List Token.Kind} {d : Descriptor} (h : Descriptor.Derives ks d) :
      Derives ks (.descriptor d)

inductive SomeDerive : List Token.Kind → List Child → Prop
  | last {ks : List Token.Kind} {c : Child} (h : Derives ks c) : SomeDerive ks [c]
  | more {ks ks' : List Token.Kind} {c : Child} {cs : List Child} (h : Derives ks c)
      (hmore : SomeDerive ks' cs) : SomeDerive (ks ++ .comma :: ks') (c :: cs)

inductive ListDerives : List Token.Kind → List Child → Prop
  | nothing : ListDerives [] []
  | some {ks : List Token.Kind} {cs : List Child} (h : SomeDerive ks cs) : ListDerives ks cs

theorem Derives.outer_not_mem {k : Token.Kind} (hk : Descriptor.Outer k) {ks : List Token.Kind}
    {c : Child} (h : Derives ks c) : k ∉ ks := by
  cases h with
  | empty => rcases hk with rfl | rfl <;> simp
  | descriptor h => exact h.outer_not_mem hk

theorem SomeDerive.outer_not_mem {k : Token.Kind} (hk : Descriptor.Outer k) {ks : List Token.Kind}
    {cs : List Child} (h : SomeDerive ks cs) : k ∉ ks := by
  induction h with
  | last h => exact h.outer_not_mem hk
  | more h _ ih => simp [h.outer_not_mem hk, ih, hk.ne_separator]

theorem SomeDerive.stop_not_mem {ks : List Token.Kind} {cs : List Child} (h : SomeDerive ks cs) :
    .stop ∉ ks :=
  h.outer_not_mem (.inl rfl)

theorem read_sound {p : Place} {step : Place.Step p Child} (h : read p = .ok step) :
    ∃ ks, Derives ks step.value ∧ p.kinds = ks ++ step.rest.kinds := by
  rw [read] at h
  split at h
  · rename_i hkind
    cases h
    refine ⟨_, .empty, ?_⟩
    rw [← hkind]
    exact Place.kinds_of_kind (by simp [hkind])
  split at h
  · cases h
  rename_i d p₁ h₁ hread
  cases h
  obtain ⟨ks, hks, hp⟩ := Descriptor.read_sound p hread
  exact ⟨ks, .descriptor hks, hp⟩

theorem readSome_sound {p : Place} {step : Place.Step p (List Placed)}
    (h : readSome p = .ok step) :
    ∃ ks, SomeDerive ks (step.value.map Placed.child) ∧ p.kinds = ks ++ step.rest.kinds := by
  fun_induction readSome p with
  | case1 => cases h
  | case2 p child p₁ h₁ hread =>
      cases h
      obtain ⟨ks, hks, hp⟩ := read_sound hread
      exact ⟨ks, .last hks, hp⟩
  | case3 => cases h
  | case4 p child p₁ h₁ hread placed p₂ htake hlt more p₃ h₃ hmore =>
      rename_i ih
      cases h
      obtain ⟨ks, hks, hp⟩ := read_sound hread
      obtain ⟨ks', hks', hp₂⟩ := ih hmore
      refine ⟨_, .more hks hks', ?_⟩
      dsimp only at hp hp₂
      rw [hp, Place.kinds_of_take? htake (by simp), hp₂, List.append_assoc]
      rfl

theorem read_complete {ks rest : List Token.Kind} {c : Child} (h : Derives ks c) {p : Place}
    (hp : p.kinds = ks ++ rest) (hrest : Descriptor.Follows rest) :
    ∃ step, read p = .ok step ∧ step.value = c ∧ step.rest.kinds = rest := by
  cases h with
  | empty =>
      have hkind : p.kind = .number 0 := Place.kind_eq hp
      rw [read, dif_pos hkind]
      exact ⟨_, rfl, rfl, Place.kinds_forward hp (by simp)⟩
  | descriptor h =>
      obtain ⟨step, hread, rfl, hstep⟩ := Descriptor.read_complete h hp hrest
      obtain ⟨name, ks', rfl⟩ := h.exists_name
      have hkind : p.kind ≠ .number 0 := by
        rw [Place.kind_eq hp]
        simp
      rw [read, dif_neg hkind, hread]
      exact ⟨_, rfl, rfl, hstep⟩

theorem readSome_last {p p₁ : Place} {c : Child} {hlt : p₁.unread.length < p.unread.length}
    (hread : read p = .ok ⟨c, p₁, hlt⟩) (hcomma : p₁.take? .comma = none) :
    readSome p = .ok ⟨[⟨c, p.span.cover p₁.spanBefore⟩], p₁, hlt⟩ := by
  rw [readSome, hread]
  dsimp only
  split
  · rfl
  · rename_i hsome
    rw [hcomma] at hsome
    cases hsome

theorem readSome_more {p p₁ p₂ : Place} {c : Child} {hlt : p₁.unread.length < p.unread.length}
    {step : Place.Step p₂ (List Placed)} (hread : read p = .ok ⟨c, p₁, hlt⟩)
    (hcomma : p₁.take? .comma = some p₂) (hmore : readSome p₂ = .ok step) :
    ∃ hlt', readSome p =
      .ok ⟨⟨c, p.span.cover p₁.spanBefore⟩ :: step.value, step.rest, hlt'⟩ := by
  have hlt₂ := Place.length_take? hcomma (by simp)
  refine ⟨Nat.lt_trans step.shorter (Nat.lt_trans hlt₂ hlt), ?_⟩
  rw [readSome, hread]
  dsimp only
  split
  · rename_i hnone
    rw [hcomma] at hnone
    cases hnone
  · rename_i p₂' hp₂
    rw [hcomma] at hp₂
    cases hp₂
    rw [hmore]

theorem readSome_complete {ks rest : List Token.Kind} {cs : List Child} (h : SomeDerive ks cs)
    {p : Place} (hp : p.kinds = ks ++ rest) (hrest : ∀ k ∈ rest.head?, k = .stop) :
    ∃ step, readSome p = .ok step ∧ step.value.map Placed.child = cs ∧
      step.rest.kinds = rest := by
  induction h generalizing p with
  | last h =>
      obtain ⟨⟨c, p₁, hlt⟩, hread, rfl, hp₁⟩ :=
        read_complete h hp fun k hk => .inr (.inr (hrest k hk))
      have hcomma : p₁.take? .comma = none := by
        apply Place.take?_of_head? _ (by simp)
        intro hk
        rw [hp₁] at hk
        cases hrest _ hk
      exact ⟨_, readSome_last hread hcomma, rfl, hp₁⟩
  | more h _ ih =>
      rw [List.append_assoc, List.cons_append] at hp
      obtain ⟨⟨c, p₁, hlt⟩, hread, rfl, hp₁⟩ :=
        read_complete h hp (by simp [Descriptor.Follows])
      obtain ⟨step, hmore, rfl, hstep⟩ := ih (Place.kinds_forward hp₁ (by simp))
      obtain ⟨hlt', hok⟩ := readSome_more hread (Place.take?_eq_some hp₁) hmore
      exact ⟨_, hok, rfl, hstep⟩

theorem SomeDerive.ne_nil {ks : List Token.Kind} {cs : List Child} (h : SomeDerive ks cs) :
    ks ≠ [] := by
  cases h with
  | last h =>
      cases h with
      | empty => simp
      | descriptor h =>
          obtain ⟨name, ks', rfl⟩ := h.exists_name
          simp
  | more => simp

end Child

def Token.lineKinds (ts : List Token) : List Token.Kind :=
  (ts.map Token.kind).takeWhile (· ≠ .stop)

theorem Token.lineKinds_eq {ts : List Token} {ks rest : List Token.Kind}
    (hts : ts.map Token.kind = ks ++ rest) (hks : .stop ∉ ks)
    (hrest : ∀ k ∈ rest.head?, k = .stop) : Token.lineKinds ts = ks := by
  have hall : ∀ k ∈ ks, decide (k ≠ .stop) = true := by
    intro k hk
    simpa using fun he : k = .stop => hks (he ▸ hk)
  have hnil : rest.takeWhile (· ≠ .stop) = [] := by
    cases rest with
    | nil => rfl
    | cons k rest => simp [hrest k rfl]
  rw [lineKinds, hts, List.takeWhile_append_of_pos hall, hnil, List.append_nil]

theorem Token.exists_lineKinds (ts : List Token) :
    ∃ rest, ts.map Token.kind = Token.lineKinds ts ++ rest ∧ ∀ k ∈ rest.head?, k = .stop := by
  refine ⟨_, List.takeWhile_append_dropWhile.symm, ?_⟩
  intro k hk
  have hnot := List.head?_dropWhile_not (fun k : Token.Kind => decide (k ≠ .stop))
    (ts.map Token.kind)
  rw [Option.mem_def.mp hk] at hnot
  simpa using hnot

namespace Child

variable {ts : List Token} {cs : List Child}

theorem listDerives_of_ofTokens (h : ofTokens ts = .ok cs) :
    ListDerives (Token.lineKinds ts) cs := by
  obtain ⟨⟨children, p⟩, hread, h⟩ := bind_ok h
  obtain ⟨u, hend, h⟩ := bind_ok h
  cases h
  have hstop := Place.kind_eq_stop_iff.mp (Place.kind_of_demandEnd hend)
  rw [readAll] at hread
  split at hread
  · cases hread
    have hline : Token.lineKinds ts = [] :=
      Token.lineKinds_eq (List.nil_append _).symm (by simp) hstop
    rw [hline]
    exact .nothing
  split at hread
  · cases hread
  rename_i hsome
  cases hread
  obtain ⟨ks, hks, hp⟩ := readSome_sound hsome
  have hline : Token.lineKinds ts = ks := Token.lineKinds_eq hp hks.stop_not_mem hstop
  rw [hline]
  exact .some hks

theorem ofTokens_of_listDerives (h : ListDerives (Token.lineKinds ts) cs) :
    ofTokens ts = .ok cs := by
  obtain ⟨rest, hts, hrest⟩ := Token.exists_lineKinds ts
  have hp : (Place.ofTokens ts).kinds = Token.lineKinds ts ++ rest := hts
  generalize Token.lineKinds ts = ks at h hp
  cases h with
  | nothing =>
      have hkind : (Place.ofTokens ts).kind = .stop := by
        rw [Place.kind_eq_stop_iff, hp]
        exact hrest
      rw [ofTokens, readAll, if_pos hkind]
      change (Place.ofTokens ts).demandEnd >>= _ = _
      rw [Place.demandEnd, if_pos hkind]
      rfl
  | some h =>
      obtain ⟨step, hread, rfl, hstep⟩ := readSome_complete h hp hrest
      have hkind : (Place.ofTokens ts).kind ≠ .stop := by
        obtain ⟨k, ks', rfl⟩ := List.exists_cons_of_ne_nil h.ne_nil
        rw [Place.kind_eq hp]
        exact fun he => h.stop_not_mem (he ▸ List.mem_cons_self)
      have hend : step.rest.kind = .stop := by
        rw [Place.kind_eq_stop_iff, hstep]
        exact hrest
      rw [ofTokens, readAll, if_neg hkind, hread]
      change step.rest.demandEnd >>= _ = _
      rw [Place.demandEnd, if_pos hend]
      rfl

/-- Tokens are read as a list of children exactly when the grammar derives that list from the
kinds up to the first end of the line. So it derives at most one. -/
theorem ofTokens_ok_iff_derives (ts : List Token) (cs : List Child) :
    (ofTokens ts = .ok cs ↔ ListDerives (Token.lineKinds ts) cs) ∧
      ∀ cs', ListDerives (Token.lineKinds ts) cs → ListDerives (Token.lineKinds ts) cs' →
        cs = cs' := by
  refine ⟨⟨listDerives_of_ofTokens, ofTokens_of_listDerives⟩, ?_⟩
  intro cs' h h'
  have hread := ofTokens_of_listDerives h
  rw [ofTokens_of_listDerives h'] at hread
  exact (Except.ok.inj hread).symm

/-- `left@Sum(Expr, Name?)<#1>, 0`, the end of the line, and more behind it. -/
def decoratedTokens : List Token :=
  [.name "left", .atSign, .name "Sum", .leftParen, .name "Expr", .comma, .name "Name", .question,
    .rightParen, .leftAngle, .hole ⟨1, by decide, by decide⟩, .rightAngle, .comma, .number 0, .stop,
    .star].map fun kind => ⟨kind, .nowhere⟩

def decorated : List Child :=
  [.descriptor ⟨some "left", "Sum", [.plain "Expr" .one, .plain "Name" .optional],
    some (.hole ⟨1, by decide, by decide⟩), .one⟩, .empty]

theorem ofTokens_ok_iff_derives_decorated :
    ofTokens decoratedTokens = .ok decorated ∧
      ListDerives (Token.lineKinds decoratedTokens) decorated ∧
      ∀ cs, ListDerives (Token.lineKinds decoratedTokens) cs → decorated = cs := by
  have hread : ofTokens decoratedTokens = .ok decorated := by with_unfolding_all rfl
  obtain ⟨hiff, hunique⟩ := ofTokens_ok_iff_derives decoratedTokens decorated
  exact ⟨hread, hiff.mp hread, fun cs h => hunique cs (hiff.mp hread) h⟩

end Child

end NodeRules
