import NodeRules.Proofs.Descriptor.Children
import NodeRules.Proofs.Rule.Subtypes
import NodeRules.Proofs.Token.Kinds
import NodeRules.Program.Reader

namespace NodeRules

def IsTypeName (name : String) : Prop := startsCapital name ∧ Scanner.IsName name.toList

def Child.IsPlain (c : Child) : Prop :=
  ∃ name m, c = .descriptor (.plain name m) ∧ IsTypeName name

inductive NodeRule.Readable : NodeRule → Prop
  | abstract {name : String} {subtypes : List String} (hname : IsTypeName name)
      (htwo : 2 ≤ subtypes.length) (hnodup : subtypes.Nodup)
      (htypes : ∀ subtype ∈ subtypes, IsTypeName subtype) : Readable (.abstract name subtypes)
  | empty {name : String} (hname : IsTypeName name) : Readable (.ordinary name [.empty])
  | ordinary {name : String} {children : List Child} (hname : IsTypeName name)
      (hne : children ≠ []) (hplain : ∀ c ∈ children, c.IsPlain)
      (halone : children.length = 1 ∨ ∀ c ∈ children, c.isList = false) :
      Readable (.ordinary name children)

inductive Rule.Readable : Rule → Prop
  | node {r : NodeRule} (h : r.Readable) : Readable (.node r)
  | literal {r : LiteralRule} (h : IsTypeName r.name) : Readable (.literal r)

theorem Rule.Readable.isTypeName {rule : Rule} (h : rule.Readable) : IsTypeName rule.name := by
  cases h with
  | node h =>
      cases h with
      | abstract hname => exact hname
      | empty hname => exact hname
      | ordinary hname => exact hname
  | literal hname => exact hname

theorem Rule.Readable.isTypeName_child {r : NodeRule} (h : Rule.Readable (.node r))
    {d : Descriptor} (hd : d ∈ r.descriptors) : IsTypeName d.typeName := by
  obtain ⟨c, hc, hdescriptor⟩ := List.mem_filterMap.mp hd
  cases h with
  | node h =>
      cases h with
      | abstract => cases hc
      | empty =>
          rw [List.mem_singleton.mp hc] at hdescriptor
          cases hdescriptor
      | ordinary _ _ hplain =>
          obtain ⟨name, m, rfl, hname⟩ := hplain c hc
          cases hdescriptor
          exact hname

def Place.Named (p : Place) : Prop := ∀ name, .name name ∈ p.kinds → Scanner.IsName name.toList

namespace NodeRule

theorem isTypeName_of_readSubtypes {rule : String} {seen : List String} {p p' : Place}
    {names : List String} (h : readSubtypes rule seen p = .ok (names, p')) (hp : p.Named) :
    ∀ name ∈ names, IsTypeName name := by
  obtain ⟨-, hkinds, -, hall, -⟩ := readSubtypes_sound h
  intro name hname
  refine ⟨(hall name hname).1, hp name ?_⟩
  rw [hkinds]
  exact List.mem_append_left _ (mem_intersperse (List.mem_map_of_mem hname))

end NodeRule

theorem Descriptor.Derives.name_mem {ks : List Token.Kind} {d : Descriptor}
    (h : Descriptor.Derives ks d) : .name d.typeName ∈ ks := by
  cases h with
  | mk hhead => cases hhead <;> simp

namespace Child

def Spelled (c : Child) : Prop := ∀ d, c = .descriptor d → Scanner.IsName d.typeName.toList

theorem Derives.spelled {ks : List Token.Kind} {c : Child} (h : Derives ks c)
    (hks : ∀ name, .name name ∈ ks → Scanner.IsName name.toList) : c.Spelled := by
  rintro d rfl
  cases h with
  | descriptor h => exact hks d.typeName h.name_mem

theorem SomeDerive.spelled {ks : List Token.Kind} {cs : List Child} (h : SomeDerive ks cs)
    (hks : ∀ name, .name name ∈ ks → Scanner.IsName name.toList) : ∀ c ∈ cs, c.Spelled := by
  induction h with
  | last h =>
      intro c hc
      obtain rfl := List.mem_singleton.mp hc
      exact h.spelled hks
  | more h _ ih =>
      intro c hc
      rcases List.mem_cons.mp hc with rfl | hc
      · exact h.spelled fun name hname => hks name (by simp [hname])
      · exact ih (fun name hname => hks name (by simp [hname])) c hc

theorem readSome_spelled {p : Place} {step : Place.Step p (List Placed)}
    (h : readSome p = .ok step) (hp : p.Named) :
    ∀ placed ∈ step.value, placed.child.Spelled := by
  obtain ⟨ks, hks, hkinds⟩ := readSome_sound h
  intro placed hplaced
  apply hks.spelled _ _ (List.mem_map_of_mem hplaced)
  intro name hname
  apply hp name
  rw [hkinds]
  exact List.mem_append_left _ hname

end Child

namespace NodeRule

theorem childError?_eq_none {rule : String} {alone : Bool} {placed : Child.Placed}
    (h : childError? rule alone placed = none) :
    (placed.child = .empty ∧ alone = true) ∨
      ∃ d, placed.child = .descriptor d ∧ d.isDecorated = false ∧ startsCapital d.typeName := by
  rw [childError?] at h
  split at h
  · rename_i hchild
    left
    split at h
    · exact ⟨hchild, by assumption⟩
    · cases h
  · rename_i d hchild
    right
    split at h
    · cases h
    split at h
    · exact ⟨d, hchild, by simp_all, by assumption⟩
    · cases h

theorem eq_plain {d : Descriptor} (h : d.isDecorated = false) :
    d = .plain d.typeName d.multiplicity := by
  cases d with
  | mk tag typeName parameters data m =>
      simp only [Descriptor.isDecorated, Bool.or_eq_false_iff, Bool.not_eq_false',
        List.isEmpty_iff, Option.isSome_eq_false_iff, Option.isNone_iff_eq_none] at h
      obtain ⟨⟨rfl, rfl⟩, rfl⟩ := h
      rfl

theorem childrenError?_eq_none {name : String} {children : List Child.Placed} {stop : Span}
    (h : childrenError? name children stop = none) :
    children ≠ [] ∧ (children.length = 1 ∨ ∀ placed ∈ children, placed.child.isList = false) ∧
      ∀ placed ∈ children, (placed.child = .empty ∧ children.length = 1) ∨
        ∃ d, placed.child = .descriptor d ∧ d.isDecorated = false ∧ startsCapital d.typeName := by
  rw [childrenError?] at h
  split at h
  · cases h
  rename_i hne
  dsimp only at h
  split at h
  · cases h
  rename_i hlist
  refine ⟨by simpa using hne, ?_, ?_⟩
  · by_cases hone : children.length = 1
    · exact .inl hone
    · right
      intro placed hplaced
      simp only [beq_iff_eq, hone, if_false, List.find?_eq_none] at hlist
      simpa using hlist placed hplaced
  · intro placed hplaced
    simpa using childError?_eq_none (List.findSome?_eq_none_iff.mp h placed hplaced)

theorem childrenError?_eq {name : String} {children : List Child.Placed} (stop : Span)
    (hne : children ≠ [])
    (halone : children.length = 1 ∨ ∀ placed ∈ children, placed.child.isList = false) :
    childrenError? name children stop =
      children.findSome? (childError? name (children.length == 1)) := by
  have hlist : (if children.length == 1 then none else children.find? (·.child.isList)) = none := by
    rcases halone with hone | hnone
    · simp [hone]
    · rw [List.find?_eq_none.mpr (by simpa using hnone), ite_self]
  simp only [childrenError?, List.isEmpty_iff, hne, if_false, hlist]

/-- A children list without an error is the item `0` alone, or plain children that may stand
together. -/
theorem readable_of_childrenError? {name : String} {children : List Child.Placed} {stop : Span}
    (h : childrenError? name children stop = none) (hname : IsTypeName name)
    (hspelled : ∀ placed ∈ children, placed.child.Spelled) :
    Readable (.ordinary name (children.map Child.Placed.child)) := by
  obtain ⟨hne, halone, heach⟩ := childrenError?_eq_none h
  by_cases hempty : ∃ placed ∈ children, placed.child = .empty
  · obtain ⟨placed, hplaced, he⟩ := hempty
    have hone : children.length = 1 := by
      rcases heach placed hplaced with ⟨-, hone⟩ | ⟨d, hd, -⟩
      · exact hone
      · rw [he] at hd
        cases hd
    obtain ⟨only, rfl⟩ := List.length_eq_one_iff.mp hone
    rw [List.mem_singleton.mp hplaced] at he
    rw [List.map_singleton, he]
    exact .empty hname
  · refine .ordinary hname (by simpa using hne) ?_ (by simpa using halone)
    intro c hc
    obtain ⟨placed, hplaced, rfl⟩ := List.mem_map.mp hc
    rcases heach placed hplaced with ⟨he, -⟩ | ⟨d, hd, hdec, hcap⟩
    · exact absurd ⟨placed, hplaced, he⟩ hempty
    · refine ⟨d.typeName, d.multiplicity, ?_, hcap, hspelled placed hplaced d hd⟩
      rw [hd, ← eq_plain hdec]

theorem readAbstract_readable {name : String} {p : Place} {r : NodeRule}
    (h : readAbstract name p = .ok r) (hname : IsTypeName name) (hp : p.Named)
    (habstract : startsAbstract p = true) : r.Readable := by
  obtain ⟨⟨subtypes, p'⟩, hread, h⟩ := bind_ok h
  obtain ⟨-, -, h⟩ := bind_ok h
  cases h
  obtain ⟨-, -, -, -, hnodup⟩ := readSubtypes_sound hread
  exact .abstract hname (two_le_length_of_startsAbstract hread habstract) hnodup
    (isTypeName_of_readSubtypes hread hp)

theorem readOrdinary_readable {name : String} {p : Place} {r : NodeRule}
    (h : readOrdinary name p = .ok r) (hname : IsTypeName name) (hp : p.Named) : r.Readable := by
  obtain ⟨⟨children, p'⟩, hread, h⟩ := bind_ok h
  obtain ⟨-, -, h⟩ := bind_ok h
  split at h
  · cases h
  rename_i herror
  cases h
  refine readable_of_childrenError? herror hname ?_
  rw [Child.readAll] at hread
  split at hread
  · cases hread
    intro placed hplaced
    cases hplaced
  split at hread
  · cases hread
  rename_i hsome
  cases hread
  exact Child.readSome_spelled hsome hp

theorem ofTokens_readable {name : String} {span : Span} {ts : List Token} {r : NodeRule}
    (h : ofTokens name span ts = .ok r) (hname : Scanner.IsName name.toList)
    (hp : (Place.ofTokens ts).Named) : r.Readable := by
  obtain ⟨u, hcap, h⟩ := bind_ok h
  have hname : IsTypeName name := ⟨requireCapital_ok hcap, hname⟩
  dsimp only at h
  split at h
  · rename_i habstract
    exact readAbstract_readable h hname hp habstract
  · exact readOrdinary_readable h hname hp

end NodeRule

theorem LiteralRule.ofTokens_name {name : String} {span : Span} {ts : List Token}
    {r : LiteralRule} (h : LiteralRule.ofTokens name span ts = .ok r) :
    startsCapital name ∧ r.name = name := by
  obtain ⟨u, hcap, h⟩ := bind_ok h
  obtain ⟨⟨parts, p⟩, -, h⟩ := bind_ok h
  obtain ⟨-, -, h⟩ := bind_ok h
  refine ⟨requireCapital_ok hcap, ?_⟩
  split at h
  · cases h
    rfl
  · cases h

namespace Rule

theorem ofTokens_readable {name : String} {span : Span} {ts : List Token} {rule : Rule}
    (h : ofTokens name span ts = .ok rule) (hname : Scanner.IsName name.toList)
    (hp : (Place.ofTokens ts).Named) : rule.Readable := by
  rw [ofTokens] at h
  split at h
  · obtain ⟨r, hr, rfl⟩ := map_ok h
    obtain ⟨hcap, heq⟩ := LiteralRule.ofTokens_name hr
    exact .literal (heq ▸ ⟨hcap, hname⟩)
  · obtain ⟨r, hr, rfl⟩ := map_ok h
    exact .node (NodeRule.ofTokens_readable hr hname hp)

theorem readName_ok {ts : List Token} {name : String} {span : Span}
    (h : readName ts = .ok (name, span)) : .name name ∈ ts.map Token.kind := by
  unfold readName at h
  split at h
  · cases h
    simp
  · cases h
  · cases h

theorem named_of_tokens {offset : Nat} {cs : List Char} {ts : List Token}
    (h : (Scanner.mk offset cs).tokens = .ok ts) : (Place.ofTokens ts).Named :=
  fun _ hname => Scanner.isName_of_mem_kinds (Scanner.kinds_of_tokens h) hname

/-- Every rule that a line can be read as is readable. -/
theorem ofLine_readable {line : List Char} {rule : Rule} (h : ofLine line = .ok rule) :
    rule.Readable := by
  rw [ofLine] at h
  split at h
  · cases h
  rename_i left right hsplit
  obtain ⟨leftTokens, hleft, h⟩ := bind_ok h
  obtain ⟨⟨name, span⟩, hname, h⟩ := bind_ok h
  obtain ⟨rightTokens, hright, h⟩ := bind_ok h
  have hspelled := named_of_tokens (mapError_ok hleft) name (readName_ok hname)
  exact ofTokens_readable h hspelled (named_of_tokens (mapError_ok hright))

end Rule

end NodeRules
