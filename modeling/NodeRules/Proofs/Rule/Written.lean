import NodeRules.Proofs.Descriptor.Written
import NodeRules.Proofs.Rule.Readable

namespace NodeRules

open Token (Kind)

def Child.kinds : Child → List Kind
  | .empty => [.number 0]
  | .descriptor d => .name d.typeName :: d.multiplicity.kinds

theorem Descriptor.toList_render_plain (name : String) (m : Multiplicity) :
    (Descriptor.plain name m).render.toList = name.toList ++ m.render.toList := by
  simp [Descriptor.plain, Descriptor.render, Descriptor.renderTag, Descriptor.renderParameters,
    Descriptor.renderData]

theorem Child.IsPlain.writes {c : Child} (h : c.IsPlain) :
    Scanner.Writes c.render.toList c.kinds := by
  obtain ⟨name, m, rfl, hname⟩ := h
  have htype := Descriptor.writes_name (Scanner.isName_iff.mp hname.2)
  rw [Child.render, Descriptor.toList_render_plain]
  exact htype.append m.writes m.apart

def EndsChild (k : Kind) : Prop := k = .comma ∨ k = .stop

namespace Child

theorem derives_kinds {c : Child} (hc : c = .empty ∨ c.IsPlain) : Derives c.kinds c := by
  rcases hc with rfl | ⟨name, m, rfl, -⟩
  · exact .empty
  · exact .descriptor (.mk (.name name) .absent .absent m.derives_kinds)

theorem someDerive_kinds (members : List Child) (last : Child)
    (hmembers : ∀ c ∈ members, c = .empty ∨ c.IsPlain) (hlast : last = .empty ∨ last.IsPlain) :
    SomeDerive ((members.flatMap fun c => c.kinds ++ [Kind.comma]) ++ last.kinds)
      (members ++ [last]) := by
  induction members with
  | nil => exact .last (derives_kinds hlast)
  | cons c members ih =>
      have hmore := ih fun d hd => hmembers d (List.mem_cons_of_mem c hd)
      simpa using SomeDerive.more (derives_kinds (hmembers c List.mem_cons_self)) hmore

/-- A list of written children reads as these children. -/
theorem readSome_written {p : Place} (members : List Child) (last : Child)
    (hmembers : ∀ c ∈ members, c = .empty ∨ c.IsPlain) (hlast : last = .empty ∨ last.IsPlain)
    (h : p.kinds = (members.flatMap fun c => c.kinds ++ [Kind.comma]) ++ last.kinds ++ [.stop]) :
    ∃ step, Child.readSome p = .ok step ∧ step.value.map Placed.child = members ++ [last] ∧
      step.rest.kinds = [.stop] :=
  readSome_complete (someDerive_kinds members last hmembers hlast) h (by simp)

end Child

namespace NodeRule

theorem requireCapital_of {name : String} (h : IsTypeName name) (span : Span) :
    requireCapital name span = .ok () := by
  simp [requireCapital, h.1]

theorem intersperse_names (members : List String) (last : String) :
    ((members ++ [last]).map Kind.name).intersperse .bar =
      (members.flatMap fun name => [Kind.name name] ++ [Kind.bar]) ++ [Kind.name last] := by
  induction members with
  | nil => rfl
  | cons name members ih =>
      rw [List.cons_append, List.map_cons, intersperse_cons (by simp), ih]
      rfl

theorem childError?_plain {rule : String} {alone : Bool} {placed : Child.Placed}
    (h : placed.child.IsPlain) : childError? rule alone placed = none := by
  obtain ⟨name, m, hchild, hname⟩ := h
  simp [childError?, hchild, Descriptor.isDecorated, Descriptor.plain, hname.1]

theorem childrenError?_plain {name : String} {children : List Child.Placed} {stop : Span}
    (hne : children ≠ []) (hplain : ∀ placed ∈ children, placed.child.IsPlain)
    (halone : children.length = 1 ∨ ∀ placed ∈ children, placed.child.isList = false) :
    childrenError? name children stop = none := by
  rw [childrenError?_eq stop hne halone]
  exact List.findSome?_eq_none_iff.mpr fun placed hplaced =>
    childError?_plain (hplain placed hplaced)

theorem startsAbstract_number {p : Place} {n : Nat} {ks : List Kind}
    (h : p.kinds = .number n :: ks) : startsAbstract p = false := by
  simp [startsAbstract, Place.kind_eq h]

theorem startsAbstract_name {p : Place} {name : String} {k : Kind} {ks : List Kind}
    (h : p.kinds = .name name :: k :: ks) : startsAbstract p = (k == .bar) := by
  simp [startsAbstract, Place.kind_eq h, Place.kindAfter_eq h]

theorem readOrdinary_written {p : Place} {name : String} (members : List Child) (last : Child)
    (hmembers : ∀ c ∈ members, c = .empty ∨ c.IsPlain) (hlast : last = .empty ∨ last.IsPlain)
    (h : p.kinds = (members.flatMap fun c => c.kinds ++ [Kind.comma]) ++ last.kinds ++ [.stop])
    (hkind : p.kind ≠ .stop)
    (herror : ∀ children stop, children.map Child.Placed.child = members ++ [last] →
      childrenError? name children stop = none) :
    readOrdinary name p = .ok (.ordinary name (members ++ [last])) := by
  obtain ⟨step, hsome, hvalue, hrest⟩ := Child.readSome_written members last hmembers hlast h
  have hall : Child.readAll p = .ok (step.value, step.rest) := by
    simp [Child.readAll, hkind, hsome]
  simp [readOrdinary, hall, Place.demandEnd_ok hrest, herror _ _ hvalue, hvalue, bind, Except.bind,
    pure, Except.pure]

theorem readAbstract_written {p : Place} (name : String) (members : List String) (last : String)
    (htypes : ∀ subtype ∈ members ++ [last], IsTypeName subtype)
    (hnodup : (members ++ [last]).Nodup)
    (h : p.kinds = (members.flatMap fun subtype => [Kind.name subtype] ++ [Kind.bar]) ++
      [Kind.name last] ++ [.stop]) :
    readAbstract name p = .ok (.abstract name (members ++ [last])) := by
  rw [← intersperse_names] at h
  obtain ⟨p', hread, hkinds⟩ := readSubtypes_complete name (by simp)
    (fun subtype hs => (htypes subtype hs).1) hnodup (fun _ _ => List.not_mem_nil) (by simp) h
  simp [readAbstract, hread, Place.demandEnd_ok hkinds, bind, Except.bind, pure, Except.pure]

theorem ofTokens_abstract {name : String} {members : List String} {last : String}
    (hname : IsTypeName name) (hne : members ≠ [])
    (htypes : ∀ subtype ∈ members ++ [last], IsTypeName subtype)
    (hnodup : (members ++ [last]).Nodup) {ts : List Token} (span : Span)
    (h : ts.map Token.kind = (members.flatMap fun subtype => [Kind.name subtype] ++ [Kind.bar]) ++
      [Kind.name last] ++ [.stop]) :
    ofTokens name span ts = .ok (.abstract name (members ++ [last])) := by
  have hstarts : startsAbstract (.ofTokens ts) = true := by
    obtain ⟨first, members, rfl⟩ := List.exists_cons_of_ne_nil hne
    exact startsAbstract_name (p := .ofTokens ts) h
  have hread := readAbstract_written (p := .ofTokens ts) name members last htypes hnodup h
  simp [ofTokens, requireCapital_of hname, hstarts, hread, bind, Except.bind]

theorem startsAbstract_children {p : Place} {members : List Child} {last : Child}
    (hmembers : ∀ c ∈ members, c = .empty ∨ c.IsPlain) (hlast : last = .empty ∨ last.IsPlain)
    (h : p.kinds = (members.flatMap fun c => c.kinds ++ [Kind.comma]) ++ last.kinds ++ [.stop]) :
    startsAbstract p = false ∧ p.kind ≠ .stop := by
  have hfirst (c : Child) (hc : c = .empty ∨ c.IsPlain) (k : Kind) (ks : List Kind)
      (hk : EndsChild k) (heq : p.kinds = c.kinds ++ k :: ks) :
      startsAbstract p = false ∧ p.kind ≠ .stop := by
    rcases hc with rfl | ⟨name, m, rfl, -⟩
    · exact ⟨startsAbstract_number heq, by simp [Place.kind_eq heq]⟩
    · have hplain : p.kinds = .name name :: (m.kinds ++ k :: ks) := heq
      refine ⟨?_, by simp [Place.kind_eq hplain]⟩
      cases m with
      | one =>
          rw [startsAbstract_name hplain]
          rcases hk with rfl | rfl <;> rfl
      | optional => exact startsAbstract_name hplain
      | list => exact startsAbstract_name hplain
  cases members with
  | nil => exact hfirst last hlast .stop [] (.inr rfl) (by simpa using h)
  | cons c members =>
      exact hfirst c (hmembers c List.mem_cons_self) .comma _ (.inl rfl) (by simpa using h)

theorem ofTokens_ordinary {name : String} {members : List Child} {last : Child}
    (hname : IsTypeName name) (hmembers : ∀ c ∈ members, c = .empty ∨ c.IsPlain)
    (hlast : last = .empty ∨ last.IsPlain)
    (herror : ∀ children stop, children.map Child.Placed.child = members ++ [last] →
      childrenError? name children stop = none) {ts : List Token} (span : Span)
    (h : ts.map Token.kind = (members.flatMap fun c => c.kinds ++ [Kind.comma]) ++ last.kinds ++
      [.stop]) :
    ofTokens name span ts = .ok (.ordinary name (members ++ [last])) := by
  have hp : (Place.ofTokens ts).kinds = (members.flatMap fun c => c.kinds ++ [Kind.comma]) ++
      last.kinds ++ [.stop] := h
  obtain ⟨hstarts, hkind⟩ := startsAbstract_children hmembers hlast hp
  have hread := readOrdinary_written members last hmembers hlast hp hkind herror
  simp [ofTokens, requireCapital_of hname, hstarts, hread, bind, Except.bind]

end NodeRule

namespace LiteralRule

theorem readParts_extends {rule : String} {done parts : List String} {p p' : Place}
    (h : readParts rule done p = .ok (parts, p')) : ∃ text more, p.kind.template? = some text ∧
      parts = done ++ text :: more := by
  fun_induction readParts rule done p generalizing parts p' with
  | case1 => cases h
  | case2 done p text htext done' =>
      cases h
      exact ⟨text, [], htext, rfl⟩
  | case3 => cases h
  | case4 done p text htext done' p₁ htake hlen hlt hle =>
      rename_i ih
      obtain ⟨next, more, -, rfl⟩ := ih h
      exact ⟨text, next :: more, htext, by simp [done']⟩

section Steps

variable (rule : String) (done : List String) {p p' : Place} {text : String}

theorem readParts_stop (h : p.kind = .stop) :
    readParts rule done p = .error ⟨.missingPart rule (.ofIndex done.length), p.span, 1⟩ := by
  rw [readParts, h]
  rfl

theorem readParts_mismatch (h : p.kind.template? = none) (hstop : p.kind ≠ .stop) :
    readParts rule done p = .error (p.mismatch (.part (.ofIndex done.length) rule)) := by
  rw [readParts, h]
  dsimp only
  rw [if_neg hstop]

theorem readParts_noComma (h : p.kind.template? = some text)
    (hcomma : p.forward.take? .comma = none) :
    readParts rule done p = .ok (done ++ [text], p.forward) := by
  rw [readParts, h]
  dsimp only
  split
  · rfl
  · rename_i hsome
    rw [hcomma] at hsome
    cases hsome

theorem readParts_comma (h : p.kind.template? = some text)
    (hcomma : p.forward.take? .comma = some p') :
    readParts rule done p =
      if (done ++ [text]).length = 4 then .error ⟨.tooManyParts rule, p'.spanBefore, 1⟩
      else readParts rule (done ++ [text]) p' := by
  rw [readParts, h]
  dsimp only
  split
  · rename_i hnone
    rw [hcomma] at hnone
    cases hnone
  · rename_i p₁ hsome
    rw [hcomma] at hsome
    cases hsome
    rfl

end Steps

theorem readParts_eq (rule : String) (done : List String) {p : Place} {text : String}
    {ks : List Kind} (h : p.kinds = .code text :: .comma :: ks)
    (hlen : (done ++ [text]).length ≠ 4) :
    ∃ p', readParts rule done p = readParts rule (done ++ [text]) p' ∧ p'.kinds = ks := by
  have hforward := Place.kinds_forward h (by simp)
  refine ⟨p.forward.forward, ?_, Place.kinds_forward hforward (by simp)⟩
  rw [readParts_comma rule done (by rw [Place.kind_eq h]; rfl) (Place.take?_eq_some hforward),
    if_neg hlen]

theorem readParts_last (rule : String) (done : List String) {p : Place} {text : String}
    (h : p.kinds = [.code text, .stop]) :
    readParts rule done p = .ok (done ++ [text], p.forward) ∧ p.forward.kinds = [.stop] := by
  have hforward := Place.kinds_forward h (by simp)
  have htake : p.forward.take? .comma = none := Place.take?_eq_none hforward (by simp)
  exact ⟨readParts_noComma rule done (by rw [Place.kind_eq h]; rfl) htake, hforward⟩

/-- The parts in front of the fourth comma are read as they stand, whatever follows them. -/
theorem readParts_members (rule : String) (done members : List String) {p : Place}
    {ks : List Kind} (hlen : (done ++ members).length < 4)
    (h : p.kinds = (members.flatMap fun part => [Kind.code part] ++ [Kind.comma]) ++ ks) :
    ∃ p', readParts rule done p = readParts rule (done ++ members) p' ∧ p'.kinds = ks := by
  induction members generalizing done p with
  | nil => exact ⟨p, by rw [List.append_nil], h⟩
  | cons part members ih =>
      simp only [List.length_append, List.length_cons] at hlen
      obtain ⟨p₁, hstep, hp₁⟩ := readParts_eq rule done h
        (by simp only [List.length_append, List.length_singleton]; omega)
      obtain ⟨p₂, hread, hp₂⟩ := ih (done ++ [part])
        (by simp only [List.length_append, List.length_singleton]; omega) hp₁
      exact ⟨p₂, by rw [hstep, hread, List.append_assoc, List.singleton_append], hp₂⟩

theorem ofTokens_written {name : String} {span : Span} {ts : List Token} {members : List String}
    {last native serializer parser : String} {more : List String} (hname : IsTypeName name)
    (hlen : members.length < 4)
    (hparts : members ++ [last] = native :: serializer :: parser :: more)
    (h : ts.map Token.kind = (members.flatMap fun part => [Kind.code part] ++ [Kind.comma]) ++
      [Kind.code last] ++ [.stop]) :
    ofTokens name span ts = .ok ⟨name, native, serializer, parser, more.head?⟩ := by
  rw [List.append_assoc] at h
  obtain ⟨p, hmembers, hp⟩ := readParts_members name [] members (p := .ofTokens ts) hlen h
  obtain ⟨hlast, hrest⟩ := readParts_last name members hp
  rw [List.nil_append, hlast, hparts] at hmembers
  simp [ofTokens, NodeRule.requireCapital_of hname, hmembers, Place.demandEnd_ok hrest, bind,
    Except.bind, pure, Except.pure]

theorem exists_parts (r : LiteralRule) : ∃ members last, r.parts = members ++ [last] ∧
    members.length < 4 ∧ ∀ {span : Span} {ts : List Token}, IsTypeName r.name →
      ts.map Token.kind = (members.flatMap fun part => [Kind.code part] ++ [Kind.comma]) ++
        [Kind.code last] ++ [.stop] → ofTokens r.name span ts = .ok r := by
  cases r with
  | mk name native serializer parser exception =>
      cases exception with
      | none =>
          refine ⟨[native, serializer], parser, rfl, by simp, ?_⟩
          intro span ts hname h
          exact ofTokens_written hname (by simp) rfl h
      | some exception =>
          refine ⟨[native, serializer, parser], exception, rfl, by simp, ?_⟩
          intro span ts hname h
          exact ofTokens_written hname (by simp) rfl h

/-- A rule that is read behind given parts has these parts, and the next code as its next part. -/
theorem parts_of_ofTokens {name : String} {span : Span} {ts : List Token} {r : LiteralRule}
    {members : List String} {text : String} {ks : List Kind} (hlen : members.length < 4)
    (h : ts.map Token.kind = (members.flatMap fun part => [Kind.code part] ++ [Kind.comma]) ++
      .code text :: ks)
    (hread : ofTokens name span ts = .ok r) : ∃ more, r.parts = members ++ text :: more := by
  obtain ⟨-, -, hread⟩ := bind_ok hread
  obtain ⟨⟨parts, p'⟩, hparts, hread⟩ := bind_ok hread
  obtain ⟨-, -, hread⟩ := bind_ok hread
  obtain ⟨p, heq, hp⟩ := readParts_members name [] members (p := .ofTokens ts) hlen h
  rw [heq] at hparts
  obtain ⟨text', more, htext, rfl⟩ := readParts_extends hparts
  rw [Place.kind_eq hp] at htext
  obtain rfl : text = text' := Option.some.inj htext
  split at hread
  · rename_i native serializer parser rest hrest
    cases hread
    have htake : (LiteralRule.mk name native serializer parser rest.head?).parts =
        (members ++ text :: more).take 4 := by
      rw [List.nil_append] at hrest
      rw [hrest]
      cases rest <;> simp [parts]
    refine ⟨more.take (3 - members.length), ?_⟩
    rw [htake, List.take_append, List.take_of_length_le (by omega)]
    rw [show 4 - members.length = (3 - members.length) + 1 by omega, List.take_succ_cons]
  · cases hread

end LiteralRule

end NodeRules
