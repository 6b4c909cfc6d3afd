import NodeRules.Proofs.Descriptor.Extents
import NodeRules.Proofs.First
import NodeRules.Proofs.Rule.Readable
import NodeRules.Proofs.Token.Names

namespace NodeRules

def StartsCapital (s : String) : Prop := ∃ c cs, s.toList = c :: cs ∧ IsCapital c

theorem startsCapital_iff {s : String} : startsCapital s = true ↔ StartsCapital s := by
  rw [startsCapital, StartsCapital]
  cases s.toList with
  | nil => simp
  | cons c cs => simp [isCapital_iff]

def Descriptor.Decorated (d : Descriptor) : Prop :=
  d.tag ≠ none ∨ d.parameters ≠ [] ∨ d.data ≠ none

theorem Descriptor.isDecorated_iff {d : Descriptor} : d.isDecorated = true ↔ d.Decorated := by
  simp [isDecorated, Decorated, or_assoc, Option.isSome_iff_ne_none]

namespace NodeRule

section Children

variable {rule : String} {stop : Span} {children : List Child.Placed} {e : ReadError}

inductive Offends (rule : String) (count : Nat) : Child → ReadError.Cause → Prop
  | empty (hmany : 1 < count) : Offends rule count .empty (.emptyNotAlone rule)
  | decorated {d : Descriptor} (h : d.Decorated) :
      Offends rule count (.descriptor d) (.decorated d)
  | small {d : Descriptor} (hplain : ¬ d.Decorated) (h : ¬ StartsCapital d.typeName) :
      Offends rule count (.descriptor d) (.nameNotCapital d.typeName)

inductive Refuses (rule : String) (stop : Span) : List Child.Placed → ReadError → Prop
  | nothing : Refuses rule stop [] ⟨.noDescriptor rule, stop, 1⟩
  | list {children : List Child.Placed} {placed : Child.Placed} (hmany : 1 < children.length)
      (hfirst : First (fun _ placed => placed.child.isList = true) children placed) :
      Refuses rule stop children ⟨.listNotAlone rule, placed.span, 1⟩
  | child {children : List Child.Placed} {placed : Child.Placed} {cause : ReadError.Cause}
      (halone : children.length = 1 ∨ ∀ placed ∈ children, placed.child.isList = false)
      (hfirst : First (fun _ placed => ∃ cause, Offends rule children.length placed.child cause)
        children placed)
      (hcause : Offends rule children.length placed.child cause) :
      Refuses rule stop children ⟨cause, placed.span, 1⟩

theorem childError?_eq_some_iff {count : Nat} (hcount : 0 < count) {placed : Child.Placed} :
    childError? rule (count == 1) placed = some e ↔
      ∃ cause, Offends rule count placed.child cause ∧ e = ⟨cause, placed.span, 1⟩ := by
  obtain ⟨child, span⟩ := placed
  cases child with
  | empty =>
      by_cases hone : count = 1
      · simp only [childError?, hone, beq_self_eq_true, if_true]
        constructor
        · intro h
          cases h
        · rintro ⟨cause, hoff, -⟩
          cases hoff
          omega
      · simp only [childError?, beq_eq_false_iff_ne.mpr hone, Bool.false_eq_true, if_false]
        constructor
        · intro h
          cases h
          exact ⟨_, .empty (by omega), rfl⟩
        · rintro ⟨cause, hoff, rfl⟩
          cases hoff
          rfl
  | descriptor d =>
      simp only [childError?]
      constructor
      · intro h
        split at h
        · rename_i hdecorated
          cases h
          exact ⟨_, .decorated (Descriptor.isDecorated_iff.mp hdecorated), rfl⟩
        split at h
        · cases h
        · rename_i hplain hsmall
          cases h
          rw [Descriptor.isDecorated_iff] at hplain
          rw [startsCapital_iff] at hsmall
          exact ⟨_, .small hplain hsmall, rfl⟩
      · rintro ⟨cause, hoff, rfl⟩
        cases hoff with
        | decorated hdecorated => rw [if_pos (Descriptor.isDecorated_iff.mpr hdecorated)]
        | small hplain hsmall =>
            rw [if_neg (mt Descriptor.isDecorated_iff.mp hplain),
              if_neg (mt startsCapital_iff.mp hsmall)]

theorem childrenError?_list {placed : Child.Placed} (hmany : 1 < children.length)
    (hfirst : First (fun _ placed => placed.child.isList = true) children placed) :
    childrenError? rule children stop = some ⟨.listNotAlone rule, placed.span, 1⟩ := by
  have hne : children ≠ [] := List.ne_nil_of_length_pos (by omega)
  have hlist : (if children.length == 1 then none else children.find? (·.child.isList)) =
      some placed := by
    rw [find?_eq_some_iff_first.mpr hfirst, if_neg]
    simpa using (by omega : children.length ≠ 1)
  simp only [childrenError?, List.isEmpty_iff, hne, if_false, hlist]

theorem childrenError?_child_iff (hne : children ≠ [])
    (halone : children.length = 1 ∨ ∀ placed ∈ children, placed.child.isList = false) :
    childrenError? rule children stop = some e ↔ Refuses rule stop children e := by
  have hpos := List.length_pos_iff.mpr hne
  have hoffends : (fun (_ : List Child.Placed) (placed : Child.Placed) =>
      ∃ e, childError? rule (children.length == 1) placed = some e) =
        fun _ placed => ∃ cause, Offends rule children.length placed.child cause := by
    funext _ placed
    apply propext
    simp [childError?_eq_some_iff hpos]
  rw [childrenError?_eq stop hne halone, findSome?_eq_some_iff_first, hoffends]
  constructor
  · rintro ⟨placed, hfirst, herror⟩
    obtain ⟨cause, hcause, rfl⟩ := (childError?_eq_some_iff hpos).mp herror
    exact .child halone hfirst hcause
  · intro h
    cases h with
    | nothing => exact absurd rfl hne
    | list hmany hfirst =>
        obtain ⟨hmem, hlist⟩ := hfirst.holds
        rcases halone with hone | hnone
        · omega
        · rw [hnone _ hmem] at hlist
          cases hlist
    | child _ hfirst hcause =>
        exact ⟨_, hfirst, (childError?_eq_some_iff hpos).mpr ⟨_, hcause, rfl⟩⟩

theorem childrenError?_eq_some_iff :
    childrenError? rule children stop = some e ↔ Refuses rule stop children e := by
  by_cases hne : children = []
  · subst hne
    constructor
    · intro h
      cases h
      exact .nothing
    · intro h
      cases h with
      | nothing => rfl
      | list hmany => simp at hmany
      | child _ hfirst => cases hfirst.holds.1
  by_cases halone : children.length = 1 ∨ ∀ placed ∈ children, placed.child.isList = false
  · exact childrenError?_child_iff hne halone
  have hpos := List.length_pos_iff.mpr hne
  obtain ⟨hone, hlist⟩ := not_or.mp halone
  have hmany : 1 < children.length := by omega
  obtain ⟨placed, hfirst⟩ : ∃ placed,
      First (fun _ placed => placed.child.isList = true) children placed := by
    apply exists_first
    push Not at hlist
    simpa using hlist
  rw [childrenError?_list hmany hfirst]
  constructor
  · intro h
    cases h
    exact .list hmany hfirst
  · intro h
    cases h with
    | nothing => exact absurd rfl hne
    | list _ hother => rw [hfirst.unique hother]
    | child hother => exact absurd hother halone

end Children

section Lines

variable {name : String} {ts : List Token}

/-- The line starts with a name and a bar. -/
def StartsWithBar (ts : List Token) : Prop :=
  ∃ first ks, ts.map Token.kind = .name first :: .bar :: ks

theorem ofTokens_of_capital (h : StartsCapital name) (span : Span) :
    (StartsWithBar ts → ofTokens name span ts = readAbstract name (.ofTokens ts)) ∧
      (¬ StartsWithBar ts → ofTokens name span ts = readOrdinary name (.ofTokens ts)) := by
  have hcapital : requireCapital name span = .ok () := by
    rw [requireCapital, if_pos (startsCapital_iff.mpr h)]
  constructor
  · intro hbar
    have hstarts : startsAbstract (.ofTokens ts) = true := startsAbstract_iff.mpr hbar
    simp [ofTokens, hcapital, hstarts, bind, Except.bind]
  · intro hbar
    have hstarts : ¬ startsAbstract (.ofTokens ts) = true := mt startsAbstract_iff.mp hbar
    simp [ofTokens, hcapital, hstarts, bind, Except.bind]

theorem readAbstract_ok_iff (hbar : StartsWithBar ts) {r : NodeRule} :
    readAbstract name (.ofTokens ts) = .ok r ↔
      ∃ subtypes, Token.lineKinds ts = (subtypes.map Token.Kind.name).intersperse .bar ∧
        2 ≤ subtypes.length ∧ (∀ subtype ∈ subtypes, StartsCapital subtype) ∧ subtypes.Nodup ∧
        r = .abstract name subtypes := by
  have hstarts : startsAbstract (.ofTokens ts) = true := startsAbstract_iff.mpr hbar
  constructor
  · intro h
    obtain ⟨⟨subtypes, p⟩, hread, h⟩ := bind_ok h
    obtain ⟨u, hend, h⟩ := bind_ok h
    cases h
    obtain ⟨-, hkinds, -, hall, hnodup⟩ := readSubtypes_sound hread
    have hline : Token.lineKinds ts = (subtypes.map Token.Kind.name).intersperse .bar := by
      apply Token.lineKinds_eq hkinds
      · intro hstop
        rcases mem_of_mem_intersperse hstop with hstop | hstop
        · simp at hstop
        · cases hstop
      · exact Place.kind_eq_stop_iff.mp (Place.kind_of_demandEnd hend)
    refine ⟨subtypes, hline, two_le_length_of_startsAbstract hread hstarts, ?_, hnodup, rfl⟩
    exact fun subtype hs => startsCapital_iff.mp (hall subtype hs).1
  · rintro ⟨subtypes, hline, htwo, hall, hnodup, rfl⟩
    obtain ⟨rest, hts, hrest⟩ := Token.exists_lineKinds ts
    rw [hline] at hts
    have hne : subtypes ≠ [] := List.ne_nil_of_length_pos (by omega)
    have hbar : rest.head? ≠ some .bar := by
      intro hhead
      cases hrest _ hhead
    obtain ⟨p, hread, hp⟩ := readSubtypes_complete name hne
      (fun subtype hs => startsCapital_iff.mpr (hall subtype hs)) hnodup
      (fun _ _ => List.not_mem_nil) hbar (p := .ofTokens ts) hts
    have hend : p.kind = .stop := by
      rw [Place.kind_eq_stop_iff, hp]
      exact hrest
    simp [readAbstract, hread, Place.demandEnd, hend, bind, Except.bind, pure, Except.pure]

theorem readOrdinary_eq {children : List Child.Placed}
    (h : Child.ListPlaced (Token.line ts) children) :
    readOrdinary name (.ofTokens ts) =
      match childrenError? name children (Place.lineEnd ts).span with
      | some e => .error e
      | none => .ok (.ordinary name (children.map Child.Placed.child)) := by
  have hend : (Place.lineEnd ts).demandEnd = .ok () := by
    rw [Place.demandEnd, if_pos (Place.kind_lineEnd ts)]
  rw [readOrdinary, Child.readAll_eq h]
  change (Place.lineEnd ts).demandEnd >>= _ = _
  rw [hend]
  rfl

theorem readOrdinary_error {e : ReadError} (h : Child.ofTokens ts = .error e) :
    readOrdinary name (.ofTokens ts) = .error e := by
  rcases bind_error h with hread | ⟨⟨children, p⟩, hread, h⟩
  · rw [readOrdinary, hread]
    rfl
  rcases bind_error h with hend | ⟨u, -, h⟩
  · rw [readOrdinary, hread]
    change p.demandEnd >>= _ = _
    rw [hend]
    rfl
  · cases h

end Lines

/-- A rule whose name starts with no capital letter is refused. If a name and a bar come first, the
line has to be a list of subtypes. If not, it has to be a list of children that may stand
together. -/
theorem ofTokens_accepts_exactly (name : String) (span : Span) (ts : List Token) :
    (¬ StartsCapital name → ofTokens name span ts = .error ⟨.nameNotCapital name, span, 1⟩) ∧
    (StartsCapital name → StartsWithBar ts → ∀ r, ofTokens name span ts = .ok r ↔
      ∃ subtypes, Token.lineKinds ts = (subtypes.map Token.Kind.name).intersperse .bar ∧
        2 ≤ subtypes.length ∧ (∀ subtype ∈ subtypes, StartsCapital subtype) ∧ subtypes.Nodup ∧
        r = .abstract name subtypes) ∧
    (StartsCapital name → ¬ StartsWithBar ts →
      (∀ cs, Child.ListDerives (Token.lineKinds ts) cs → ∃ children,
        (∀ other, Child.ListPlaced (Token.line ts) other ↔ other = children) ∧
        children.map Child.Placed.child = cs ∧
        (∀ e, ofTokens name span ts = .error e ↔
          Refuses name (Place.lineEnd ts).span children e) ∧
        ∀ r, ofTokens name span ts = .ok r ↔
          (∀ e, ¬ Refuses name (Place.lineEnd ts).span children e) ∧ r = .ordinary name cs) ∧
      ((¬ ∃ cs, Child.ListDerives (Token.lineKinds ts) cs) →
        ∃ p expected, (Place.ofTokens ts).Reaches p ∧
          Child.ofTokens ts = .error ⟨.unexpectedToken expected p.kind, p.span, 1⟩ ∧
          ofTokens name span ts = .error ⟨.unexpectedToken expected p.kind, p.span, 1⟩)) := by
  refine ⟨?_, ?_, ?_⟩
  · intro h
    simp [ofTokens, requireCapital, mt startsCapital_iff.mp h, bind, Except.bind]
  · intro h hbar r
    rw [(ofTokens_of_capital h span).1 hbar]
    exact readAbstract_ok_iff hbar
  · intro h hbar
    rw [(ofTokens_of_capital h span).2 hbar]
    constructor
    · intro cs hcs
      obtain ⟨children, hplaced, rfl⟩ := hcs.exists_placed
      refine ⟨children, hplaced, rfl, ?_⟩
      rw [readOrdinary_eq ((hplaced children).mpr rfl)]
      simp only [← childrenError?_eq_some_iff]
      cases childrenError? name children (Place.lineEnd ts).span with
      | none => simp [eq_comm]
      | some e => simp
    · intro hnone
      obtain ⟨p, expected, hp, hfails⟩ := Child.ofTokens_fails hnone
      exact ⟨p, expected, hp, hfails, readOrdinary_error hfails⟩

def crowdedTokens : List Token :=
  [⟨.name "Name", ⟨0, 4⟩⟩, ⟨.comma, ⟨4, 5⟩⟩, ⟨.number 0, ⟨6, 7⟩⟩, ⟨.comma, ⟨7, 8⟩⟩,
    ⟨.name "Stmt", ⟨9, 13⟩⟩, ⟨.star, ⟨13, 14⟩⟩]

/-- The item `0` comes first, but the list is what the rule is refused for. -/
theorem ofTokens_accepts_exactly_crowded :
    ∃ children, Child.ListPlaced (Token.line crowdedTokens) children ∧
      Refuses "Block" .nowhere children ⟨.listNotAlone "Block", ⟨9, 14⟩, 1⟩ ∧
      ofTokens "Block" ⟨0, 5⟩ crowdedTokens = .error ⟨.listNotAlone "Block", ⟨9, 14⟩, 1⟩ := by
  have hcapital : StartsCapital "Block" := startsCapital_iff.mp (by decide)
  have hbar : ¬ StartsWithBar crowdedTokens := by
    rintro ⟨first, ks, h⟩
    simp [crowdedTokens] at h
  have hread : Child.ofTokens crowdedTokens =
      .ok [.descriptor (.plain "Name" .one), .empty, .descriptor (.plain "Stmt" .list)] := by
    with_unfolding_all rfl
  have herror : ofTokens "Block" ⟨0, 5⟩ crowdedTokens =
      .error ⟨.listNotAlone "Block", ⟨9, 14⟩, 1⟩ := by with_unfolding_all rfl
  obtain ⟨children, hplaced, -, hrefuses, -⟩ :=
    ((ofTokens_accepts_exactly "Block" ⟨0, 5⟩ crowdedTokens).2.2 hcapital hbar).1 _
      (Child.listDerives_of_ofTokens hread)
  exact ⟨children, (hplaced children).mpr rfl, (hrefuses _).mp herror, herror⟩

end NodeRule

end NodeRules
