import NodeRules.Proofs.Scope.Chains

namespace NodeRules

namespace Program

def bases (p : Program) (language name : String) : List String :=
  Rule.basesAmong (p.visibleRules language) name

def firstBase (p : Program) (language name : String) : Option String :=
  (p.bases language name).head?

def Unknown (p : Program) (language name : String) : Prop :=
  ¬ p.Declares language name ∧ ¬ p.Declares commonLanguage name

def ListsUnknown (p : Program) (language : String) (rule : Rule) : Prop :=
  rule.isAbstract ∧ ∃ name ∈ rule.subtypes, p.Unknown language name

/-- The walk along first bases from the type of the rule never ends. -/
def Loops (p : Program) (language : String) (rule : Rule) : Prop :=
  Endless (p.firstBase language) rule.name

end Program

variable {p : Program} {language : String}

theorem unknown_iff {name : String} :
    ¬ ((Declared.ofEntries language p.entries).origin? name).isSome ↔ p.Unknown language name := by
  rw [Declared.origin?_isSome, Program.Unknown, not_or]

theorem unresolved_eq :
    NameTable.Unresolved (Declared.ofEntries language p.entries) = p.ListsUnknown language := by
  funext rule
  apply propext
  simp only [NameTable.Unresolved, unknown_iff, Program.ListsUnknown]
  constructor
  · rintro ⟨name, hname, hu⟩
    exact ⟨Rule.isAbstract_of_mem_subtypes hname, name, hname, hu⟩
  · rintro ⟨-, h⟩
    exact h

theorem mem_bases_declared {name base : String} (h : base ∈ p.bases language name) :
    ((Declared.ofEntries language p.entries).origin? base).isSome := by
  obtain ⟨rule, hr, -, -, hname⟩ := Rule.mem_basesAmong.mp h
  rw [Declared.origin?_isSome]
  exact Program.exists_visibleRules_name.mp ⟨rule, hr, hname⟩

/-- A chain has no more members than there are types, so the bound of the walk is large enough. -/
theorem chain_length_le {name : String} {chain : List String}
    (h : Chain (p.firstBase language) name chain) :
    chain.length ≤ (Declared.ofEntries language p.entries).size := by
  apply Declared.length_le_size h.nodup
  intro base hbase
  obtain ⟨other, hnext⟩ := h.exists_next hbase
  exact mem_bases_declared (List.mem_of_mem_head? hnext)

structure Scope.Describes (s : Scope) (p : Program) (language : String) : Prop where
  language_eq : s.language = language
  declared_eq : s.declared = Declared.ofEntries language p.entries
  rules_eq : s.rules = p.visibleRules language
  bases_eq : ∀ name, s.bases name = p.bases language name
  chain : ∀ name, Chain (p.firstBase language) name (s.hierarchy name)
  nodup : ((p.visibleRules language).map Rule.name).Nodup

theorem bases_of_not_visible {name : String}
    (hresolved : ∀ rule ∈ p.visibleRules language, ¬ p.ListsUnknown language rule)
    (hname : ¬ ∃ rule ∈ p.visibleRules language, rule.name = name) :
    p.bases language name = [] := by
  rw [List.eq_nil_iff_forall_not_mem]
  intro base hbase
  obtain ⟨rule, hr, ha, hs, -⟩ := Rule.mem_basesAmong.mp hbase
  rw [Program.exists_visibleRules_name, not_or] at hname
  exact hresolved rule hr ⟨ha, name, hs, hname⟩

theorem chainTable_chain {chains : NameTable}
    (hresolved : ∀ rule ∈ p.visibleRules language, ¬ p.ListsUnknown language rule)
    (hchains : ∀ name chain, chains.lookup name = some chain →
      Chain (p.firstBase language) name chain)
    (hlookup : ∀ name, (chains.lookup name).isSome ↔
      ∃ rule ∈ p.visibleRules language, rule.name = name)
    (name : String) : Chain (p.firstBase language) name (chains.get name) := by
  cases hl : chains.lookup name with
  | some chain => simpa [NameTable.get, hl] using hchains name chain hl
  | none =>
      have hnot : ¬ ∃ rule ∈ p.visibleRules language, rule.name = name := by
        rw [← hlookup, hl]
        simp
      have hbases := bases_of_not_visible hresolved hnot
      simpa [NameTable.get, hl] using Chain.root (by rw [Program.firstBase, hbases]; rfl)

theorem Scope.ofProgram_cases (p : Program) (language : String) :
    (∃ e, First (Entry.Repeats language) p.entries e ∧
      Scope.ofProgram p language = .error (.duplicateType e.name e.language)) ∨
    (¬ p.Repeats language ∧ ∃ rule name,
      First (fun _ => p.ListsUnknown language) (p.visibleRules language) rule ∧
      First (fun _ => p.Unknown language) rule.subtypes name ∧
      Scope.ofProgram p language = .error (.unresolvedType name rule.name language)) ∨
    (¬ p.Repeats language ∧ (∀ rule ∈ p.visibleRules language, ¬ p.ListsUnknown language rule) ∧
      ∃ rule, First (fun _ => p.Loops language) (p.visibleRules language) rule ∧
      Scope.ofProgram p language = .error (.cyclicHierarchy rule.name)) ∨
    (¬ p.Repeats language ∧ (∀ rule ∈ p.visibleRules language, ¬ p.ListsUnknown language rule) ∧
      (∀ rule ∈ p.visibleRules language, ¬ p.Loops language rule) ∧
      ∃ s, Scope.ofProgram p language = .ok s ∧ s.Describes p language) := by
  have hempty : Declared.empty = Declared.ofEntries language [] := rfl
  rcases Declared.addAll_cases language [] p.entries with ⟨e, he, hadd⟩ | ⟨hnone, hadd⟩
  · exact .inl ⟨e, he, by simp [Scope.ofProgram, hempty, hadd, bind, Except.bind]⟩
  have hrep : ¬ p.Repeats language := by
    rintro ⟨before, e, after, he, hr⟩
    exact hnone before e after he hr
  have hnodup := Program.nodup_visibleRules hrep
  rw [List.nil_append] at hadd
  rcases NameTable.addRules_cases language (Declared.ofEntries language p.entries) []
      [] (p.visibleRules language) hnodup (fun _ => rfl) with
    ⟨rule, name, hrule, hname, hres⟩ | ⟨hall, bases, hres, hget⟩
  · rw [unresolved_eq] at hrule
    simp only [unknown_iff] at hname
    refine .inr (.inl ⟨hrep, rule, name, hrule, hname, ?_⟩)
    simp [Scope.ofProgram, hempty, hadd, Declared.visibleRules_ofEntries, hres, bind, Except.bind]
  rw [unresolved_eq] at hall
  have hfirst : bases.firstBase = p.firstBase language := by
    funext name
    exact congrArg List.head? (hget name)
  have hknown : NameTable.Known bases [] := by
    intro name chain h
    cases h
  rcases NameTable.addChains_cases (p.visibleRules language) hknown
      (fun _ _ hchain => chain_length_le (hfirst ▸ hchain)) with
    ⟨rule, hrule, hres'⟩ | ⟨hend, chains, hres', hchains, hlookup⟩
  · rw [hfirst] at hrule
    refine .inr (.inr (.inl ⟨hrep, hall, rule, hrule, ?_⟩))
    simp [Scope.ofProgram, hempty, hadd, Declared.visibleRules_ofEntries, hres, hres', bind,
      Except.bind]
  · rw [hfirst] at hend
    rw [NameTable.Known, hfirst] at hchains
    refine .inr (.inr (.inr ⟨hrep, hall, hend, ⟨language, Declared.ofEntries language p.entries,
      p.visibleRules language, bases, chains⟩, ?_, ?_⟩))
    · simp [Scope.ofProgram, hempty, hadd, Declared.visibleRules_ofEntries, hres, hres', bind,
        Except.bind, pure, Except.pure]
    · exact ⟨rfl, rfl, rfl, hget, chainTable_chain hall hchains (by simpa using hlookup), hnodup⟩

theorem Scope.describes {s : Scope} (h : Scope.ofProgram p language = .ok s) :
    s.Describes p language := by
  rcases Scope.ofProgram_cases p language with ⟨e, -, he⟩ | ⟨-, rule, name, -, -, he⟩ |
    ⟨-, -, rule, -, he⟩ | ⟨-, -, -, s', he, hs⟩
  · rw [h] at he; cases he
  · rw [h] at he; cases he
  · rw [h] at he; cases he
  · rw [h] at he; cases he; exact hs

theorem First.repeats {e : Entry} (h : First (Entry.Repeats language) p.entries e) :
    p.Repeats language := by
  obtain ⟨before, after, he, hr⟩ := h.exists_split
  exact ⟨before, e, after, he, hr⟩

theorem First.listsUnknown {rule : Rule}
    (h : First (fun _ => p.ListsUnknown language) (p.visibleRules language) rule) :
    ¬ ∀ rule ∈ p.visibleRules language, ¬ p.ListsUnknown language rule :=
  fun hall => hall rule h.holds.1 h.holds.2

theorem First.loops {rule : Rule}
    (h : First (fun _ => p.Loops language) (p.visibleRules language) rule) :
    ¬ ∀ rule ∈ p.visibleRules language, ¬ p.Loops language rule :=
  fun hall => hall rule h.holds.1 h.holds.2

namespace Scope

theorem ofProgram_duplicate_iff {name origin : String} :
    ofProgram p language = .error (.duplicateType name origin) ↔
      ∃ e, First (Entry.Repeats language) p.entries e ∧ e.name = name ∧ e.language = origin := by
  rcases ofProgram_cases p language with ⟨e, he, heq⟩ | ⟨hrep, rule, other, -, -, heq⟩ |
    ⟨hrep, -, rule, -, heq⟩ | ⟨hrep, -, -, s, heq, -⟩
  · rw [heq]
    constructor
    · intro h
      cases h
      exact ⟨e, he, rfl, rfl⟩
    · rintro ⟨d, hd, rfl, rfl⟩
      rw [he.unique hd]
  all_goals
    rw [heq]
    constructor
    · intro h; cases h
    · rintro ⟨d, hd, -, -⟩; exact absurd hd.repeats hrep

theorem ofProgram_unresolved_iff {name rule scope : String} :
    ofProgram p language = .error (.unresolvedType name rule scope) ↔
      ¬ p.Repeats language ∧ scope = language ∧
        ∃ r, First (fun _ => p.ListsUnknown language) (p.visibleRules language) r ∧
          First (fun _ => p.Unknown language) r.subtypes name ∧ r.name = rule := by
  rcases ofProgram_cases p language with ⟨e, he, heq⟩ | ⟨hrep, r, other, hr, hother, heq⟩ |
    ⟨-, hall, r, -, heq⟩ | ⟨-, hall, -, s, heq, -⟩
  · rw [heq]
    constructor
    · intro h; cases h
    · rintro ⟨hrep, -⟩; exact absurd he.repeats hrep
  · rw [heq]
    constructor
    · intro h
      cases h
      exact ⟨hrep, rfl, r, hr, hother, rfl⟩
    · rintro ⟨-, rfl, r', hr', hname, rfl⟩
      obtain rfl := hr.unique hr'
      rw [hother.unique hname]
  all_goals
    rw [heq]
    constructor
    · intro h; cases h
    · rintro ⟨-, -, r', hr', -, -⟩; exact absurd hall hr'.listsUnknown

theorem ofProgram_cyclic_iff {name : String} :
    ofProgram p language = .error (.cyclicHierarchy name) ↔
      ¬ p.Repeats language ∧
        (∀ rule ∈ p.visibleRules language, ¬ p.ListsUnknown language rule) ∧
        ∃ rule, First (fun _ => p.Loops language) (p.visibleRules language) rule ∧
          rule.name = name := by
  rcases ofProgram_cases p language with ⟨e, he, heq⟩ | ⟨-, r, other, hr, -, heq⟩ |
    ⟨hrep, hall, r, hr, heq⟩ | ⟨-, -, hend, s, heq, -⟩
  · rw [heq]
    constructor
    · intro h; cases h
    · rintro ⟨hrep, -⟩; exact absurd he.repeats hrep
  · rw [heq]
    constructor
    · intro h; cases h
    · rintro ⟨-, hall, -⟩; exact absurd hall hr.listsUnknown
  · rw [heq]
    constructor
    · intro h
      cases h
      exact ⟨hrep, hall, r, hr, rfl⟩
    · rintro ⟨-, -, r', hr', rfl⟩
      rw [hr.unique hr']
  · rw [heq]
    constructor
    · intro h; cases h
    · rintro ⟨-, -, r', hr', -⟩; exact absurd hend hr'.loops

theorem ofProgram_ok_iff :
    (∃ s, ofProgram p language = .ok s) ↔
      ¬ p.Repeats language ∧
        (∀ rule ∈ p.visibleRules language, ¬ p.ListsUnknown language rule) ∧
        ∀ rule ∈ p.visibleRules language, ¬ p.Loops language rule := by
  rcases ofProgram_cases p language with ⟨e, he, heq⟩ | ⟨-, r, other, hr, -, heq⟩ |
    ⟨-, -, r, hr, heq⟩ | ⟨hrep, hall, hend, s, heq, -⟩
  · rw [heq]
    constructor
    · rintro ⟨s, h⟩; cases h
    · rintro ⟨hrep, -⟩; exact absurd he.repeats hrep
  · rw [heq]
    constructor
    · rintro ⟨s, h⟩; cases h
    · rintro ⟨-, hall, -⟩; exact absurd hall hr.listsUnknown
  · rw [heq]
    constructor
    · rintro ⟨s, h⟩; cases h
    · rintro ⟨-, -, hend⟩; exact absurd hend hr.loops
  · exact ⟨fun _ => ⟨hrep, hall, hend⟩, fun _ => ⟨s, heq⟩⟩

/-- A scope is rejected for the first repeated declaration; without one, for the first unknown
subtype of the first rule that lists one; without these, for the first rule whose walk along first
bases never ends; and it is accepted otherwise. -/
theorem ofProgram_rejects_exactly (p : Program) (language : String) :
    (∀ name origin, ofProgram p language = .error (.duplicateType name origin) ↔
      ∃ e, First (Entry.Repeats language) p.entries e ∧ e.name = name ∧ e.language = origin) ∧
    (∀ name rule scope, ofProgram p language = .error (.unresolvedType name rule scope) ↔
      ¬ p.Repeats language ∧ scope = language ∧
        ∃ r, First (fun _ => p.ListsUnknown language) (p.visibleRules language) r ∧
          First (fun _ => p.Unknown language) r.subtypes name ∧ r.name = rule) ∧
    (∀ name, ofProgram p language = .error (.cyclicHierarchy name) ↔
      ¬ p.Repeats language ∧
        (∀ rule ∈ p.visibleRules language, ¬ p.ListsUnknown language rule) ∧
        ∃ rule, First (fun _ => p.Loops language) (p.visibleRules language) rule ∧
          rule.name = name) ∧
    ((∃ s, ofProgram p language = .ok s) ↔
      ¬ p.Repeats language ∧
        (∀ rule ∈ p.visibleRules language, ¬ p.ListsUnknown language rule) ∧
        ∀ rule ∈ p.visibleRules language, ¬ p.Loops language rule) :=
  ⟨fun _ _ => ofProgram_duplicate_iff, fun _ _ _ => ofProgram_unresolved_iff,
    fun _ => ofProgram_cyclic_iff, ofProgram_ok_iff⟩

theorem Describes.hierarchy_eq {s : Scope} (h : s.Describes p language) (name : String) :
    s.hierarchy name =
      match s.bases name with
      | [] => []
      | base :: _ => s.hierarchy base ++ [base] := by
  have hnext : p.firstBase language name = (s.bases name).head? := by
    rw [h.bases_eq]
    rfl
  cases hb : s.bases name with
  | nil => exact (h.chain name).eq_nil (by rw [hnext, hb]; rfl)
  | cons base rest =>
      exact (h.chain name).unique (.step (by rw [hnext, hb]; rfl) (h.chain base))

/-- In an accepted scope the bases of a type are the visible abstract rules that list it, and its
hierarchy is the hierarchy of its first base with that base behind it. -/
theorem bases_and_hierarchy {s : Scope} (h : ofProgram p language = .ok s) (name : String) :
    s.bases name = ((p.visibleRules language).filter fun rule =>
      rule.isAbstract && decide (name ∈ rule.subtypes)).map Rule.name ∧
    (s.bases name).Nodup ∧
    (s.hierarchy name =
      match s.bases name with
      | [] => []
      | base :: _ => s.hierarchy base ++ [base]) ∧
    (s.hierarchy name).Nodup ∧ name ∉ s.hierarchy name := by
  have hs := describes h
  refine ⟨hs.bases_eq name, ?_, hs.hierarchy_eq name, (hs.chain name).nodup,
    (hs.chain name).not_mem⟩
  rw [hs.bases_eq]
  exact Rule.nodup_basesAmong hs.nodup name

/-- A language adds a base to common types, in the middle of a chain of three. -/
def layered : Program := .ofEntries
  [⟨"common", .node (.abstract "Expression" ["Boolean", "Sum"])⟩,
    ⟨"java", .node (.abstract "Boolean" ["True", "Sum"])⟩,
    ⟨"common", .node (.ordinary "True" [.empty])⟩, ⟨"common", .node (.ordinary "Sum" [.empty])⟩]

theorem bases_and_hierarchy_of_layered :
    ∃ s, ofProgram layered "java" = .ok s ∧ s.bases "Sum" = ["Expression", "Boolean"] ∧
      s.hierarchy "True" = ["Expression", "Boolean"] ∧ "True" ∉ s.hierarchy "True" := by
  obtain ⟨s, hs⟩ : ∃ s, ofProgram layered "java" = .ok s := ⟨_, rfl⟩
  have hbases (name : String) := (bases_and_hierarchy hs name).1
  have hchain (name : String) := (bases_and_hierarchy hs name).2.2.1
  refine ⟨s, hs, (hbases "Sum").trans (by decide), ?_, (bases_and_hierarchy hs "True").2.2.2.2⟩
  have htrue : s.bases "True" = ["Boolean"] := (hbases "True").trans (by decide)
  have hboolean : s.bases "Boolean" = ["Expression"] := (hbases "Boolean").trans (by decide)
  have hexpression : s.bases "Expression" = [] := (hbases "Expression").trans (by decide)
  rw [hchain, htrue]
  dsimp only
  rw [hchain, hboolean]
  dsimp only
  rw [hchain, hexpression]
  rfl

end Scope

end NodeRules
