import Mathlib.Data.String.Basic
import NodeRules.Compile
import NodeRules.Proofs.Java.Files
import NodeRules.Proofs.Scope.Outcome

namespace NodeRules

open Relation

def Scope.HasBase (s : Scope) (name base : String) : Prop := base ∈ s.bases name

def Program.OwnBase (p : Program) (language name base : String) : Prop :=
  p.Declares language name ∧ p.Declares language base ∧ base ∈ p.bases language name

namespace Scope.Describes

variable {p : Program} {language : String} {s : Scope} {R : String → String → Prop}

theorem later_or_first (hs : s.Describes p language) {x base : String} (h : base ∈ s.bases x) :
    base ∈ (s.bases x).tail ∨ p.firstBase language x = some base := by
  rw [Program.firstBase, ← hs.bases_eq]
  cases hb : s.bases x with
  | nil =>
      rw [hb] at h
      cases h
  | cons first rest =>
      rw [hb] at h
      rcases List.mem_cons.mp h with rfl | h
      · exact .inr rfl
      · exact .inl h

/-- A way along bases that never takes a base behind the first is a walk along first bases. -/
theorem exists_later_or_walk (hs : s.Describes p language) (hR : ∀ x y, R x y → y ∈ s.bases x)
    {a b : String} (h : TransGen R a b) :
    (∃ x base, ReflTransGen R a x ∧ R x base ∧ base ∈ (s.bases x).tail ∧
      ReflTransGen R base b) ∨ TransGen (fun x y => p.firstBase language x = some y) a b := by
  induction h with
  | single hab =>
      rcases hs.later_or_first (hR _ _ hab) with hlater | hfirst
      · exact .inl ⟨a, _, .refl, hab, hlater, .refl⟩
      · exact .inr (.single hfirst)
  | tail hpath hbc ih =>
      rcases ih with ⟨x, base, hx, hstep, hlater, hbase⟩ | hwalk
      · exact .inl ⟨x, base, hx, hstep, hlater, hbase.tail hbc⟩
      · rcases hs.later_or_first (hR _ _ hbc) with hlater | hfirst
        · exact .inl ⟨_, _, hpath.to_reflTransGen, hbc, hlater, .refl⟩
        · exact .inr (hwalk.tail hfirst)

/-- A way back to its start takes a base behind the first, as the walk along first bases ends. -/
theorem cycle_iff (hs : s.Describes p language) (hR : ∀ x y, R x y → y ∈ s.bases x)
    {name : String} :
    TransGen R name name ↔ ∃ x base, ReflTransGen R name x ∧ R x base ∧
      base ∈ (s.bases x).tail ∧ ReflTransGen R base name := by
  constructor
  · intro h
    rcases hs.exists_later_or_walk hR h with hlater | hwalk
    · exact hlater
    · exact absurd ((hs.chain name).mem_of_transGen hwalk) (hs.chain name).not_mem
  · rintro ⟨x, base, hx, hstep, -, hbase⟩
    exact (TransGen.tail' hx hstep).trans_left hbase

end Scope.Describes

namespace Java

def NamesSupertype (files : List SourceFile) (name supertype : String) : Prop :=
  ∃ f ∈ files, f.typeName = name ∧ supertype ∈ f.declaration.supertypes

section Files

variable {p : Program} {language : String} {s : Scope} {target : Target} {files : List SourceFile}

theorem exists_entry (hs : s.Describes p language) (h : generateAll target s p = .ok files)
    {f : SourceFile} (hf : f ∈ files) :
    ∃ e ∈ p.entries, e.language = language ∧ generate target s e = .ok f := by
  obtain ⟨e, he, hgenerate⟩ := exists_of_mem_mapM h hf
  simp only [Program.entriesIn, List.mem_filter, beq_iff_eq, hs.language_eq] at he
  exact ⟨e, he.1, he.2, hgenerate⟩

theorem exists_file (hs : s.Describes p language) (h : generateAll target s p = .ok files)
    {e : Entry} (he : e ∈ p.entries) (hlanguage : e.language = language) :
    ∃ f ∈ files, generate target s e = .ok f := by
  apply mapM_ok_of_mem h
  simp [Program.entriesIn, he, hs.language_eq, hlanguage]

theorem not_mem_reservedTypes (hs : s.Describes p language)
    (h : generateAll target s p = .ok files) {name : String} (hname : p.Declares language name) :
    name ∉ reservedTypes := by
  obtain ⟨e, he, hlanguage, rfl⟩ := hname
  obtain ⟨f, -, hf⟩ := exists_file hs h he hlanguage
  exact (generate_ok hf).2 e.name (by simp [mentionedTypes, Entry.name])

theorem namesSupertype_iff (hs : s.Describes p language)
    (h : generateAll target s p = .ok files) {name supertype : String} :
    NamesSupertype files name supertype ↔
      p.Declares language name ∧ supertype ∈ Outline.supertypesIn s name := by
  constructor
  · rintro ⟨f, hf, rfl, hsupertype⟩
    obtain ⟨e, he, hlanguage, hgenerate⟩ := exists_entry hs h hf
    have hfile := (generate_ok hgenerate).1
    rw [hfile.typeName_eq]
    exact ⟨⟨e, he, hlanguage, rfl⟩, by rwa [← hfile.supertypes_eq]⟩
  · rintro ⟨⟨e, he, hlanguage, rfl⟩, hsupertype⟩
    obtain ⟨f, hf, hgenerate⟩ := exists_file hs h he hlanguage
    have hfile := (generate_ok hgenerate).1
    exact ⟨f, hf, hfile.typeName_eq, by rwa [hfile.supertypes_eq]⟩

theorem namesSupertype_iff_ownBase (hs : s.Describes p language)
    (h : generateAll target s p = .ok files) {name base : String}
    (hbase : p.Declares language base) :
    NamesSupertype files name base ↔ p.OwnBase language name base := by
  -- The type of all nodes is reserved, so it is no declared type.
  have hne : base ≠ "Node" := by
    rintro rfl
    exact not_mem_reservedTypes hs h hbase (by decide)
  rw [namesSupertype_iff hs h, Program.OwnBase, Outline.supertypesIn, ← hs.bases_eq]
  split
  · rename_i hnil
    simp [List.isEmpty_iff.mp hnil, hne]
  · simp [hbase]

theorem namesSupertype_cycle_iff (hs : s.Describes p language)
    (h : generateAll target s p = .ok files) {name : String} :
    TransGen (NamesSupertype files) name name ↔ TransGen (p.OwnBase language) name name := by
  constructor
  · intro hcycle
    have hdeclared {x y : String} (hxy : NamesSupertype files x y) : p.Declares language x :=
      ((namesSupertype_iff hs h).mp hxy).1
    have hway {b : String} (hpath : TransGen (NamesSupertype files) name b)
        (hb : p.Declares language b) : TransGen (p.OwnBase language) name b := by
      induction hpath with
      | single hab => exact .single ((namesSupertype_iff_ownBase hs h hb).mp hab)
      | tail _ hbc ih =>
          exact (ih (hdeclared hbc)).tail ((namesSupertype_iff_ownBase hs h hb).mp hbc)
    obtain ⟨b, hab, -⟩ := TransGen.head'_iff.mp hcycle
    exact hway hcycle (hdeclared hab)
  · intro hcycle
    apply TransGen.mono _ _ _ hcycle
    intro x y hxy
    exact (namesSupertype_iff_ownBase hs h hxy.2.1).mpr hxy

end Files

end Java

/-- In an accepted scope a type inherits from itself exactly when it does so through a base that is
not the first, and its file names it among its own supertypes, directly or through other files of
the language, exactly when that way stays inside the language. -/
theorem Scope.inherits_itself_iff {p : Program} {language : String} {s : Scope}
    (h : Scope.ofProgram p language = .ok s) (name : String) :
    (TransGen s.HasBase name name ↔
      ∃ x base, ReflTransGen s.HasBase name x ∧ base ∈ (s.bases x).tail ∧
        ReflTransGen s.HasBase base name) ∧
    ∀ target files, Java.generateAll target s p = .ok files →
      (TransGen (Java.NamesSupertype files) name name ↔
        ∃ x base, ReflTransGen (p.OwnBase language) name x ∧ p.OwnBase language x base ∧
          base ∈ (s.bases x).tail ∧ ReflTransGen (p.OwnBase language) base name) := by
  have hs := Scope.describes h
  refine ⟨⟨?_, ?_⟩, ?_⟩
  · intro hcycle
    obtain ⟨x, base, hx, -, hlater, hbase⟩ := (hs.cycle_iff fun _ _ hbase => hbase).mp hcycle
    exact ⟨x, base, hx, hlater, hbase⟩
  · rintro ⟨x, base, hx, hlater, hbase⟩
    have hstep : s.HasBase x base := List.mem_of_mem_tail hlater
    exact (hs.cycle_iff fun _ _ hbase => hbase).mpr ⟨x, base, hx, hstep, hlater, hbase⟩
  · intro target files hfiles
    rw [Java.namesSupertype_cycle_iff hs hfiles]
    apply hs.cycle_iff
    intro x y hxy
    rw [hs.bases_eq]
    exact hxy.2.2

/-- A type that lists itself, behind another type that lists it. -/
def loopedText : String := "R <- A | X\nA <- A | Y\nX <- 0\nY <- 0"

def looped : Program :=
  .unasked
    [⟨"common", .node (.abstract "R" ["A", "X"])⟩, ⟨"common", .node (.abstract "A" ["A", "Y"])⟩,
      ⟨"common", .node (.ordinary "X" [.empty])⟩, ⟨"common", .node (.ordinary "Y" [.empty])⟩]

theorem Scope.inherits_itself_looped :
    ∃ s files, Program.ofText loopedText = .ok looped ∧
      Scope.ofProgram looped "common" = .ok s ∧ TransGen s.HasBase "A" "A" ∧
      Java.generateAll ({} : Settings).target s looped = .ok files ∧
      (files.map fun f => (f.typeName, f.declaration.supertypes)) =
        [("R", ["Node"]), ("A", ["R", "A"]), ("X", ["R"]), ("Y", ["A"])] ∧
      TransGen (Java.NamesSupertype files) "A" "A" := by
  have hread : Program.ofText loopedText = .ok looped := by with_unfolding_all rfl
  obtain ⟨s, files, hs, hfiles, hsupertypes⟩ : ∃ s files, Scope.ofProgram looped "common" = .ok s ∧
      Java.generateAll ({} : Settings).target s looped = .ok files ∧
      (files.map fun f => (f.typeName, f.declaration.supertypes)) =
        [("R", ["Node"]), ("A", ["R", "A"]), ("X", ["R"]), ("Y", ["A"])] := ⟨_, _, rfl, rfl, rfl⟩
  have hlater : "A" ∈ (s.bases "A").tail := by
    rw [(Scope.bases_and_hierarchy hs "A").1]
    decide
  have hown : looped.OwnBase "common" "A" "A" := by
    refine ⟨by decide, by decide, ?_⟩
    decide
  obtain ⟨hbases, hnames⟩ := Scope.inherits_itself_iff hs "A"
  exact ⟨s, files, hread, hs, hbases.mpr ⟨"A", "A", .refl, hlater, .refl⟩, hfiles,
    hsupertypes, (hnames _ files hfiles).mpr ⟨"A", "A", .refl, hown, hlater, .refl⟩⟩

end NodeRules
