import NodeRules.Proofs.Compile.Groups
import NodeRules.Proofs.Java.Supertypes

namespace NodeRules

open Relation

/-- The file of `e` names a supertype that stands for `e'` in the language of `e`. -/
def Output.Extends (out : Output) (p : Program) (target : Java.Target) (e e' : Entry) : Prop :=
  e ∈ p.entries ∧ ∃ f, out.Holds p target e f ∧
    ∃ name ∈ f.declaration.supertypes, p.Resolves e.language name e'

namespace Program

variable {p : Program} {language : String}

def Inherits (p : Program) (e e' : Entry) : Prop :=
  e ∈ p.entries ∧ ∃ base ∈ p.bases e.language e.name, p.Resolves e.language base e'

theorem Resolves.language_eq {name : String} {e : Entry} (h : p.Resolves language name e)
    (hname : p.Declares language name) : e.language = language := by
  rcases h.2.2 with hown | ⟨-, hnot⟩
  · exact hown
  · exact absurd hname hnot

theorem Resolves.eq_common {name : String} {e : Entry} (h : p.Resolves language name e)
    (hname : ¬ p.Declares language name) : e.language = commonLanguage := by
  rcases h.2.2 with rfl | ⟨hcommon, -⟩
  · exact absurd ⟨e, h.1, rfl, h.2.1⟩ hname
  · exact hcommon

theorem exists_resolves {name base : String} (h : base ∈ p.bases language name) :
    ∃ e, p.Resolves language base e := by
  obtain ⟨rule, hrule, -, -, rfl⟩ := Rule.mem_basesAmong.mp h
  obtain ⟨e, he, rfl, hvisible⟩ := mem_visibleRules.mp hrule
  exact ⟨e, he, rfl, hvisible⟩

theorem mem_bases_common {name base : String} (h : base ∈ p.bases language name)
    (hbase : ¬ p.Declares language base) : base ∈ p.bases commonLanguage name := by
  obtain ⟨rule, hrule, habstract, hname, rfl⟩ := Rule.mem_basesAmong.mp h
  obtain ⟨e, he, rfl, hown | ⟨hcommon, -⟩⟩ := mem_visibleRules.mp hrule
  · exact absurd ⟨e, he, hown, rfl⟩ hbase
  · exact Rule.mem_basesAmong.mpr
      ⟨e.rule, mem_visibleRules.mpr ⟨e, he, rfl, .inl hcommon⟩, habstract, hname, rfl⟩

/-- What stands for a type inherits what stands for its base, unless the base is declared by the
language and the type is not. -/
theorem Resolves.exists_inherits {x base : String} {e : Entry} (h : p.Resolves language x e)
    (hbase : base ∈ p.bases language x)
    (hdeclared : p.Declares language base → p.Declares language x) :
    ∃ e', p.Resolves language base e' ∧ p.Inherits e e' := by
  obtain ⟨e', he'⟩ := exists_resolves hbase
  refine ⟨e', he', h.1, base, ?_⟩
  rw [h.2.1]
  by_cases hx : p.Declares language x
  · rw [h.language_eq hx]
    exact ⟨hbase, he'⟩
  · have hnot : ¬ p.Declares language base := fun hb => hx (hdeclared hb)
    rw [h.eq_common hx]
    exact ⟨mem_bases_common hbase hnot, he'.1, he'.2.1, .inl (he'.eq_common hnot)⟩

theorem Resolves.transGen_of_ownBase {x y : String} {e : Entry} (h : p.Resolves language x e)
    (hway : TransGen (p.OwnBase language) x y) :
    ∃ e', p.Resolves language y e' ∧ TransGen p.Inherits e e' := by
  induction hway with
  | single hxy =>
      obtain ⟨e', he', hstep⟩ := h.exists_inherits hxy.2.2 fun _ => hxy.1
      exact ⟨e', he', .single hstep⟩
  | tail _ hyz ih =>
      obtain ⟨e', he', hpath⟩ := ih
      obtain ⟨e'', he'', hstep⟩ := he'.exists_inherits hyz.2.2 fun _ => hyz.1
      exact ⟨e'', he'', hpath.tail hstep⟩

theorem Inherits.language_cases {e e' : Entry} (h : p.Inherits e e')
    (he : e.language = language ∨ e.language = commonLanguage) :
    e'.language = language ∨ e'.language = commonLanguage := by
  obtain ⟨-, base, -, hresolves⟩ := h
  rcases hresolves.2.2 with hsame | ⟨hcommon, -⟩
  · rw [hsame]
    exact he
  · exact .inr hcommon

theorem Inherits.ownBase {e e' : Entry} (h : p.Inherits e e')
    (he : e.language = language ∨ e.language = commonLanguage) (he' : e'.language = language) :
    e.language = language ∧ p.OwnBase language e.name e'.name := by
  obtain ⟨hmem, base, hbase, hresolves⟩ := h
  have hlanguage : e.language = language := by
    rcases he with he | he
    · exact he
    · rcases hresolves.2.2 with hsame | ⟨hcommon, -⟩
      · rw [← he', hsame]
      · rw [← he', hcommon, he]
  subst hlanguage
  obtain ⟨hmem', rfl, -⟩ := hresolves
  exact ⟨rfl, ⟨e, hmem, rfl, rfl⟩, ⟨e', hmem', he', rfl⟩, hbase⟩

/-- A way that ends in the language has never left it. -/
theorem ownBase_of_inherits {e g : Entry} (h : TransGen p.Inherits e g)
    (he : e.language = language ∨ e.language = commonLanguage) (hg : g.language = language) :
    e.language = language ∧ TransGen (p.OwnBase language) e.name g.name := by
  induction h using TransGen.head_induction_on with
  | single hstep =>
      obtain ⟨hlanguage, hbase⟩ := hstep.ownBase he hg
      exact ⟨hlanguage, .single hbase⟩
  | head hstep _ ih =>
      obtain ⟨hnext, hway⟩ := ih (hstep.language_cases he)
      obtain ⟨hlanguage, hbase⟩ := hstep.ownBase he hnext
      exact ⟨hlanguage, .head hbase hway⟩

theorem inherits_chain {x : String} {chain : List String} {e : Entry}
    (h : Chain (p.firstBase language) x chain)
    (hx : ∃ g, p.Resolves language x g ∧ ReflTransGen p.Inherits e g)
    (hown : ∀ y ∈ chain, p.Declares language y →
      ∃ g, p.Resolves language y g ∧ TransGen p.Inherits e g) :
    ∀ y ∈ chain, ∃ g, p.Resolves language y g ∧ TransGen p.Inherits e g := by
  induction h with
  | root => simp
  | @step x base chain hnext _ ih =>
      have hbase : ∃ g, p.Resolves language base g ∧ TransGen p.Inherits e g := by
        by_cases hdeclared : p.Declares language base
        · exact hown base (by simp) hdeclared
        · obtain ⟨g, hg, hpath⟩ := hx
          obtain ⟨g', hg', hstep⟩ := hg.exists_inherits (List.mem_of_mem_head? hnext)
            fun hbase => absurd hbase hdeclared
          exact ⟨g', hg', .tail' hpath hstep⟩
      intro y hy
      rcases List.mem_append.mp hy with hy | hy
      · obtain ⟨g, hg, hpath⟩ := hbase
        exact ih ⟨g, hg, hpath.to_reflTransGen⟩
          (fun z hz => hown z (List.mem_append_left _ hz)) y hy
      · rw [List.mem_singleton.mp hy]
        exact hbase

theorem inherits_chain_iff {chain : List String} {e : Entry} (he : e ∈ p.entries)
    (h : Chain (p.firstBase e.language) e.name chain) :
    (∀ y ∈ chain, ∃ g, p.Resolves e.language y g ∧ TransGen p.Inherits e g) ↔
      ∀ y ∈ chain, p.Declares e.language y → TransGen (p.OwnBase e.language) e.name y := by
  have hresolves : p.Resolves e.language e.name e := ⟨he, rfl, .inl rfl⟩
  constructor
  · intro hall y hy hdeclared
    obtain ⟨g, hg, hpath⟩ := hall y hy
    rw [← hg.2.1]
    exact (ownBase_of_inherits hpath (.inl rfl) (hg.language_eq hdeclared)).2
  · intro hall
    apply inherits_chain h ⟨e, hresolves, .refl⟩
    intro y hy hdeclared
    exact hresolves.transGen_of_ownBase (hall y hy hdeclared)

end Program

namespace Output

variable {out : Output} {p : Program} {target : Java.Target}

theorem extends_iff_inherits (hfiles : ∀ e ∈ p.entries, ∃ f, out.Holds p target e f)
    {e e' : Entry} : out.Extends p target e e' ↔ p.Inherits e e' := by
  have hnode {language : String} : ¬ p.Resolves language "Node" e' := by
    rintro ⟨hmem, hname, -⟩
    obtain ⟨f, -, scope, -, hgenerate⟩ := hfiles e' hmem
    have hreserved := (Java.generate_ok hgenerate).2 e'.name
      (by simp [Java.mentionedTypes, Entry.name])
    rw [hname] at hreserved
    exact hreserved (by decide)
  have hsupertypes {f : Java.SourceFile} (hf : out.Holds p target e f) (base : String)
      (hresolves : p.Resolves e.language base e') :
      base ∈ f.declaration.supertypes ↔ base ∈ p.bases e.language e.name := by
    obtain ⟨-, scope, hscope, hgenerate⟩ := hf
    rw [(Java.generate_ok hgenerate).1.supertypes_eq, Java.Outline.supertypesIn,
      (Scope.describes hscope).bases_eq]
    split
    · rename_i hnil
      have hne : base ≠ "Node" := by
        rintro rfl
        exact hnode hresolves
      simp [List.isEmpty_iff.mp hnil, hne]
    · rfl
  constructor
  · rintro ⟨he, f, hf, base, hbase, hresolves⟩
    exact ⟨he, base, (hsupertypes hf base hresolves).mp hbase, hresolves⟩
  · rintro ⟨he, base, hbase, hresolves⟩
    obtain ⟨f, hf⟩ := hfiles e he
    exact ⟨he, f, hf, base, (hsupertypes hf base hresolves).mpr hbase, hresolves⟩

end Output

/-- A class has all of its groups among its supertypes exactly when it has those that its language
declares through types of that language alone. -/
theorem compile_subtypes_iff {source : String} {settings : Settings} {out : Output}
    (h : compile source settings = .ok out) :
    ∃ p, Program.ofText source = .ok p ∧
      (∀ file ∈ out.files,
        ∃ e ∈ p.entries, ∃ f, out.Holds p settings.target e f ∧ file = .ofSource f) ∧
      ∀ e ∈ p.entries, ∀ f, out.Holds p settings.target e f → f.declaration.form = .concrete →
        ∃ groups, f.groups? = some groups ∧ groups.head? = some e.name ∧
          ((∀ group ∈ groups.tail, ∃ g, p.Resolves e.language group g ∧
              TransGen (out.Extends p settings.target) e g) ↔
            ∀ group ∈ groups.tail, p.Declares e.language group →
              TransGen (p.OwnBase e.language) e.name group) := by
  obtain ⟨p, hread, hp, hgenerate⟩ := compile_ok h
  obtain ⟨-, hfiles⟩ := Program.generate_ok hgenerate
  refine ⟨p, hread, fun file hfile => Program.exists_entry hgenerate hfile, ?_⟩
  rintro e he f ⟨-, scope, hscope, hunit⟩ hform
  have hdescribes := Scope.describes hscope
  have hclass : e.rule.isAbstract = false := by
    rw [(Java.generate_ok hunit).1.isAbstract_eq, hform]
    rfl
  refine ⟨_, hp.groups?_class he hclass hdescribes hunit, rfl, ?_⟩
  have hextends : out.Extends p settings.target = p.Inherits := by
    funext e e'
    exact propext (Output.extends_iff_inherits hfiles)
  rw [hextends]
  have hchain := Program.inherits_chain_iff he (hdescribes.chain e.name)
  simpa [Scope.groups] using hchain

/-- The language declares a common class again and puts the base of that class into a group. -/
def outerText : String :=
  "Stmt <- Name | Pass\nName <- 0\nPass <- 0\njava:\nName <- 0\nItem <- Stmt | Use\nUse <- Item"

def outer : Program :=
  .unasked
    [⟨"common", .node (.abstract "Stmt" ["Name", "Pass"])⟩,
      ⟨"common", .node (.ordinary "Name" [.empty])⟩, ⟨"common", .node (.ordinary "Pass" [.empty])⟩,
      ⟨"java", .node (.ordinary "Name" [.empty])⟩,
      ⟨"java", .node (.abstract "Item" ["Stmt", "Use"])⟩,
      ⟨"java", .node (.ordinary "Use" [.descriptor (.plain "Item" .one)])⟩]

theorem compile_subtypes_outer :
    ∃ out e f groups, compile outerText {} = .ok out ∧ Program.ofText outerText = .ok outer ∧
      e ∈ outer.entries ∧ e.language = "java" ∧ out.Holds outer ({} : Settings).target e f ∧
      f.declaration.form = .concrete ∧ f.groups? = some groups ∧
      groups = ["Name", "Stmt", "Item"] ∧
      ¬ ∀ group ∈ groups.tail, ∃ g, outer.Resolves "java" group g ∧
        TransGen (out.Extends outer ({} : Settings).target) e g := by
  have hread : Program.ofText outerText = .ok outer := by with_unfolding_all rfl
  obtain ⟨out, hcompile⟩ : ∃ out, compile outerText {} = .ok out := by
    rw [compile, hread]
    exact ⟨_, rfl⟩
  obtain ⟨p, hp, -, hclasses⟩ := compile_subtypes_iff hcompile
  obtain rfl : p = outer := Except.ok.inj (hp.symm.trans hread)
  obtain ⟨p, hp', hreadable, hgenerate⟩ := compile_ok hcompile
  obtain rfl : p = outer := Except.ok.inj (hp'.symm.trans hread)
  have he : ⟨"java", .node (.ordinary "Name" [.empty])⟩ ∈ outer.entries := by simp [outer]
  obtain ⟨f, hf⟩ := (Program.generate_ok hgenerate).2 _ he
  obtain ⟨scope, hscope, hunit⟩ := hf.2
  have hdescribes := Scope.describes hscope
  have hform : f.declaration.form = .concrete := by
    have habstract := (Java.generate_ok hunit).1.isAbstract_eq
    cases hkind : f.declaration.form with
    | concrete => rfl
    | interface =>
        rw [hkind] at habstract
        cases habstract
  have hname : outer.firstBase "java" "Name" = some "Stmt" := by decide
  have hstmt : outer.firstBase "java" "Stmt" = some "Item" := by decide
  have hchain : Chain (outer.firstBase "java") "Name" ["Item", "Stmt"] :=
    .step hname (.step hstmt (.root (by decide)))
  obtain ⟨groups, hgroups, -, hiff⟩ := hclasses _ he f hf hform
  have hlist : groups = ["Name", "Stmt", "Item"] := by
    have hclass := hreadable.groups?_class he rfl hdescribes hunit
    have hscoped : scope.groups "Name" = ["Name", "Stmt", "Item"] := by
      rw [Scope.groups, (hdescribes.chain "Name").unique hchain]
      rfl
    exact (Option.some.inj (hgroups.symm.trans hclass)).trans hscoped
  refine ⟨out, _, f, groups, hcompile, hread, he, rfl, hf, hform, hgroups, hlist, ?_⟩
  intro hall
  have hway := hiff.mp hall "Item" (by simp [hlist])
    (by decide : outer.Declares "java" "Item")
  -- The only base of the class is the common one, which the language does not declare.
  obtain ⟨base, ⟨-, hbase, hmem⟩, -⟩ := TransGen.head'_iff.mp hway
  have hbases : outer.bases "java" "Name" = ["Stmt"] := by decide
  obtain rfl : base = "Stmt" := by
    rw [← List.mem_singleton, ← hbases]
    exact hmem
  exact absurd hbase (by decide : ¬ outer.Declares "java" "Stmt")

end NodeRules
