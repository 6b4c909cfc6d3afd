import NodeRules.Proofs.Compile.Units
import NodeRules.Proofs.Java.Files
import NodeRules.Proofs.Java.Groups
import NodeRules.Proofs.Tree.Catalog

namespace NodeRules

/-- The entry that `name` stands for in `language`: its own, or the common one that it does not
hide. -/
def Program.Resolves (p : Program) (language name : String) (e : Entry) : Prop :=
  e ∈ p.entries ∧ e.name = name ∧
    (e.language = language ∨ (e.language = commonLanguage ∧ ¬ p.Declares language name))

namespace Scope.Describes

variable {p : Program} {language : String} {s : Scope}

theorem isName_groups (h : s.Describes p language) (hp : p.Readable) {name : String}
    (hname : Scanner.IsName name.toList) :
    ∀ group ∈ s.groups name, Scanner.IsName group.toList := by
  intro group hgroup
  rcases List.mem_cons.mp hgroup with rfl | hgroup
  · exact hname
  · obtain ⟨below, hbelow⟩ := (h.chain name).exists_next (List.mem_reverse.mp hgroup)
    obtain ⟨rule, hrule, -, -, rfl⟩ := Rule.mem_basesAmong.mp (List.mem_of_mem_head? hbelow)
    obtain ⟨e, he, rfl, -⟩ := Program.mem_visibleRules.mp hrule
    exact (hp.entries e he).rule.isTypeName.2

theorem groups_eq_iff {other : String} {s' : Scope} (h : s.Describes p language)
    (h' : s'.Describes p other) (name : String) :
    s'.groups name = s.groups name ↔
      ∀ x ∈ s.groups name, p.firstBase other x = p.firstBase language x := by
  have hchains := (h.chain name).eq_iff (h'.chain name)
  simp only [groups, List.cons.injEq, true_and, List.reverse_inj, List.mem_cons,
    List.mem_reverse] at hchains ⊢
  exact hchains

end Scope.Describes

namespace Program

variable {p : Program} {target : Java.Target} {out : Output}

/-- Children that are declared in the language of their own rule are declared in all languages that
see the rule: what the common scope declares is declared everywhere. -/
theorem exists_catalog_of_declared
    (h : ∀ e ∈ p.entries, ∃ home, Scope.ofProgram p e.language = .ok home ∧
      home.DeclaresChildren e.rule)
    {language : String} {scope : Scope} (hscope : scope.Describes p language) :
    ∃ catalog, Tree.Catalog.ofScope scope = .ok catalog := by
  apply Tree.Catalog.ofScope_ok_of_declared
  intro r hr d hd
  obtain ⟨rule, hrule, hconcrete⟩ := List.mem_filterMap.mp hr
  obtain ⟨rfl, habstract⟩ := Tree.Catalog.concrete?_eq_some_iff.mp hconcrete
  rw [hscope.rules_eq] at hrule
  obtain ⟨e, he, hnode, hlanguage⟩ := mem_visibleRules.mp hrule
  obtain ⟨home, hhome, hchildren⟩ := h e he
  have hdeclared := hchildren r hnode habstract d hd
  rw [(Scope.describes hhome).isDeclared_iff] at hdeclared
  rw [hscope.isDeclared_iff]
  rcases hlanguage with rfl | ⟨hcommon, -⟩
  · exact hdeclared
  · rw [hcommon, or_self] at hdeclared
    exact .inr hdeclared

theorem exists_catalog (hfiles : ∀ e ∈ p.entries, ∃ f, out.Holds p target e f)
    {language : String} {scope : Scope} (hscope : scope.Describes p language) :
    ∃ catalog, Tree.Catalog.ofScope scope = .ok catalog := by
  refine exists_catalog_of_declared (fun e he => ?_) hscope
  obtain ⟨f, -, home, hhome, hgenerate⟩ := hfiles e he
  exact ⟨home, hhome, fun _ hnode => (Java.generate_ok hgenerate).1.isDeclared hnode⟩

theorem Readable.groups?_class (hp : p.Readable) {e : Entry} {scope : Scope} {f : Java.SourceFile}
    (he : e ∈ p.entries) (hclass : e.rule.isAbstract = false)
    (hscope : scope.Describes p e.language) (hf : Java.generate target scope e = .ok f) :
    f.groups? = some (scope.groups e.name) := by
  obtain ⟨children, more, hnested⟩ := (Java.generate_ok hf).1.nested_eq hclass
  have hnames := hscope.isName_groups hp (hp.entries e he).rule.isTypeName.2
  exact Java.SourceFile.groups?_nodeClass hnested rfl hnames

theorem Readable.groups?_generate (hp : p.Readable) {e : Entry} {r : NodeRule} {scope : Scope}
    {f : Java.SourceFile} (he : e ∈ p.entries) (hnode : e.rule = .node r)
    (habstract : r.isAbstract = false) (hscope : scope.Describes p e.language)
    (hf : Java.generate target scope e = .ok f) : f.groups? = some (scope.groups e.name) :=
  hp.groups?_class he (by rw [hnode]; exact habstract) hscope hf

end Program

/-- The file of a type lists the groups that the catalog of a language has for it exactly when each
of them has the same first base in the language as in the scope that the file is made in. -/
theorem compile_groups_iff {source : String} {settings : Settings} {out : Output}
    (h : compile source settings = .ok out) :
    ∃ p, Program.ofText source = .ok p ∧ ∀ language ∈ out.languages,
      ∃ catalog, Tree.Catalog.ofProgram p language = .ok catalog ∧ ∀ t ∈ catalog.types,
        ∃ e f groups, p.Resolves language t.name e ∧ out.Holds p settings.target e f ∧
          f.groups? = some groups ∧ groups.head? = some t.name ∧
          (t.groups = groups ↔
            ∀ x ∈ groups, p.firstBase language x = p.firstBase e.language x) := by
  obtain ⟨p, hread, hp, hgenerate⟩ := compile_ok h
  obtain ⟨hlanguages, hfiles⟩ := Program.generate_ok hgenerate
  refine ⟨p, hread, ?_⟩
  intro language hlanguage
  obtain ⟨d, hd, rfl⟩ := (hlanguages language).mp hlanguage
  obtain ⟨-, -, scope, hscope, -⟩ := hfiles d hd
  have hdescribes := Scope.describes hscope
  obtain ⟨catalog, hcatalog⟩ := Program.exists_catalog hfiles hdescribes
  refine ⟨catalog, by rw [Tree.Catalog.ofProgram, hscope]; exact hcatalog, ?_⟩
  intro t ht
  obtain ⟨r, hr, habstract, rfl⟩ := Tree.Catalog.mem_types hcatalog ht
  rw [hdescribes.rules_eq] at hr
  obtain ⟨e, he, hnode, hvisible⟩ := Program.mem_visibleRules.mp hr
  have hname : e.name = r.name := by rw [Entry.name, hnode, Rule.name]
  rw [hname] at hvisible
  obtain ⟨f, hfile, home, hhome, hunit⟩ := hfiles e he
  have hhomeDescribes := Scope.describes hhome
  have hgroups := hp.groups?_generate he hnode habstract hhomeDescribes hunit
  refine ⟨e, f, home.groups e.name, ⟨he, hname, hvisible⟩, ⟨hfile, home, hhome, hunit⟩, hgroups,
    by rw [hname]; rfl, ?_⟩
  rw [hname]
  exact hhomeDescribes.groups_eq_iff hdescribes r.name

/-- The language lists a common type under an abstract type of its own. -/
def sharedText : String := "Name <- 0\njava:\nStmt <- Name | Pass\nPass <- 0"

def shared : Program :=
  .unasked
    [⟨"common", .node (.ordinary "Name" [.empty])⟩,
      ⟨"java", .node (.abstract "Stmt" ["Name", "Pass"])⟩,
      ⟨"java", .node (.ordinary "Pass" [.empty])⟩]

theorem compile_groups_shared :
    ∃ out catalog t e f groups, compile sharedText {} = .ok out ∧
      Program.ofText sharedText = .ok shared ∧ "java" ∈ out.languages ∧
      Tree.Catalog.ofProgram shared "java" = .ok catalog ∧ t ∈ catalog.types ∧
      t.groups = ["Name", "Stmt"] ∧ shared.Resolves "java" "Name" e ∧
      out.Holds shared ({} : Settings).target e f ∧ f.groups? = some groups ∧
      t.groups ≠ groups := by
  have hread : Program.ofText sharedText = .ok shared := by with_unfolding_all rfl
  obtain ⟨out, hcompile, hjava⟩ :
      ∃ out, compile sharedText {} = .ok out ∧ "java" ∈ out.languages := by
    rw [compile, hread]
    exact ⟨_, rfl, by decide⟩
  have hcatalog : Tree.Catalog.ofProgram shared "java" =
      .ok ⟨[⟨"Name", [], ["Name", "Stmt"]⟩, ⟨"Pass", [], ["Pass", "Stmt"]⟩]⟩ := rfl
  obtain ⟨p, hp, hlanguages⟩ := compile_groups_iff hcompile
  obtain rfl : p = shared := Except.ok.inj (hp.symm.trans hread)
  obtain ⟨catalog, hcatalog', htypes⟩ := hlanguages "java" hjava
  obtain rfl := Except.ok.inj (hcatalog.symm.trans hcatalog')
  obtain ⟨e, f, groups, hresolves, hfile, hgroups, hhead, hiff⟩ := htypes _ List.mem_cons_self
  refine ⟨out, _, _, e, f, groups, hcompile, hread, hjava, hcatalog, List.mem_cons_self, rfl,
    hresolves, hfile, hgroups, ?_⟩
  intro heq
  have hsame := hiff.mp heq "Name" (List.mem_of_mem_head? hhead)
  -- Only the common scope declares the name, and nothing lists it there.
  have hcommon : e.language = "common" := by
    obtain ⟨hmem, hname, -⟩ := hresolves
    simp only [shared, Program.entries_unasked, List.mem_cons, List.not_mem_nil, or_false] at hmem
    rcases hmem with rfl | rfl | rfl
    · rfl
    · revert hname
      decide
    · revert hname
      decide
  rw [hcommon] at hsame
  revert hsame
  decide

end NodeRules
