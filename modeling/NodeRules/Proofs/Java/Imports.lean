import Mathlib.Data.List.Nodup
import NodeRules.Compile
import NodeRules.Proofs.Java.Library
import NodeRules.Proofs.Program.Lines
import NodeRules.Proofs.Rule.Readable
import NodeRules.Proofs.Scope.Origins

namespace NodeRules.Java

/-- The file of a rule names a type of the program: as a supertype, or as the type of a child. -/
def SourceFile.NamesType (f : SourceFile) (rule : Rule) (name : String) : Prop :=
  (name ∈ f.declaration.supertypes ∧ name ≠ "Node") ∨
    ∃ r, rule = .node r ∧ r.isAbstract = false ∧ ∃ d ∈ r.descriptors, d.typeName = name

/-- Every name in the file of an entry stands for one type, and the imports are those that this
takes. -/
structure WellScoped (target : Target) (p : Program) (scope : Scope) (e : Entry)
    (f : SourceFile) : Prop where
  typeName_eq : f.typeName = e.name
  supertypes : ∀ name ∈ f.declaration.supertypes, name ≠ "Node" →
    ∃ rule ∈ p.visibleRules e.language, rule.name = name ∧ rule.isAbstract = true
  types : ∀ name, f.NamesType e.rule name →
    (p.Declares e.language name ∧ target.commonImport name ∉ f.imports) ∨
    (¬ p.Declares e.language name ∧ p.Declares commonLanguage name ∧
      target.commonImport name ∈ f.imports)
  imports : ∀ q, q ∈ f.imports ↔
    (∃ name, UsesLibrary scope e.rule name ∧ target.libraryImport name = q) ∨
    ∃ name, (f.NamesType e.rule name ∧ ¬ p.Declares e.language name) ∧
      target.commonImport name = q
  arrays : "java.util.Arrays" ∈ f.imports ↔
    e.rule.isAbstract = false ∧ scope.hierarchy e.name ≠ []
  distinct : (f.imports.map simpleName).Nodup
  ownName : f.typeName ∉ f.imports.map simpleName

theorem mem_references_iff {rule : Rule} (hclass : rule.isAbstract = false) {name : String} :
    name ∈ rule.references ↔
      ∃ r, rule = .node r ∧ r.isAbstract = false ∧ ∃ d ∈ r.descriptors, d.typeName = name := by
  cases rule with
  | node r =>
      have hsubtypes : r.subtypes = [] := by
        simpa [Rule.isAbstract, NodeRule.isAbstract] using hclass
      rw [Rule.references, NodeRule.references, hsubtypes, List.append_nil, List.mem_map]
      constructor
      · intro hd
        exact ⟨r, rfl, hclass, hd⟩
      · rintro ⟨_, ⟨⟩, -, hd⟩
        exact hd
  | literal r => simp [Rule.references]

section Made

variable {target : Target} {p : Program} {scope : Scope} {e : Entry} {f : SourceFile}
  {name : String} (hs : scope.Describes p e.language)
  (h : generate target scope e = .ok f)

include h

theorem mem_supertypes_iff :
    name ∈ f.declaration.supertypes ∧ name ≠ "Node" ↔ name ∈ scope.bases e.name := by
  obtain ⟨hfile, hreserved⟩ := generate_ok h
  rw [hfile.supertypes_eq, Outline.supertypesIn]
  split
  · rename_i hnil
    simp [List.isEmpty_iff.mp hnil]
  · refine and_iff_left_of_imp ?_
    rintro hbase rfl
    exact hreserved "Node" (List.mem_append_right _ hbase) (by decide)

theorem namesType_iff : f.NamesType e.rule name ↔
    name ∈ scope.bases e.name ∨
      ∃ r, e.rule = .node r ∧ r.isAbstract = false ∧ ∃ d ∈ r.descriptors, d.typeName = name :=
  or_congr_left (mem_supertypes_iff h)

theorem not_reserved_of_namesType (hname : f.NamesType e.rule name) : name ∉ reservedTypes := by
  apply (generate_ok h).2
  rcases (namesType_iff h).mp hname with hbase | ⟨r, hrule, -, d, hd, rfl⟩
  · exact List.mem_append_right _ hbase
  · apply List.mem_append_left
    rw [hrule]
    exact List.mem_cons_of_mem _ (List.mem_append_left _ (List.mem_map_of_mem hd))

include hs

theorem exists_declares (hname : f.NamesType e.rule name) :
    p.Declares e.language name ∨ p.Declares commonLanguage name := by
  rcases (namesType_iff h).mp hname with hbase | ⟨r, hrule, hclass, d, hd, rfl⟩
  · obtain ⟨rule, hrule, hname, -⟩ := hs.exists_abstract hbase
    exact Program.exists_visibleRules_name.mp ⟨rule, hrule, hname⟩
  · have hdeclared := (generate_ok h).1.isDeclared hrule hclass d hd
    exact hs.isDeclared_iff.mp hdeclared

theorem isName_of_namesType (hp : ∀ e ∈ p.entries, e.rule.Readable) (he : e ∈ p.entries)
    (hname : f.NamesType e.rule name) : Scanner.IsName name.toList := by
  rcases (namesType_iff h).mp hname with hbase | ⟨r, hrule, -, d, hd, rfl⟩
  · obtain ⟨rule, hrule, rfl, -⟩ := hs.exists_abstract hbase
    obtain ⟨e', he', rfl, -⟩ := Program.mem_visibleRules.mp hrule
    exact (hp e' he').isTypeName.2
  · have hreadable := hp e he
    rw [hrule] at hreadable
    exact (hreadable.isTypeName_child hd).2

/-- The common types that the scope has for the file are those that the file names and its language
does not declare. -/
theorem mem_imports_iff (he : e ∈ p.entries) {q : String} : q ∈ f.imports ↔
    (∃ name, UsesLibrary scope e.rule name ∧ target.libraryImport name = q) ∨
    ∃ name, (f.NamesType e.rule name ∧ ¬ p.Declares e.language name) ∧
      target.commonImport name = q := by
  rw [(generate_ok h).1.mem_imports]
  apply or_congr_right
  apply exists_congr
  intro name
  apply and_congr_left'
  rw [hs.mem_imports he rfl, and_right_comm]
  have hmentioned : (name ∈ e.rule.references ∨ name ∈ scope.bases e.name) ∧
      (e.rule.isAbstract = true → name ∈ scope.bases e.name) ↔ f.NamesType e.rule name := by
    rw [namesType_iff h]
    cases habstract : e.rule.isAbstract with
    | false => simp [mem_references_iff habstract, or_comm]
    | true =>
        constructor
        · rintro ⟨-, hbase⟩
          exact .inl (hbase rfl)
        · rintro (hbase | ⟨r, hrule, hclass, -⟩)
          · exact ⟨.inr hbase, fun _ => hbase⟩
          · rw [hrule, Rule.isAbstract, hclass] at habstract
            cases habstract
  rw [hmentioned]
  constructor
  · rintro ⟨hname, hown, -⟩
    exact ⟨hname, hown⟩
  · rintro ⟨hname, hown⟩
    exact ⟨hname, hown, (exists_declares hs h hname).resolve_left hown⟩

variable (hp : ∀ e ∈ p.entries, e.rule.Readable) (he : e ∈ p.entries)

include hp he

theorem simpleName_of_namesType (hname : f.NamesType e.rule name) :
    simpleName (target.commonImport name) = name :=
  simpleName_commonImport ((isName_of_namesType hs h hp he hname).not_mem rfl)

theorem imports_cases {q : String} (hq : q ∈ f.imports) :
    (UsesLibrary scope e.rule (simpleName q) ∧ simpleName q ∈ reservedTypes ∧
      target.libraryImport (simpleName q) = q) ∨
    (f.NamesType e.rule (simpleName q) ∧ simpleName q ∉ reservedTypes ∧
      ¬ p.Declares e.language (simpleName q) ∧ target.commonImport (simpleName q) = q) := by
  rcases (mem_imports_iff hs h he).mp hq with ⟨name, huses, rfl⟩ | ⟨name, ⟨hname, hown⟩, rfl⟩
  · rw [simpleName_libraryImport huses.mem_reservedTypes]
    exact .inl ⟨huses, huses.mem_reservedTypes, rfl⟩
  · rw [simpleName_of_namesType hs h hp he hname]
    exact .inr ⟨hname, not_reserved_of_namesType h hname, hown, rfl⟩

theorem imports_inj {q q' : String} (hq : q ∈ f.imports) (hq' : q' ∈ f.imports)
    (heq : simpleName q = simpleName q') : q = q' := by
  rcases imports_cases hs h hp he hq with ⟨-, hr, hqualified⟩ | ⟨-, hr, -, hqualified⟩ <;>
    rcases imports_cases hs h hp he hq' with ⟨-, hr', hqualified'⟩ | ⟨-, hr', -, hqualified'⟩
  · rw [← hqualified, ← hqualified', heq]
  · rw [heq] at hr
    exact absurd hr hr'
  · rw [heq] at hr
    exact absurd hr' hr
  · rw [← hqualified, ← hqualified', heq]

theorem commonImport_mem_iff (hname : f.NamesType e.rule name) :
    target.commonImport name ∈ f.imports ↔ ¬ p.Declares e.language name := by
  have hsimple := simpleName_of_namesType hs h hp he hname
  constructor
  · intro hq
    rcases imports_cases hs h hp he hq with ⟨-, hr, -⟩ | ⟨-, -, hown, -⟩
    · rw [hsimple] at hr
      exact absurd hr (not_reserved_of_namesType h hname)
    · rwa [hsimple] at hown
  · intro hown
    exact (mem_imports_iff hs h he).mpr (.inr ⟨name, ⟨hname, hown⟩, rfl⟩)

theorem arrays_mem_iff : "java.util.Arrays" ∈ f.imports ↔
    e.rule.isAbstract = false ∧ scope.hierarchy e.name ≠ [] := by
  have hsimple : simpleName "java.util.Arrays" = "Arrays" := by decide
  constructor
  · intro hq
    rcases imports_cases hs h hp he hq with ⟨huses, -⟩ | ⟨-, hr, -⟩
    · rw [hsimple] at huses
      exact usesLibrary_arrays.mp huses
    · rw [hsimple] at hr
      exact absurd (by decide) hr
  · rintro ⟨hclass, hgroups⟩
    have huses := usesLibrary_arrays.mpr ⟨hclass, hgroups⟩
    exact (mem_imports_iff hs h he).mpr (.inl ⟨"Arrays", huses, rfl⟩)

theorem typeName_not_mem : f.typeName ∉ f.imports.map simpleName := by
  rw [(generate_ok h).1.typeName_eq, List.mem_map]
  rintro ⟨q, hq, hsimple⟩
  rcases imports_cases hs h hp he hq with ⟨-, hr, -⟩ | ⟨-, -, hown, -⟩
  · rw [hsimple] at hr
    exact (generate_ok h).2 e.name (by simp [mentionedTypes, Entry.name]) hr
  · rw [hsimple] at hown
    exact hown ⟨e, he, rfl, rfl⟩

theorem nodup_simpleNames : (f.imports.map simpleName).Nodup := by
  apply (generate_ok h).1.nodup_imports.map_on
  intro q hq q' hq' heq
  exact imports_inj hs h hp he hq hq' heq

theorem wellScoped : WellScoped target p scope e f where
  typeName_eq := (generate_ok h).1.typeName_eq
  supertypes name hname hne := hs.exists_abstract ((mem_supertypes_iff h).mp ⟨hname, hne⟩)
  types name hname := by
    by_cases hown : p.Declares e.language name
    · left
      refine ⟨hown, ?_⟩
      rw [commonImport_mem_iff hs h hp he hname]
      exact not_not_intro hown
    · right
      exact ⟨hown, (exists_declares hs h hname).resolve_left hown,
        (commonImport_mem_iff hs h hp he hname).mpr hown⟩
  imports _ := mem_imports_iff hs h he
  arrays := arrays_mem_iff hs h hp he
  distinct := nodup_simpleNames hs h hp he
  ownName := typeName_not_mem hs h hp he

end Made

/-- The files of a language are made one for each of its rules, in their order, and each of them is
well scoped. -/
theorem generateAll_wellScoped {p : Program} {language : String} {scope : Scope} {target : Target}
    {files : List SourceFile} (hread : ∀ e ∈ p.entries, ∃ line, Rule.ofLine line = .ok e.rule)
    (hscope : Scope.ofProgram p language = .ok scope)
    (hfiles : generateAll target scope p = .ok files) :
    List.Forall₂ (WellScoped target p scope) (p.entriesIn language) files := by
  have hs := Scope.describes hscope
  have hreadable : ∀ e ∈ p.entries, e.rule.Readable := by
    intro e he
    obtain ⟨line, hline⟩ := hread e he
    exact Rule.ofLine_readable hline
  have hentries : ∀ e ∈ p.entriesIn language, e ∈ p.entries ∧ e.language = language := by
    intro e he
    simpa [Program.entriesIn] using he
  rw [generateAll, hs.language_eq] at hfiles
  apply ((List.forall₂_and_left _ _).mpr ⟨hentries, forall₂_of_mapM hfiles⟩).imp
  rintro e f ⟨⟨he, rfl⟩, hf⟩
  exact wellScoped hs hf hreadable he

/-- A class whose language hides a common one, with a base and children from the common types. -/
def shadowedLines : List String :=
  ["Expr <- Name | Call", "Name <- 0", "Call <- 0", "Call <- Expr, Name?",
    "Lit <- $int$, $String.valueOf(#1)$, $Integer.parseInt(#1)$", "Stmt <- Call | Lit"]

def shadowed : Program :=
  .unasked
    [⟨"common", .node (.abstract "Expr" ["Name", "Call"])⟩,
      ⟨"common", .node (.ordinary "Name" [.empty])⟩, ⟨"common", .node (.ordinary "Call" [.empty])⟩,
      ⟨"java", .node (.ordinary "Call"
        [.descriptor (.plain "Expr" .one), .descriptor (.plain "Name" .optional)])⟩,
      ⟨"java", .literal ⟨"Lit", "int", "String.valueOf(#1)", "Integer.parseInt(#1)", none⟩⟩,
      ⟨"java", .node (.abstract "Stmt" ["Call", "Lit"])⟩]

theorem exists_line_shadowed : ∀ e ∈ shadowed.entries, ∃ line, Rule.ofLine line = .ok e.rule := by
  have hlines : shadowedLines.map (fun line => Rule.ofLine line.toList) =
      shadowed.entries.map (fun e => .ok e.rule) := by with_unfolding_all rfl
  intro e he
  have hmem := List.mem_map_of_mem (f := fun e : Entry => (.ok e.rule : Except ReadError Rule)) he
  rw [← hlines] at hmem
  obtain ⟨line, -, hline⟩ := List.mem_map.mp hmem
  exact ⟨line.toList, hline⟩

theorem generateAll_wellScoped_shadowed :
    ∃ scope files, (∀ e ∈ shadowed.entries, ∃ line, Rule.ofLine line = .ok e.rule) ∧
      Scope.ofProgram shadowed "java" = .ok scope ∧
      generateAll ({} : Settings).target scope shadowed = .ok files ∧ files.length = 3 ∧
      List.Forall₂ (WellScoped ({} : Settings).target shadowed scope)
        (shadowed.entriesIn "java") files := by
  have hserialized : Template.instantiate "String.valueOf(#1)" ["this.data"] =
      .ok "String.valueOf(this.data)" := by with_unfolding_all rfl
  have hparsed : Template.instantiate "Integer.parseInt(#1)" ["str"] =
      .ok "Integer.parseInt(str)" := by with_unfolding_all rfl
  have hliteral (scope : Scope) (e : Entry) :
      ∃ f, literalFile ({} : Settings).target scope e
        ⟨"Lit", "int", "String.valueOf(#1)", "Integer.parseInt(#1)", none⟩ = .ok f := by
    rw [literalFile, hserialized, hparsed]
    exact ⟨_, rfl⟩
  obtain ⟨scope, hscope⟩ : ∃ scope, Scope.ofProgram shadowed "java" = .ok scope := ⟨_, rfl⟩
  obtain ⟨files, hfiles⟩ :
      ∃ files, generateAll ({} : Settings).target scope shadowed = .ok files := by
    cases hscope
    apply exists_mapM_ok
    intro e he
    change e ∈ shadowed.entries.drop 3 at he
    simp only [shadowed, Program.entries_unasked, List.drop, List.mem_cons, List.not_mem_nil,
      or_false] at he
    rcases he with rfl | rfl | rfl
    · exact ⟨_, rfl⟩
    · exact hliteral _ _
    · exact ⟨_, rfl⟩
  have hall := generateAll_wellScoped exists_line_shadowed hscope hfiles
  exact ⟨scope, files, exists_line_shadowed, hscope, hfiles, hall.length_eq.symm, hall⟩

end NodeRules.Java
