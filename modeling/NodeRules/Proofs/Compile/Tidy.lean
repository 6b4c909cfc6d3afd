import Mathlib.Data.List.Basic
import NodeRules.Proofs.Compile.Acceptance
import NodeRules.Proofs.Compile.Groups
import NodeRules.Proofs.Java.LegalNames
import NodeRules.Proofs.Java.Printable
import NodeRules.Proofs.Program.WellFormed

namespace NodeRules

open Text (Filled OneLine oneLine_append oneLine_literal oneLine_true)

theorem MatchesName.oneLine {s : String} (h : MatchesName s) : OneLine s :=
  (Scanner.isName_iff.mpr h).not_mem rfl

theorem MatchesTypeName.matchesName {s : String} (h : MatchesTypeName s) : MatchesName s := by
  obtain ⟨c, cs, hs, hc, hcs⟩ := h
  exact ⟨c, cs, hs, .inl hc, hcs⟩

theorem Entry.Readable.oneLine_name {e : Entry} (h : e.Readable) : OneLine e.name :=
  h.wellFormed.name.matchesName.oneLine

theorem NodeRule.matchesTypeName_of_mem {r : NodeRule} (h : r.OrdinaryForm ∨ r.AbstractForm) :
    ∀ d ∈ r.descriptors, MatchesTypeName d.typeName := by
  intro d hd
  obtain ⟨c, hc, hdescriptor⟩ := List.mem_filterMap.mp hd
  rcases h with hform | hform
  · cases c with
    | empty => cases hdescriptor
    | descriptor d' =>
        cases hdescriptor
        exact (hform.bare d hc).2.2.2
  · rw [hform.children_eq] at hc
    cases hc

namespace Text

theorem newline_not_mem_splitLines (cs : List Char) : ∀ line ∈ splitLines cs, '\n' ∉ line := by
  fun_induction splitLines cs with
  | case1 => simp
  | case2 cs ih => simpa using ih
  | case3 cs ih => simpa using ih
  | case4 c cs hnewline hreturn hnil ih =>
      have hc : '\n' ≠ c := fun he => hnewline he.symm
      simpa using hc
  | case5 c cs hnewline hreturn line rest hlines ih =>
      have hc : '\n' ≠ c := fun he => hnewline he.symm
      rw [hlines, List.forall_mem_cons] at ih
      rw [List.forall_mem_cons]
      exact ⟨by simp [hc, ih.1], ih.2⟩

theorem trimEnd_subset (cs : List Char) : trimEnd cs ⊆ cs := by
  intro c hc
  rw [trimEnd, List.mem_reverse] at hc
  exact List.mem_reverse.mp ((List.dropWhile_sublist _).subset hc)

theorem endsVisibly_trimEnd (cs : List Char) :
    trimEnd cs = [] ∨ endsVisibly (trimEnd cs) = true := by
  have hhead := List.head?_dropWhile_not isBlank cs.reverse
  cases hrest : cs.reverse.dropWhile isBlank with
  | nil => exact .inl (by rw [trimEnd, hrest, List.reverse_nil])
  | cons c rest =>
      rw [hrest] at hhead
      exact .inr (by simpa [trimEnd, hrest, endsVisibly] using hhead)

end Text

theorem License.filled_ofText (s : String) :
    ∀ line ∈ (License.ofText s).lines, line = "" ∨ Filled line := by
  intro line hline
  have hlines : line ∈ (Text.lines s).map trimLine := by
    rw [ofText, dropEmptyEnds, List.mem_reverse] at hline
    have hfront := (List.dropWhile_sublist _).subset hline
    exact (List.dropWhile_sublist _).subset (List.mem_reverse.mp hfront)
  obtain ⟨full, hfull, rfl⟩ := List.mem_map.mp hlines
  obtain ⟨cs, hcs, rfl⟩ := List.mem_map.mp hfull
  rw [trimLine, String.toList_ofList]
  rcases Text.endsVisibly_trimEnd cs with hnil | hvisible
  · exact .inl (by rw [hnil])
  · refine .inr ⟨?_, by rwa [String.toList_ofList]⟩
    rw [OneLine, String.toList_ofList]
    exact fun hmem => Text.newline_not_mem_splitLines _ cs hcs (Text.trimEnd_subset cs hmem)

namespace Template

variable {values : List String}

theorem mem_of_fill {cs : List Char} {c : Char} (text : List Char) :
    fill values cs = .ok text → c ∈ text → c ∈ cs ∨ ∃ value ∈ values, c ∈ value.toList := by
  revert text
  fun_induction fill values cs with
  | case1 =>
      rintro _ ⟨⟩ hc
      exact .inl hc
  | case2 => rintro _ ⟨⟩
  | case3 cs number value hvalue ih =>
      intro text h hc
      obtain ⟨rest, hrest, rfl⟩ := map_ok h
      rcases List.mem_append.mp hc with hc | hc
      · obtain ⟨hole, -, hget⟩ := Option.bind_eq_some_iff.mp hvalue
        exact .inr ⟨value, List.mem_of_getElem? hget, hc⟩
      · exact (ih rest hrest hc).imp_left fun hmem =>
          List.mem_cons_of_mem _ ((List.dropWhile_sublist _).subset hmem)
  | case4 first cs hfirst ih =>
      intro text h hc
      obtain ⟨rest, hrest, rfl⟩ := map_ok h
      rcases List.mem_cons.mp hc with rfl | hc
      · exact .inl List.mem_cons_self
      · exact (ih rest hrest hc).imp_left (List.mem_cons_of_mem _)

theorem oneLine_instantiate {template text : String} (h : instantiate template values = .ok text)
    (htemplate : OneLine template) (hvalues : ∀ value ∈ values, OneLine value) :
    OneLine text := by
  rw [instantiate] at h
  split at h
  · rename_i cs hfill
    cases h
    intro hmem
    rw [String.toList_ofList] at hmem
    rcases mem_of_fill cs hfill hmem with hc | ⟨value, hvalue, hc⟩
    · exact htemplate hc
    · exact hvalues value hvalue hc
  · cases h

end Template

namespace Scope.Describes

variable {p : Program} {language : String} {s : Scope} (h : s.Describes p language)
  (hp : p.Readable)

include h hp

theorem oneLine_bases (name : String) : ∀ base ∈ s.bases name, OneLine base := by
  intro base hbase
  obtain ⟨rule, hrule, rfl, -⟩ := h.exists_abstract hbase
  obtain ⟨e, he, rfl, -⟩ := Program.mem_visibleRules.mp hrule
  exact (hp.entries e he).oneLine_name

theorem oneLine_imports (name : String) : ∀ t ∈ s.imports name, OneLine t := by
  intro t ht
  rw [imports] at ht
  split at ht
  · split at ht
    · have hcommon := List.of_mem_filter (Text.mem_sortedSet.mp ht)
      obtain ⟨-, e, he, -, rfl⟩ := h.origin?_eq_common.mp (of_decide_eq_true hcommon)
      exact (hp.entries e he).oneLine_name
    · cases ht
  · cases ht

end Scope.Describes

namespace Java

theorem matchesName_capitalized {s : String} (h : MatchesName s) :
    MatchesName (capitalized s) := by
  obtain ⟨c, cs, hcs, hc, hrest⟩ := h
  have hupper : Text.upper c = [c.toUpper] := by rw [Text.upper, if_pos hc.toNat_lt]
  exact ⟨c.toUpper, cs, by simp [capitalized, mapFirst, hcs, hupper], hc.recased.2, hrest⟩

theorem Slot.printable_ofDescriptors {ds : List Descriptor}
    (h : ∀ d ∈ ds, MatchesTypeName d.typeName) : ∀ s ∈ Slot.ofDescriptors ds, s.Printable := by
  intro s hs
  have htype : MatchesTypeName s.typeName := by
    have hdescriptor := List.mem_map_of_mem (f := Slot.descriptor) hs
    rw [Slot.map_descriptor_ofDescriptors] at hdescriptor
    exact h s.descriptor hdescriptor
  have hfield : s.field ∈ fieldsFor (ds.map Descriptor.typeName) := by
    rw [← Slot.map_field_ofDescriptors]
    exact List.mem_map_of_mem hs
  have hname := (fieldsFor_legal (by simpa using h) hfield).1
  exact ⟨htype.matchesName.oneLine, hname.oneLine, (matchesName_capitalized hname).oneLine⟩

structure Target.Printable (target : Target) : Prop where
  license : ∀ line ∈ target.license.lines, line = "" ∨ Filled line
  version : Filled target.version
  rootPackage : OneLine target.rootPackage
  corePackage : OneLine target.corePackage

namespace Target.Printable

variable {target : Target} (h : target.Printable)

include h

theorem packageName {language : String} (hlanguage : OneLine language) :
    OneLine (target.packageName language) := by
  simp (disch := apply oneLine_literal <;> decide) only
    [Target.packageName, oneLine_append, oneLine_true, h.rootPackage, hlanguage, and_self]

theorem baseImport {name : String} (hname : OneLine name) : OneLine (target.baseImport name) := by
  simp (disch := apply oneLine_literal <;> decide) only
    [Target.baseImport, Target.basePackage, oneLine_append, oneLine_true, h.corePackage, hname,
      and_self]

theorem commonImports {names : List String} (hnames : ∀ name ∈ names, OneLine name) :
    ∀ name ∈ names.map target.commonImport, OneLine name := by
  rw [List.forall_mem_map]
  intro name hname
  have hpackage : OneLine (target.packageName commonLanguage) :=
    h.packageName (oneLine_literal rfl)
  simp (disch := apply oneLine_literal <;> decide) only
    [Target.commonImport, oneLine_append, oneLine_true, hpackage, hnames name hname, and_self]

theorem typeImports (groups : List String) :
    ∀ name ∈ NodeType.imports target groups, OneLine name := by
  have hbase : ∀ name ∈ ["Builder", "ChildDescriptor", "EmptyFragment", "Fragment", "Node", "Type"],
      OneLine name := by
    simp (disch := apply oneLine_literal <;> decide) [oneLine_true]
  rw [NodeType.imports, List.forall_mem_append, List.forall_mem_append, List.forall_mem_map]
  refine ⟨⟨?_, ?_⟩, fun name hname => h.baseImport (hbase name hname)⟩
  · split
    · simp
    · exact List.forall_mem_singleton.mpr (oneLine_literal rfl)
  · simp (disch := apply oneLine_literal <;> decide) [oneLine_append, oneLine_true, h.corePackage]

theorem childImports (slots : List Slot) :
    ∀ name ∈ NodeClass.childImports target slots, OneLine name := by
  have hcore {name : String} (hname : OneLine name) : OneLine (target.corePackage ++ name) :=
    oneLine_append.mpr ⟨h.corePackage, hname⟩
  rw [NodeClass.childImports]
  split
  · simp
  rw [List.forall_mem_cons]
  refine ⟨hcore (oneLine_literal rfl), ?_⟩
  split
  · simp
  · exact List.forall_mem_singleton.mpr (hcore (oneLine_literal rfl))

end Target.Printable

theorem SourceFile.printable_make {target : Target} (htarget : target.Printable)
    {language : String} (hlanguage : OneLine language) {imports : List String}
    (himports : ∀ name ∈ imports, OneLine name) {declaration : Declaration}
    (hdeclaration : declaration.Printable) :
    (SourceFile.make target.license (target.packageName language) imports
      declaration).Printable where
  license := htarget.license
  package := htarget.packageName hlanguage
  imports name hname := himports name (Text.mem_sortedSet.mp hname)
  declaration := hdeclaration

section Files

variable {p : Program} (hp : p.Readable) {target : Target} (htarget : target.Printable)
  {scope : Scope} {e : Entry} (he : e ∈ p.entries) (hscope : scope.Describes p e.language)

include hp htarget he hscope

theorem Outline.printable_make : (Outline.make target scope e).Printable where
  name := (hp.entries e he).oneLine_name
  language := (hp.entries e he).wellFormed.language.oneLine
  version := htarget.version
  supertypes := by
    change ∀ t ∈ supertypesIn scope e.name, OneLine t
    rw [supertypesIn]
    split
    · exact List.forall_mem_singleton.mpr (oneLine_literal rfl)
    · exact hscope.oneLine_bases hp e.name
  groups := by
    intro t ht
    have hname := hscope.isName_groups hp (hp.entries e he).rule.isTypeName.2 t ht
    exact hname.not_mem rfl

theorem FileOf.printable {f : SourceFile} (h : FileOf target scope e f)
    (hparts : ∀ r, e.rule = .literal r → ∀ part ∈ r.parts, OneLine part) : f.Printable := by
  have ho := Outline.printable_make hp htarget he hscope
  have hentry := (hp.entries e he).wellFormed
  have hlanguage := hentry.language.oneLine
  have hcommon := hscope.oneLine_imports hp e.name
  cases h with
  | marker =>
      refine SourceFile.printable_make htarget hlanguage ?_ (Marker.declaration_printable ho)
      rw [Marker.imports, List.forall_mem_append]
      constructor
      · split
        · exact List.forall_mem_singleton.mpr (htarget.baseImport (oneLine_literal rfl))
        · simp
      · exact htarget.commonImports fun name hname => hcommon name (List.mem_of_mem_filter hname)
  | node hrule =>
      have hform := hentry.rule
      rw [hrule] at hform
      have hslots := Slot.printable_ofDescriptors (NodeRule.matchesTypeName_of_mem hform)
      refine SourceFile.printable_make htarget hlanguage ?_
        (NodeClass.declaration_printable hslots ho)
      rw [NodeClass.imports, List.forall_mem_append, List.forall_mem_append]
      exact ⟨⟨htarget.typeImports _, htarget.childImports _⟩, htarget.commonImports hcommon⟩
  | @literal r serialized parsed hrule hserialized hparsed =>
      have hr := hparts r hrule
      have hwritten : OneLine serialized :=
        Template.oneLine_instantiate hserialized (hr r.serializer (by simp [LiteralRule.parts]))
          (List.forall_mem_singleton.mpr (oneLine_literal rfl))
      have hread : OneLine parsed :=
        Template.oneLine_instantiate hparsed (hr r.parser (by simp [LiteralRule.parts]))
          (List.forall_mem_singleton.mpr (oneLine_literal rfl))
      refine SourceFile.printable_make htarget hlanguage ?_
        (LiteralClass.declaration_printable hread ho hr hwritten)
      rw [LiteralClass.imports, List.forall_mem_append]
      exact ⟨htarget.typeImports _, htarget.commonImports hcommon⟩

end Files

end Java

/-- Every file that is made from `source` is tidy, whatever the license, if the packages, the
version and the parts of literals break no line and the version ends in a character that is not
blank. -/
theorem compile_tidy {source : String} {settings : Settings} {out : Output}
    (h : compile source settings = .ok out)
    (hparts : ∀ p, Program.ofText source = .ok p → ∀ e ∈ p.entries, ∀ r, e.rule = .literal r →
      ∀ part ∈ r.parts, '\n' ∉ part.toList)
    (hroot : '\n' ∉ settings.rootPackage.toList) (hcore : '\n' ∉ settings.corePackage.toList)
    (hversion : settings.version ≠ "") (hline : '\n' ∉ settings.version.toList)
    (hend : ∀ c ∈ settings.version.toList.getLast?, Text.isBlank c = false) :
    ∀ file ∈ out.files, Text.Tidy file.content := by
  intro file hfile
  obtain ⟨p, hread, hp, hgenerate⟩ := compile_ok h
  obtain ⟨e, he, f, ⟨-, scope, hscope, hf⟩, rfl⟩ := Program.exists_entry hgenerate hfile
  have hvisible := Text.endsVisibly_of_last (mt String.toList_eq_nil_iff.mp hversion) hend
  have htarget : settings.target.Printable :=
    ⟨License.filled_ofText settings.license, ⟨hline, hvisible⟩, hroot, hcore⟩
  exact ((Java.generate_ok hf).1.printable hp htarget he (Scope.describes hscope)
    (hparts p hread e he)).tidy

def looseText : String := "Text <- $String$, $ # $, $#.trim( )$\nPair <- Text, Text"

def looseRule : LiteralRule := ⟨"Text", "String", " # ", "#.trim( )", none⟩

def loosePair : NodeRule :=
  .ordinary "Pair" [.descriptor (.plain "Text" .one), .descriptor (.plain "Text" .one)]

def loose : Program := .unasked [⟨"common", .literal looseRule⟩, ⟨"common", .node loosePair⟩]

def looseSettings : Settings where
  license := "\n A  \n\n\n B \t\n\n"
  version := "1 0"

theorem instantiate_loose :
    Template.instantiate " # " ["this.data"] = .ok " this.data " ∧
      Template.instantiate "#.trim( )" ["str"] = .ok "str.trim( )" := by
  constructor <;> with_unfolding_all rfl

/-- The blanks of a template stay where they are not at the end of a line. -/
def looseMethod : String := "    public String getData() \x7b\n        return  this.data ;\n"

theorem render_loose {scope : Scope} {f : Java.SourceFile}
    (hscope : Scope.ofProgram loose "common" = .ok scope)
    (hf : Java.FileOf looseSettings.target scope ⟨"common", .literal looseRule⟩ f) :
    ∃ front back, f.render = front ++ looseMethod ++ back := by
  obtain rfl : _ = scope := Except.ok.inj hscope
  obtain ⟨steps, hmid, hdepth, hrender⟩ : ∃ steps,
      (steps.drop 65).take 3 =
          [.line "public String getData() \x7b", .indent, .line "return  this.data ;"] ∧
        (Java.Page.empty.run (steps.take 65)).depth = 1 ∧ f.render = Java.Layout.render steps := by
    cases hf with
    | marker => contradiction
    | node hrule => cases hrule
    | literal hrule hserialized hparsed =>
        cases hrule
        obtain rfl := Except.ok.inj (instantiate_loose.1.symm.trans hserialized)
        obtain rfl := Except.ok.inj (instantiate_loose.2.symm.trans hparsed)
        exact ⟨_, rfl, rfl, rfl⟩
  obtain ⟨front, back, htext⟩ := Java.Page.exists_render (steps.take 65) ((steps.drop 65).take 3)
    ((steps.drop 65).drop 3)
  rw [List.take_append_drop, List.take_append_drop, hmid, hdepth] at htext
  exact ⟨front, back, hrender.trans htext⟩

theorem compile_tidy_loose : ∃ out, compile looseText looseSettings = .ok out ∧
    Program.ofText looseText = .ok loose ∧
    (∃ file ∈ out.files, ∃ front back, file.content = front ++ looseMethod ++ back) ∧
    ∀ file ∈ out.files, Text.Tidy file.content := by
  have hread : Program.ofText looseText = .ok loose := by with_unfolding_all rfl
  have hentries {P : Entry → Prop} (hliteral : P ⟨"common", .literal looseRule⟩)
      (hpair : P ⟨"common", .node loosePair⟩) : ∀ e ∈ loose.entries, P e := by
    rw [loose, Program.entries_unasked, List.forall_mem_cons, List.forall_mem_singleton]
    exact ⟨hliteral, hpair⟩
  obtain ⟨out, hgenerate⟩ : ∃ out, loose.generate looseSettings.target = .ok out := by
    have hfile (scope : Scope) (e : Entry) :
        ∃ f, Java.literalFile looseSettings.target scope e looseRule = .ok f := by
      rw [Java.literalFile, looseRule, instantiate_loose.1, instantiate_loose.2]
      exact ⟨_, rfl⟩
    exact Program.exists_generate_iff.mpr (hentries ⟨_, rfl, hfile _ _⟩ ⟨_, rfl, _, rfl⟩)
  have hcompile : compile looseText looseSettings = .ok out := by
    rw [compile, hread]
    exact hgenerate
  obtain ⟨f, hfile, scope, hscope, hf⟩ :=
    (Program.generate_ok hgenerate).2 ⟨"common", .literal looseRule⟩ List.mem_cons_self
  refine ⟨out, hcompile, hread,
    ⟨_, hfile, render_loose hscope (Java.generate_ok hf).1⟩, ?_⟩
  refine compile_tidy hcompile ?_ (by decide) (by decide) (by decide) (by decide) ?_
  · intro p hp
    obtain rfl : loose = p := Except.ok.inj (hread.symm.trans hp)
    apply hentries
    · rintro r ⟨⟩
      decide
    · rintro r ⟨⟩
  · have hlast : looseSettings.version.toList.getLast? = some '0' := by decide
    rw [hlast]
    rintro c ⟨⟩
    rfl

end NodeRules
