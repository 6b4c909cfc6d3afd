import Mathlib.Data.List.Chain
import Mathlib.Data.List.Forall2
import NodeRules.Java.SourceFile
import NodeRules.Proofs.Java.Indentation

namespace NodeRules

namespace Text

def OneLine (s : String) : Prop := '\n' ∉ s.toList

theorem oneLine_append {s t : String} : OneLine (s ++ t) ↔ OneLine s ∧ OneLine t := by
  simp [OneLine]

def endsVisibly (cs : List Char) : Bool := cs.getLast?.any fun c => !isBlank c

theorem endsVisibly_append (cs : List Char) {ds : List Char} (h : endsVisibly ds = true) :
    endsVisibly (cs ++ ds) = true := by
  cases hlast : ds.getLast? with
  | none => simp [endsVisibly, hlast] at h
  | some c => simpa [endsVisibly, List.getLast?_append, hlast] using h

theorem endsVisibly_of_last {cs : List Char} (hne : cs ≠ [])
    (h : ∀ c ∈ cs.getLast?, isBlank c = false) : endsVisibly cs = true := by
  have hlast := List.getLast?_eq_some_getLast hne
  simp [endsVisibly, hlast, h _ hlast]

theorem ne_nil_of_endsVisibly {cs : List Char} (h : endsVisibly cs = true) : cs ≠ [] := by
  rintro rfl
  cases h

structure Filled (s : String) : Prop where
  oneLine : OneLine s
  visible : endsVisibly s.toList = true

theorem filled_append (s : String) {t : String} (ht : Filled t) :
    Filled (s ++ t) ↔ OneLine s := by
  refine ⟨fun h => (oneLine_append.mp h.oneLine).1, fun hs => ⟨?_, ?_⟩⟩
  · exact oneLine_append.mpr ⟨hs, ht.oneLine⟩
  · rw [String.toList_append]
    exact endsVisibly_append _ ht.visible

-- Texts in quotes are stored by their characters, so these lemmas apply to them as they are.
theorem oneLine_literal {cs : List Char} (h : cs.elem '\n' = false) :
    OneLine (String.ofList cs) := by
  simpa [OneLine] using h

theorem filled_literal {cs : List Char} (h : (!cs.elem '\n' && endsVisibly cs) = true) :
    Filled (String.ofList cs) := by
  obtain ⟨hline, hvisible⟩ := Bool.and_eq_true_iff.mp h
  exact ⟨oneLine_literal (by simpa using hline), by rwa [String.toList_ofList]⟩

/-- No line ends in a blank, no two empty lines follow each other, and a closing brace stands on the
last line. -/
structure Tidy (content : String) : Prop where
  noBlank : ∀ line ∈ content.toList.splitOn '\n', ∀ c ∈ line.getLast?, isBlank c = false
  noGap : (content.toList.splitOn '\n').IsChain fun line next => line ≠ [] ∨ next ≠ []
  closed : ∃ front, content = front ++ "\x7d\n"

/-- Lines that end visibly, with at most one empty line between each two. -/
inductive Neat : List (List Char) → Prop
  | last {line : List Char} (hline : endsVisibly line = true) : Neat [line]
  | next {line : List Char} {lines : List (List Char)} (hline : endsVisibly line = true)
      (hlines : Neat lines) : Neat (line :: lines)
  | gap {line : List Char} {lines : List (List Char)} (hline : endsVisibly line = true)
      (hlines : Neat lines) : Neat (line :: [] :: lines)

namespace Neat

variable {lines more : List (List Char)}

theorem append (h : Neat lines) (hmore : Neat more) : Neat (lines ++ more) := by
  induction h with
  | last hline => exact .next hline hmore
  | next hline _ ih => exact .next hline ih
  | gap hline _ ih => exact .gap hline ih

theorem separate (h : Neat lines) (hmore : Neat more) : Neat (lines ++ [] :: more) := by
  induction h with
  | last hline => exact .gap hline hmore
  | next hline _ ih => exact .next hline ih
  | gap hline _ ih => exact .gap hline ih

theorem of_forall (hne : lines ≠ []) (h : ∀ line ∈ lines, endsVisibly line = true) :
    Neat lines := by
  induction lines with
  | nil => exact absurd rfl hne
  | cons line lines ih =>
      obtain ⟨hline, hlines⟩ := List.forall_mem_cons.mp h
      by_cases hlast : lines = []
      · exact hlast ▸ .last hline
      · exact .next hline (ih hlast hlines)

theorem exists_cons (h : Neat lines) : ∃ first rest, lines = first :: rest ∧ first ≠ [] := by
  cases h with
  | last hline | next hline _ | gap hline _ => exact ⟨_, _, rfl, ne_nil_of_endsVisibly hline⟩

theorem noBlank (h : Neat lines) : ∀ line ∈ lines, ∀ c ∈ line.getLast?, isBlank c = false := by
  have hvisible {line : List Char} (hline : endsVisibly line = true) :
      ∀ c ∈ line.getLast?, isBlank c = false := by
    intro c hc
    simpa [endsVisibly, Option.mem_def.mp hc] using hline
  induction h with
  | last hline => simpa using hvisible hline
  | next hline _ ih => exact List.forall_mem_cons.mpr ⟨hvisible hline, ih⟩
  | gap hline _ ih => exact List.forall_mem_cons.mpr ⟨hvisible hline, by simpa using ih⟩

theorem noGap (h : Neat lines) :
    (lines ++ [[]]).IsChain fun line next => line ≠ [] ∨ next ≠ [] := by
  induction h with
  | last hline => simp [ne_nil_of_endsVisibly hline]
  | next hline _ ih =>
      refine List.isChain_cons.mpr ⟨?_, ih⟩
      intro next _
      exact .inl (ne_nil_of_endsVisibly hline)
  | gap hline hlines ih =>
      obtain ⟨first, rest, rfl, hfirst⟩ := hlines.exists_cons
      refine List.isChain_cons_cons.mpr ⟨.inl (ne_nil_of_endsVisibly hline), ?_⟩
      exact List.isChain_cons_cons.mpr ⟨.inr hfirst, ih⟩

end Neat

end Text

namespace Java

open Text (Filled Neat OneLine endsVisibly)

namespace Page

/-- How a line stands on the page: with a margin, unless it is empty. -/
def IsRow (row text : List Char) : Prop :=
  ∃ n, row = if text = [] then [] else List.replicate n ' ' ++ text

theorem IsRow.endsVisibly {row text : List Char} (h : IsRow row text)
    (htext : Text.endsVisibly text = true) : Text.endsVisibly row = true := by
  obtain ⟨n, rfl⟩ := h
  rw [if_neg (Text.ne_nil_of_endsVisibly htext)]
  exact Text.endsVisibly_append _ htext

theorem isRow_nil {row : List Char} (h : IsRow row []) : row = [] := by
  obtain ⟨n, rfl⟩ := h
  rfl

theorem written_close (depth : Nat) : written depth [.dedent, .line "\x7d"] =
    List.replicate (4 * (depth - 1)) ' ' ++ "\x7d\n".toList := by
  have hdedent : written depth [.dedent, .line "\x7d"] = written (depth - 1) [.line "\x7d"] := rfl
  rw [hdedent, written_line, renderLine_eq]
  simp [written, run]

theorem neat_rows {rows texts : List (List Char)} (hrows : List.Forall₂ IsRow rows texts)
    (h : Neat texts) : Neat rows := by
  induction h generalizing rows with
  | last htext =>
      obtain ⟨row, rest, hrow, hrest, rfl⟩ := List.forall₂_cons_right_iff.mp hrows
      rw [List.forall₂_nil_right_iff.mp hrest]
      exact .last (hrow.endsVisibly htext)
  | next htext _ ih =>
      obtain ⟨row, rest, hrow, hrest, rfl⟩ := List.forall₂_cons_right_iff.mp hrows
      exact .next (hrow.endsVisibly htext) (ih hrest)
  | gap htext _ ih =>
      obtain ⟨row, rest, hrow, hrest, rfl⟩ := List.forall₂_cons_right_iff.mp hrows
      obtain ⟨empty, more, hempty, hmore, rfl⟩ := List.forall₂_cons_right_iff.mp hrest
      obtain rfl := isRow_nil hempty
      exact .gap (hrow.endsVisibly htext) (ih hmore)

end Page

namespace Layout

def texts (steps : List Step) : List (List Char) :=
  steps.filterMap fun
    | .line text => some text.toList
    | _ => none

@[simp] theorem texts_nil : texts [] = [] := rfl

@[simp] theorem texts_line (text : String) (steps : List Step) :
    texts (.line text :: steps) = text.toList :: texts steps := rfl

@[simp] theorem texts_indent (steps : List Step) : texts (.indent :: steps) = texts steps := rfl

@[simp] theorem texts_dedent (steps : List Step) : texts (.dedent :: steps) = texts steps := rfl

@[simp] theorem texts_append (steps more : List Step) :
    texts (steps ++ more) = texts steps ++ texts more := List.filterMap_append

@[simp] theorem texts_lines (ts : List String) : texts (lines ts) = ts.map String.toList := by
  induction ts with
  | nil => rfl
  | cons t ts ih => exact congrArg _ ih

theorem Balanced.newline_not_mem {steps : List Step} (h : Balanced steps) :
    ∀ text ∈ texts steps, '\n' ∉ text := by
  induction h with
  | nil => simp
  | line htext _ ih => simpa using ⟨htext, ih⟩
  | level _ _ ihbody ih =>
      simp only [List.cons_append, texts_indent, texts_append, texts_dedent,
        List.forall_mem_append]
      exact ⟨ihbody, ih⟩

/-- Line after line, the page shows the texts of the layout. -/
theorem splitOn_written {steps : List Step} (h : ∀ text ∈ texts steps, '\n' ∉ text)
    (depth : Nat) : ∃ rows, (Page.written depth steps).splitOn '\n' = rows ++ [[]] ∧
      List.Forall₂ Page.IsRow rows (texts steps) := by
  induction steps generalizing depth with
  | nil => exact ⟨[], rfl, .nil⟩
  | cons first steps ih =>
      cases first with
      | indent => exact ih h (depth + 1)
      | dedent => exact ih h (depth - 1)
      | line text =>
          obtain ⟨htext, hsteps⟩ := List.forall_mem_cons.mp h
          obtain ⟨rows, hsplit, hrows⟩ := ih hsteps depth
          refine ⟨_ :: rows, ?_, .cons ⟨4 * depth, rfl⟩ hrows⟩
          have hrow : '\n' ∉ if text.toList = [] then [] else
              List.replicate (4 * depth) ' ' ++ text.toList := by
            split <;> simp [htext]
          rw [Page.written_line, Page.renderLine_eq, List.append_assoc, List.singleton_append,
            List.splitOn_append_cons_self, List.splitOn_eq_singleton hrow, hsplit]
          rfl

theorem neat_texts {ts : List String} (hne : ts ≠ []) (h : ∀ t ∈ ts, Filled t) :
    Neat (texts (lines ts)) := by
  rw [texts_lines]
  refine .of_forall (by simpa using hne) ?_
  simp only [List.forall_mem_map]
  exact fun t ht => (h t ht).visible

theorem neat_block {header : String} (hheader : OneLine header) {body : List Step}
    (hbody : texts body = [] ∨ Neat (texts body)) : Neat (texts (block header body)) := by
  have hstart : Filled (header ++ " \x7b") :=
    (Text.filled_append header (Text.filled_literal rfl)).mpr hheader
  have hend : Neat ["\x7d".toList] := .last (Text.filled_literal rfl).visible
  have htexts : texts (block header body) =
      (header ++ " \x7b").toList :: (texts body ++ ["\x7d".toList]) := by
    simp [block, blockStart, blockEnd]
  rw [htexts]
  refine .next hstart.visible ?_
  rcases hbody with hnil | hneat
  · rwa [hnil]
  · exact hneat.append hend

theorem neat_separated {parts : List (List Step)} (hne : parts ≠ [])
    (h : ∀ part ∈ parts, Neat (texts part)) : Neat (texts (separated parts)) := by
  fun_induction separated parts with
  | case1 => exact absurd rfl hne
  | case2 part => exact h part List.mem_cons_self
  | case3 part parts hmore ih =>
      obtain ⟨hpart, hparts⟩ := List.forall_mem_cons.mp h
      rw [texts_append]
      exact hpart.separate (ih hmore hparts)

theorem neat_body {header : String} (hheader : OneLine header) {parts : List (List Step)}
    (h : ∀ part ∈ parts, Neat (texts part)) : Neat (texts (block header (separated parts))) := by
  apply neat_block hheader
  by_cases hne : parts = []
  · exact .inl (hne ▸ rfl)
  · exact .inr (neat_separated hne h)

theorem neat_comment {start : String} (hstart : Filled start) {ts : List String}
    (h : ∀ t ∈ ts, t = "" ∨ Filled t) : Neat (texts (comment start ts)) := by
  have hlines : comment start ts =
      lines (start :: (ts.map fun t => if t = "" then " *" else " * " ++ t) ++ [" */"]) := by
    simp [comment, lines]
  rw [hlines]
  apply neat_texts (by simp)
  rw [List.forall_mem_append, List.forall_mem_cons, List.forall_mem_map,
    List.forall_mem_singleton]
  refine ⟨⟨hstart, ?_⟩, Text.filled_literal rfl⟩
  intro t ht
  split
  · exact Text.filled_literal rfl
  · rename_i hne
    exact (Text.filled_append _ ((h t ht).resolve_left hne)).mpr (Text.oneLine_literal rfl)

end Layout

theorem neat_javadoc {ts : List String} (h : ∀ t ∈ ts, t = "" ∨ Filled t) :
    Neat (Layout.texts (javadoc ts)) := Layout.neat_comment (Text.filled_literal rfl) h

theorem filled_statement {text : String} (h : OneLine text) : Filled (text ++ ";") :=
  (Text.filled_append text (Text.filled_literal rfl)).mpr h

structure Field.Printable (f : Field) : Prop where
  brief : Filled f.brief
  declaration : OneLine f.declaration
  initializer : ∀ text ∈ f.initializer, Filled text

namespace Field

theorem neat_layoutDeclaration {declaration : String} (h : OneLine declaration)
    {initializer : List String} (hvalue : ∀ text ∈ initializer, Filled text) :
    Neat (Layout.texts (layoutDeclaration declaration initializer)) := by
  have hopen : OneLine (declaration ++ " = ") :=
    Text.oneLine_append.mpr ⟨h, Text.oneLine_literal rfl⟩
  fun_cases layoutDeclaration declaration initializer with
  | case1 => exact .last (filled_statement h).visible
  | case2 value =>
      have hline := Text.oneLine_append.mpr ⟨hopen, (hvalue value (by simp)).oneLine⟩
      exact .last (filled_statement hline).visible
  | case3 first second more =>
      obtain ⟨hfirst, hrest⟩ := List.forall_mem_cons.mp hvalue
      have hlast := hrest _ (List.getLast_mem (List.cons_ne_nil second more))
      apply Neat.of_forall (by simp)
      simp only [Layout.texts_append, Layout.texts_line, Layout.texts_indent, Layout.texts_dedent,
        Layout.texts_nil, Layout.texts_lines, List.forall_mem_append, List.forall_mem_map,
        List.forall_mem_singleton]
      exact ⟨⟨((Text.filled_append _ hfirst).mpr hopen).visible,
        fun text htext => (hrest text (List.mem_of_mem_dropLast htext)).visible⟩,
        (filled_statement hlast.oneLine).visible⟩

theorem Printable.neat {f : Field} (h : f.Printable) : Neat (Layout.texts f.layout) := by
  rw [layout, Layout.texts_append]
  exact (neat_javadoc (by simp [h.brief])).append
    (neat_layoutDeclaration h.declaration h.initializer)

theorem Printable.oneLine {f : Field} (h : f.Printable) : ∀ text ∈ f.texts, OneLine text := by
  rw [texts, List.forall_mem_cons, List.forall_mem_cons]
  exact ⟨h.brief.oneLine, h.declaration, fun text htext => (h.initializer text htext).oneLine⟩

end Field

structure Method.Printable (m : Method) : Prop where
  documentation : ∀ text ∈ m.documentation.getD [], Filled text
  signature : OneLine m.signature
  body : ∀ text ∈ m.body, Filled text

namespace Method

theorem Printable.neat {m : Method} (h : m.Printable) : Neat (Layout.texts m.layout) := by
  have hhead : Neat (Layout.texts (layoutHead m.documentation)) := by
    cases hm : m.documentation with
    | none => exact .last (Text.filled_literal rfl).visible
    | some ts =>
        have hts := h.documentation
        rw [hm] at hts
        exact neat_javadoc fun t ht => .inr (hts t ht)
  rw [layout, Layout.texts_append]
  refine hhead.append (Layout.neat_block h.signature ?_)
  by_cases hne : m.body = []
  · exact .inl (hne ▸ rfl)
  · exact .inr (Layout.neat_texts hne h.body)

theorem Printable.oneLine {m : Method} (h : m.Printable) : ∀ text ∈ m.texts, OneLine text := by
  rw [texts, List.forall_mem_append, List.forall_mem_cons]
  exact ⟨fun text htext => (h.documentation text htext).oneLine, h.signature,
    fun text htext => (h.body text htext).oneLine⟩

end Method

namespace Declaration

inductive Printable : Declaration → Prop
  | intro {d : Declaration} (brief : Filled d.brief) (version : Filled d.version)
      (modifiers : OneLine d.modifiers) (name : OneLine d.name)
      (supertypes : ∀ t ∈ d.supertypes, OneLine t) (fields : ∀ f ∈ d.fields, f.Printable)
      (methods : ∀ m ∈ d.methods, m.Printable) (nested : ∀ n ∈ d.nested, Printable n) :
      Printable d

theorem layoutAll_eq_map (ds : List Declaration) : layoutAll ds = ds.map layout := by
  induction ds with
  | nil => rfl
  | cons d ds ih => rw [layoutAll, ih, List.map_cons]

theorem textsAll_eq_flatMap (ds : List Declaration) : textsAll ds = ds.flatMap texts := by
  induction ds with
  | nil => rfl
  | cons d ds ih => rw [textsAll, ih, List.flatMap_cons]

theorem Printable.oneLine {d : Declaration} (h : d.Printable) :
    ∀ text ∈ d.texts, OneLine text := by
  induction h with
  | @intro d hbrief hversion hmodifiers hname hsupertypes hfields hmethods _ ih =>
      obtain ⟨form, brief, version, modifiers, name, supertypes, fields, methods, nested⟩ := d
      simp only [texts, textsAll_eq_flatMap, List.forall_mem_append, List.forall_mem_flatMap,
        List.forall_mem_cons]
      exact ⟨⟨⟨⟨⟨hbrief.oneLine, hversion.oneLine, hmodifiers, hname, by simp⟩, hsupertypes⟩,
        fun f hf => (hfields f hf).oneLine⟩, fun m hm => (hmethods m hm).oneLine⟩, ih⟩

theorem Printable.neat {d : Declaration} (h : d.Printable) : Neat (Layout.texts d.layout) := by
  induction h with
  | @intro d hbrief hversion hmodifiers hname hsupertypes hfields hmethods _ ih =>
      obtain ⟨form, brief, version, modifiers, name, supertypes, fields, methods, nested⟩ := d
      have hsince : Filled ("@since " ++ version) :=
        (Text.filled_append _ hversion).mpr (Text.oneLine_literal rfl)
      have hdoc : Neat (Layout.texts (javadoc [brief, "", "@since " ++ version])) := by
        apply neat_javadoc
        rw [List.forall_mem_cons, List.forall_mem_cons, List.forall_mem_singleton]
        exact ⟨.inr hbrief, .inl rfl, .inr hsince⟩
      rw [layout, Layout.texts_append, layoutAll_eq_map]
      refine hdoc.append
        (Layout.neat_body (newline_not_mem_header form hmodifiers hname hsupertypes) ?_)
      simp only [List.forall_mem_append, List.forall_mem_map]
      exact ⟨⟨fun f hf => (hfields f hf).neat, fun m hm => (hmethods m hm).neat⟩, ih⟩

theorem layout_eq_append (d : Declaration) :
    ∃ front, d.layout = front ++ [.dedent, .line "\x7d"] := by
  obtain ⟨form, brief, version, modifiers, name, supertypes, fields, methods, nested⟩ := d
  rw [layout, Layout.block, Layout.blockEnd, ← List.append_assoc]
  exact ⟨_, rfl⟩

end Declaration

namespace SourceFile

structure Printable (f : SourceFile) : Prop where
  license : ∀ line ∈ f.license.lines, line = "" ∨ Filled line
  package : OneLine f.package
  imports : ∀ name ∈ f.imports, OneLine name
  declaration : f.declaration.Printable

variable {f : SourceFile}

theorem Printable.balanced (h : f.Printable) : Layout.Balanced f.layout := by
  have hempty : Layout.Balanced [Layout.blank] := .line (by decide) .nil
  have hlicense : Layout.Balanced (layoutLicense f.license) := by
    rw [layoutLicense]
    split
    · exact .nil
    · refine (Layout.balanced_comment (by decide) ?_).append hempty
      intro line hline
      rcases h.license line hline with rfl | hfilled
      · decide
      · exact hfilled.oneLine
  have hpackage : Layout.Balanced [.line ("package " ++ f.package ++ ";"), Layout.blank] :=
    .line (by simpa [OneLine] using h.package) hempty
  have himports : Layout.Balanced (layoutImports f.imports) := by
    rw [layoutImports]
    split
    · exact .nil
    · refine (Layout.balanced_lines ?_).append hempty
      simpa [OneLine] using h.imports
  exact ((hlicense.append hpackage).append himports).append
    (Declaration.balanced_layout f.declaration h.declaration.oneLine)

theorem Printable.neat (h : f.Printable) : Neat (Layout.texts f.layout) := by
  have hstatement (keyword : String) (hkeyword : OneLine keyword) {name : String}
      (hname : OneLine name) : Filled (keyword ++ name ++ ";") :=
    filled_statement (Text.oneLine_append.mpr ⟨hkeyword, hname⟩)
  have himports : Neat (Layout.texts (layoutImports f.imports ++ f.declaration.layout)) := by
    rw [layoutImports]
    split
    · exact h.declaration.neat
    · rename_i hne
      rw [List.append_assoc, Layout.texts_append]
      refine (Layout.neat_texts (by simpa using hne) ?_).separate h.declaration.neat
      simp only [List.forall_mem_map]
      exact fun name hname => hstatement "import " (Text.oneLine_literal rfl) (h.imports name hname)
  have hpackage : Neat (Layout.texts
      ([.line ("package " ++ f.package ++ ";"), Layout.blank] ++
        (layoutImports f.imports ++ f.declaration.layout))) :=
    .gap (hstatement "package " (Text.oneLine_literal rfl) h.package).visible himports
  rw [layout, List.append_assoc, List.append_assoc, layoutLicense]
  split
  · exact hpackage
  · rw [List.append_assoc, Layout.texts_append]
    exact (Layout.neat_comment (Text.filled_literal rfl) h.license).separate hpackage

theorem render_closed (f : SourceFile) : ∃ front, f.render = front ++ "\x7d\n" := by
  obtain ⟨front, hlayout⟩ := f.declaration.layout_eq_append
  have hrender : f.render.toList = Page.written 0 f.layout := rfl
  rw [layout, hlayout, ← List.append_assoc, Page.written_append, Page.written_close,
    ← List.append_assoc] at hrender
  obtain ⟨cs, hcs⟩ : ∃ cs, f.render.toList = cs ++ "\x7d\n".toList := ⟨_, hrender⟩
  refine ⟨String.ofList cs, String.toList_inj.mp ?_⟩
  simp [hcs]

theorem Printable.tidy (h : f.Printable) : Text.Tidy f.render := by
  obtain ⟨rows, hsplit, hrows⟩ := Layout.splitOn_written h.balanced.newline_not_mem 0
  have hneat := Page.neat_rows hrows h.neat
  have hcontent : f.render.toList.splitOn '\n' = rows ++ [[]] := hsplit
  refine ⟨?_, ?_, f.render_closed⟩
  · rw [hcontent, List.forall_mem_append]
    exact ⟨hneat.noBlank, by simp⟩
  · rw [hcontent]
    exact hneat.noGap

end SourceFile

end Java

end NodeRules
