import Mathlib.Data.Char
import Mathlib.Data.List.Infix
import Mathlib.Order.Basic
import NodeRules.Java.Declaration
import NodeRules.Proofs.Token.Written

namespace NodeRules

namespace Text

/-- The text with `n` spaces in front of every line that is not empty. -/
def indented (n : Nat) (cs : List Char) : List Char :=
  ['\n'].intercalate ((cs.splitOn '\n').map fun line =>
    if line = [] then [] else List.replicate n ' ' ++ line)

theorem indented_newline (n : Nat) (cs ds : List Char) :
    indented n (cs ++ '\n' :: ds) = indented n cs ++ '\n' :: indented n ds := by
  have hne (es : List Char) : (es.splitOn '\n').map (fun line =>
      if line = [] then [] else List.replicate n ' ' ++ line) ≠ [] := by
    simp [List.splitOn_ne_nil]
  rw [indented, List.splitOn_append_cons_self, List.map_append,
    intercalate_append (hne cs) (hne ds), List.append_assoc]
  rfl

theorem indented_line (n : Nat) {line : List Char} (h : '\n' ∉ line) :
    indented n line = if line = [] then [] else List.replicate n ' ' ++ line := by
  rw [indented, List.splitOn_eq_singleton h, List.map_singleton, List.intercalate_singleton]

@[simp] theorem indented_nil (n : Nat) : indented n [] = [] := indented_line n (by simp)

example : indented 2 "a\n\n b\n".toList = "  a\n\n   b\n".toList := by decide

def EndsLine (cs : List Char) : Prop := cs = [] ∨ ∃ front, cs = front ++ ['\n']

theorem EndsLine.append {cs ds : List Char} (hcs : EndsLine cs) (hds : EndsLine ds) :
    EndsLine (cs ++ ds) := by
  rcases hds with rfl | ⟨front, rfl⟩
  · rwa [List.append_nil]
  · exact .inr ⟨cs ++ front, by rw [List.append_assoc]⟩

theorem EndsLine.indented_append {cs : List Char} (h : EndsLine cs) (n : Nat) (ds : List Char) :
    indented n (cs ++ ds) = indented n cs ++ indented n ds := by
  rcases h with rfl | ⟨front, rfl⟩
  · simp
  · simp [indented_newline]

end Text

namespace Java

namespace Page

def written (depth : Nat) (steps : List Step) : List Char :=
  ((Page.mk depth "").run steps).text.toList

section Run

variable (p : Page) (steps more : List Step)

theorem run_append : p.run (steps ++ more) = (p.run steps).run more := List.foldl_append

/-- What is written depends on the depth and not on the text in front. -/
theorem run_text : (p.run steps).text.toList = p.text.toList ++ written p.depth steps := by
  induction steps generalizing p with
  | nil => simp [run, written]
  | cons first steps ih =>
      have hpage : (p.run (first :: steps)).text.toList = _ := ih (p.step first)
      have hwritten : written p.depth (first :: steps) = _ := ih ((Page.mk p.depth "").step first)
      rw [hpage, hwritten]
      cases first <;> simp [step]

end Run

theorem written_append (depth : Nat) (steps more : List Step) :
    written depth (steps ++ more) =
      written depth steps ++ written ((Page.mk depth "").run steps).depth more := by
  rw [written, run_append, run_text]
  rfl

theorem exists_render (front mid back : List Step) :
    ∃ before behind, Layout.render (front ++ (mid ++ back)) =
      before ++ String.ofList (written (Page.empty.run front).depth mid) ++ behind := by
  refine ⟨(Page.empty.run front).text,
    String.ofList (written (Page.mk (Page.empty.run front).depth "" |>.run mid).depth back), ?_⟩
  apply String.toList_injective
  rw [Layout.render, run_append, run_text, written_append]
  simp

theorem renderLine_eq (depth : Nat) (text : String) :
    (renderLine depth text).toList =
      (if text.toList = [] then [] else List.replicate (4 * depth) ' ' ++ text.toList) ++
        ['\n'] := by
  by_cases h : text = "" <;> simp [renderLine, margin, h]

theorem written_line (depth : Nat) (text : String) (steps : List Step) :
    written depth (.line text :: steps) =
      (renderLine depth text).toList ++ written depth steps := by
  have hrun : written depth (.line text :: steps) = _ :=
    run_text ((Page.mk depth "").step (.line text)) steps
  rw [hrun]
  simp [step]

theorem endsLine_renderLine (depth : Nat) (text : String) :
    Text.EndsLine (renderLine depth text).toList :=
  .inr ⟨_, renderLine_eq depth text⟩

theorem endsLine_written (depth : Nat) (steps : List Step) :
    Text.EndsLine (written depth steps) := by
  induction steps generalizing depth with
  | nil => exact .inl rfl
  | cons first steps ih =>
      cases first with
      | indent => exact ih (depth + 1)
      | dedent => exact ih (depth - 1)
      | line text =>
          rw [written_line]
          exact (endsLine_renderLine depth text).append (ih depth)

theorem renderLine_add {text : String} (h : '\n' ∉ text.toList) (depth n : Nat) :
    (renderLine (depth + n) text).toList =
      Text.indented (4 * n) (renderLine depth text).toList := by
  rw [renderLine_eq, renderLine_eq, Text.indented_newline, Text.indented_nil]
  congr 1
  by_cases htext : text.toList = []
  · simp [htext]
  · have hline : '\n' ∉ List.replicate (4 * depth) ' ' ++ text.toList := by simp [h]
    rw [if_neg htext, if_neg htext, Text.indented_line _ hline, if_neg (by simp [htext]),
      ← List.append_assoc, List.replicate_append_replicate, Nat.mul_add, Nat.add_comm]

end Page

namespace Layout

/-- Lines without line feeds, in levels that are left again. -/
inductive Balanced : List Step → Prop
  | nil : Balanced []
  | line {text : String} {steps : List Step} (htext : '\n' ∉ text.toList)
      (hsteps : Balanced steps) : Balanced (.line text :: steps)
  | level {body steps : List Step} (hbody : Balanced body) (hsteps : Balanced steps) :
      Balanced (.indent :: body ++ .dedent :: steps)

namespace Balanced

variable {steps more : List Step}

theorem depth_run (h : Balanced steps) (p : Page) : (p.run steps).depth = p.depth := by
  induction h generalizing p with
  | nil => rfl
  | line _ _ ih => exact ih _
  | @level body steps _ _ ihbody ih =>
      have hinner : ((p.step .indent).run body).depth = p.depth + 1 := ihbody _
      rw [Page.run_append]
      refine (ih (((p.step .indent).run body).step .dedent)).trans ?_
      change ((p.step .indent).run body).depth - 1 = p.depth
      rw [hinner, Nat.add_sub_cancel]

/-- A level is left only behind the step that enters it. -/
theorem depth_lt (h : Balanced steps) (p : Page) {front back : List Step}
    (hsteps : steps = front ++ .dedent :: back) : p.depth < (p.run front).depth := by
  induction h generalizing p front back with
  | nil => simp at hsteps
  | @line text steps _ _ ih =>
      obtain ⟨-, hhead⟩ | ⟨front', rfl, hrest⟩ := List.cons_eq_append_iff.mp hsteps
      · cases hhead
      · exact ih (p.step (.line text)) hrest
  | @level body steps hbody hrest ihbody ih =>
      obtain ⟨-, hhead⟩ | ⟨front', rfl, hfront⟩ := List.cons_eq_append_iff.mp hsteps
      · cases hhead
      have hinner : ((p.step .indent).run body).depth = p.depth + 1 := hbody.depth_run _
      -- The dedent is the one of this level, or one behind it, or one in the body.
      have hbehind (between : List Step) (h : .dedent :: steps = between ++ .dedent :: back) :
          p.depth < ((p.step .indent).run (body ++ between)).depth := by
        obtain ⟨rfl, -⟩ | ⟨between', rfl, hmore⟩ := List.cons_eq_append_iff.mp h
        · rw [List.append_nil, hinner]
          exact Nat.lt_succ_self _
        · have houter := ih (((p.step .indent).run body).step .dedent) hmore
          change ((p.step .indent).run body).depth - 1 < _ at houter
          rw [hinner, Nat.add_sub_cancel] at houter
          rw [Page.run_append]
          exact houter
      obtain ⟨between, rfl, hback⟩ | ⟨between, hbetween, hback⟩ :=
        List.append_eq_append_iff.mp hfront
      · exact hbehind between hback
      · cases between with
        | nil =>
            have hown := hbehind [] hback.symm
            rwa [List.append_nil, hbetween, List.append_nil] at hown
        | cons first between =>
            obtain ⟨rfl, -⟩ := List.cons.inj hback
            exact (Nat.lt_succ_self _).trans (ihbody (p.step .indent) hbetween)

theorem written_level {body : List Step} (hbody : Balanced body) (depth : Nat) :
    Page.written depth (.indent :: body ++ .dedent :: steps) =
      Page.written (depth + 1) body ++ Page.written depth steps := by
  have hinner : ((Page.mk depth "").run (.indent :: body)).depth = depth + 1 :=
    hbody.depth_run ((Page.mk depth "").step .indent)
  rw [Page.written_append, hinner]
  rfl

theorem written_add (h : Balanced steps) (depth n : Nat) :
    Page.written (depth + n) steps = Text.indented (4 * n) (Page.written depth steps) := by
  induction h generalizing depth with
  | nil => exact (Text.indented_nil _).symm
  | line htext _ ih =>
      rw [Page.written_line, Page.written_line, Page.renderLine_add htext, ih,
        (Page.endsLine_renderLine depth _).indented_append]
  | @level body steps hbody _ ihbody ih =>
      rw [hbody.written_level, hbody.written_level,
        (Page.endsLine_written (depth + 1) body).indented_append, ← ihbody, ← ih,
        Nat.add_right_comm]

theorem append (h : Balanced steps) (hmore : Balanced more) : Balanced (steps ++ more) := by
  induction h with
  | nil => exact hmore
  | line htext _ ih => exact .line htext ih
  | level hbody _ _ ih =>
      rw [List.append_assoc]
      exact .level hbody ih

theorem block {header : String} {body : List Step} (hheader : '\n' ∉ header.toList)
    (hbody : Balanced body) : Balanced (Layout.block header body) := by
  have hclose : Balanced [.line "\x7d"] := .line (by decide) .nil
  have hlevel := Balanced.level hbody hclose
  simpa [Layout.block, blockStart, blockEnd] using Balanced.line (by simp [hheader]) hlevel

end Balanced

theorem balanced_lines {texts : List String} (h : ∀ text ∈ texts, '\n' ∉ text.toList) :
    Balanced (lines texts) := by
  induction texts with
  | nil => exact .nil
  | cons text texts ih =>
      obtain ⟨htext, htexts⟩ := List.forall_mem_cons.mp h
      exact .line htext (ih htexts)

theorem balanced_comment {start : String} (hstart : '\n' ∉ start.toList) {texts : List String}
    (h : ∀ text ∈ texts, '\n' ∉ text.toList) : Balanced (comment start texts) := by
  have hlines :
      Balanced (lines (texts.map fun text => if text = "" then " *" else " * " ++ text)) := by
    apply balanced_lines
    simp only [List.forall_mem_map]
    intro text htext
    split
    · decide
    · simpa using h text htext
  have hend : Balanced [.line " */"] := .line (by decide) .nil
  rw [lines, List.map_map] at hlines
  exact .line hstart (hlines.append hend)

theorem balanced_separated {parts : List (List Step)} (h : ∀ part ∈ parts, Balanced part) :
    Balanced (separated parts) := by
  fun_induction separated parts with
  | case1 => exact .nil
  | case2 part => exact h part List.mem_cons_self
  | case3 part parts _ ih =>
      obtain ⟨hpart, hparts⟩ := List.forall_mem_cons.mp h
      exact hpart.append (.line (by decide) (ih hparts))

end Layout

open Layout (Balanced)

theorem balanced_javadoc {texts : List String} (h : ∀ text ∈ texts, '\n' ∉ text.toList) :
    Balanced (javadoc texts) := Layout.balanced_comment (by decide) h

namespace Field

def texts (f : Field) : List String := f.brief :: f.declaration :: f.initializer

theorem balanced_layoutDeclaration {declaration : String} (h : '\n' ∉ declaration.toList)
    {initializer : List String} (hvalue : ∀ text ∈ initializer, '\n' ∉ text.toList) :
    Balanced (layoutDeclaration declaration initializer) := by
  fun_cases layoutDeclaration declaration initializer with
  | case1 => exact .line (by simp [h]) .nil
  | case2 value => exact .line (by simp [h, hvalue]) .nil
  | case3 first second more =>
      obtain ⟨hfirst, hrest⟩ := List.forall_mem_cons.mp hvalue
      have hlast := hrest _ (List.getLast_mem (List.cons_ne_nil second more))
      have hmiddle : Balanced (Layout.lines (second :: more).dropLast) :=
        Layout.balanced_lines fun text htext => hrest text (List.mem_of_mem_dropLast htext)
      have hend : Balanced
          [.line ((second :: more).getLast (List.cons_ne_nil second more) ++ ";")] :=
        .line (by simp [hlast]) .nil
      have hopen : '\n' ∉ (declaration ++ " = " ++ first).toList := by simp [h, hfirst]
      simpa using Balanced.line hopen (.level (hmiddle.append hend) .nil)

theorem balanced_layout {f : Field} (h : ∀ text ∈ f.texts, '\n' ∉ text.toList) :
    Balanced f.layout := by
  obtain ⟨hbrief, hrest⟩ := List.forall_mem_cons.mp h
  obtain ⟨hdeclaration, hvalue⟩ := List.forall_mem_cons.mp hrest
  exact (balanced_javadoc (by simpa using hbrief)).append
    (balanced_layoutDeclaration hdeclaration hvalue)

end Field

namespace Method

def texts (m : Method) : List String := m.documentation.getD [] ++ m.signature :: m.body

theorem balanced_layout {m : Method} (h : ∀ text ∈ m.texts, '\n' ∉ text.toList) :
    Balanced m.layout := by
  obtain ⟨hdocumentation, hrest⟩ := List.forall_mem_append.mp h
  obtain ⟨hsignature, hbody⟩ := List.forall_mem_cons.mp hrest
  have hhead : Balanced (layoutHead m.documentation) := by
    cases hm : m.documentation with
    | none => exact .line (by decide) .nil
    | some texts => exact balanced_javadoc (by simpa [hm] using hdocumentation)
  exact hhead.append (.block hsignature (Layout.balanced_lines hbody))

end Method

namespace Declaration

mutual

def texts : Declaration → List String
  | ⟨_, brief, version, modifiers, name, supertypes, fields, methods, nested⟩ =>
    [brief, version, modifiers, name] ++ supertypes ++ fields.flatMap Field.texts ++
      methods.flatMap Method.texts ++ textsAll nested

def textsAll : List Declaration → List String
  | [] => []
  | d :: ds => d.texts ++ textsAll ds

end

theorem newline_not_mem_header (form : Form) {modifiers name : String} {supertypes : List String}
    (hmodifiers : '\n' ∉ modifiers.toList) (hname : '\n' ∉ name.toList)
    (hsupertypes : ∀ text ∈ supertypes, '\n' ∉ text.toList) :
    '\n' ∉ (header form modifiers name supertypes).toList := by
  have hform : '\n' ∉ form.keyword.toList ∧ '\n' ∉ form.relation.toList := by
    cases form <;> decide
  cases supertypes with
  | nil => simp [header, hmodifiers, hname, hform]
  | cons first more =>
      obtain ⟨hfirst, hmore⟩ := List.forall_mem_cons.mp hsupertypes
      simpa [header, hmodifiers, hname, hform, hfirst, String.toList_intercalate,
        intercalate_cons] using hmore

mutual

theorem balanced_layout : (d : Declaration) → (∀ text ∈ d.texts, '\n' ∉ text.toList) →
    Balanced d.layout
  | ⟨form, brief, version, modifiers, name, supertypes, fields, methods, nested⟩, h => by
      simp only [texts, List.forall_mem_append, List.forall_mem_flatMap, List.forall_mem_cons]
        at h
      obtain ⟨⟨⟨⟨⟨hbrief, hversion, hmodifiers, hname, -⟩, hsupertypes⟩, hfields⟩, hmethods⟩,
        hnested⟩ := h
      have hdoc : Balanced (javadoc [brief, "", "@since " ++ version]) :=
        balanced_javadoc (by simp [hbrief, hversion])
      refine hdoc.append
        (.block (newline_not_mem_header form hmodifiers hname hsupertypes) ?_)
      apply Layout.balanced_separated
      simp only [List.forall_mem_append, List.forall_mem_map]
      exact ⟨⟨fun f hf => Field.balanced_layout (hfields f hf),
        fun m hm => Method.balanced_layout (hmethods m hm)⟩, balanced_layoutAll nested hnested⟩

theorem balanced_layoutAll : (ds : List Declaration) →
    (∀ text ∈ textsAll ds, '\n' ∉ text.toList) → ∀ part ∈ layoutAll ds, Balanced part
  | [], _ => by simp [layoutAll]
  | d :: ds, h => by
      obtain ⟨hd, hds⟩ := List.forall_mem_append.mp h
      rw [layoutAll, List.forall_mem_cons]
      exact ⟨balanced_layout d hd, balanced_layoutAll ds hds⟩

end

/-- A declaration whose texts have no line feeds comes back to the depth that it starts at, and
never leaves a level that it has not entered. It is added to the text of the page as it is written
at the left margin, with four spaces for each level in front of every line that is not empty. -/
theorem layout_indents (d : Declaration) (h : ∀ text ∈ d.texts, '\n' ∉ text.toList) (p : Page) :
    (p.run d.layout).depth = p.depth ∧
      (∀ front back, d.layout = front ++ .dedent :: back → 0 < (p.run front).depth) ∧
      (p.run d.layout).text =
        p.text ++ String.ofList (Text.indented (4 * p.depth) (Layout.render d.layout).toList) := by
  have hbalanced := balanced_layout d h
  refine ⟨hbalanced.depth_run p, ?_, ?_⟩
  · intro front back hsteps
    exact (Nat.zero_le _).trans_lt (hbalanced.depth_lt p hsteps)
  · have hshift := hbalanced.written_add 0 p.depth
    rw [Nat.zero_add] at hshift
    rw [← String.toList_inj, Page.run_text, hshift, String.toList_append, String.toList_ofList]
    rfl

def outerClass : Declaration where
  form := .concrete
  brief := "A."
  version := "1"
  name := "A"
  nested := [⟨.interface, "B.", "1", "private", "B", ["Node"], [], [], []⟩]

def outerText : String :=
  "/**\n * A.\n *\n * @since 1\n */\npublic class A \x7b\n" ++
    "    /**\n     * B.\n     *\n     * @since 1\n     */\n" ++
    "    private interface B extends Node \x7b\n    \x7d\n\x7d\n"

theorem layout_indents_outer :
    (∀ text ∈ outerClass.texts, '\n' ∉ text.toList) ∧
      Layout.render outerClass.layout = outerText ∧
      ((Page.mk 2 "\x7b\n").run outerClass.layout).depth = 2 ∧
      ((Page.mk 2 "\x7b\n").run outerClass.layout).text =
        "\x7b\n" ++ String.ofList (Text.indented 8 outerText.toList) := by
  have htexts : ∀ text ∈ outerClass.texts, '\n' ∉ text.toList := by decide
  have hrender : Layout.render outerClass.layout = outerText := by rfl
  obtain ⟨hdepth, -, htext⟩ := layout_indents outerClass htexts (Page.mk 2 "\x7b\n")
  rw [hrender] at htext
  exact ⟨htexts, hrender, hdepth, htext⟩

end Declaration

end Java

end NodeRules
