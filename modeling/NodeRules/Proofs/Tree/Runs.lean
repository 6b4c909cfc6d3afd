import Mathlib.Logic.Relation
import NodeRules.Tree.Catalog

namespace NodeRules.Tree

theorem fits_nil (ds : List Descriptor) : fits ds [] = !ds.any Descriptor.isRequired := by
  induction ds with
  | nil => rfl
  | cons d ds ih =>
      cases hm : d.multiplicity <;> simp [fits, counts, hm, ih, Descriptor.isRequired]

namespace Node

/-- The node `d` is `n` itself, or stands below it at any depth. -/
def Holds (n d : Node) : Prop :=
  Relation.ReflTransGen (fun parent child => child ∈ parent.children) n d

def WellFormed (n : Node) : Prop := ∀ d, n.Holds d → fits d.type.children d.children = true

theorem wellFormed_of_children {n : Node} (hfits : fits n.type.children n.children = true)
    (hchildren : ∀ child ∈ n.children, child.WellFormed) : n.WellFormed := by
  intro d hd
  rcases Relation.ReflTransGen.cases_head hd with rfl | ⟨child, hchild, hbelow⟩
  · exact hfits
  · exact hchildren child hchild d hbelow

end Node

namespace Builder

/-- Children that were accepted fit the type, and they are well formed themselves. -/
def Sound (b : Builder) : Prop :=
  ∀ children, b.children = some children →
    fits b.type.children children = true ∧ ∀ n ∈ children, n.WellFormed

variable {b : Builder}

theorem sound_ofType (t : NodeType) : (ofType t).Sound := by
  intro children h
  cases h

theorem setChildren_cases (b : Builder) (children : List Node) :
    (fits b.type.children children = true ∧
      b.setChildren children = (true, { b with children := some children })) ∨
    b.setChildren children = (false, b) := by
  by_cases hfits : fits b.type.children children = true
  · exact .inl ⟨hfits, by simp [setChildren, hfits]⟩
  · exact .inr (by simp [setChildren, hfits])

theorem Sound.setChildren (h : b.Sound) {children : List Node}
    (hchildren : ∀ n ∈ children, n.WellFormed) : (b.setChildren children).2.Sound := by
  obtain ⟨hfits, heq⟩ | heq := b.setChildren_cases children
  · rw [heq]
    intro accepted haccepted
    cases haccepted
    exact ⟨hfits, hchildren⟩
  · rw [heq]
    exact h

/-- A builder can make a node exactly when what it holds fits, if that is nothing at all
included. -/
theorem Sound.isValid_iff (h : b.Sound) :
    b.isValid = true ↔ fits b.type.children (b.children.getD []) = true := by
  cases hb : b.children with
  | none => simp [isValid, hb, fits_nil]
  | some children => simp [isValid, hb, (h children hb).1]

theorem createNode_ok_iff {n : Node} :
    b.createNode = .ok n ↔
      b.isValid = true ∧ n = ⟨b.type, b.fragment, "", b.children.getD []⟩ := by
  rw [createNode]
  split
  · rename_i hvalid
    simp [hvalid, eq_comm]
  · rename_i hvalid
    simp [hvalid]

theorem Sound.createNode (h : b.Sound) {n : Node} (hn : b.createNode = .ok n) : n.WellFormed := by
  obtain ⟨hvalid, rfl⟩ := createNode_ok_iff.mp hn
  refine Node.wellFormed_of_children (h.isValid_iff.mp hvalid) ?_
  intro child hchild
  cases hb : b.children with
  | none => simp [hb] at hchild
  | some children => exact (h children hb).2 child (by simpa [hb] using hchild)

end Builder

/-- Builders at work and the nodes that they have made, both in the order of their creation. -/
structure Workshop where
  builders : List Builder
  nodes : List Node

inductive Event
  | createBuilder (name : String)
  | setFragment (i : Nat) (fragment : Option Span)
  | setData (i : Nat) (data : String) (accepted : Bool)
  | setChildren (i : Nat) (children : List Node) (accepted : Bool)
  | createNode (i : Nat) (result : Except BuildError Node)

def Workshop.put (w : Workshop) (i : Nat) (b : Builder) : Workshop :=
  { w with builders := w.builders.set i b }

inductive Step (catalog : Catalog) : Workshop → Event → Workshop → Prop
  | createBuilder {w : Workshop} (name : String) :
      Step catalog w (.createBuilder name)
        { w with builders := w.builders ++ (catalog.builder? name).toList }
  | setFragment {w : Workshop} {i : Nat} {b : Builder} (hb : w.builders[i]? = some b)
      (fragment : Option Span) :
      Step catalog w (.setFragment i fragment) (w.put i (b.setFragment fragment))
  | setData {w : Workshop} {i : Nat} {b : Builder} (hb : w.builders[i]? = some b)
      (data : String) :
      Step catalog w (.setData i data (b.setData data).1) (w.put i (b.setData data).2)
  | setChildren {w : Workshop} {i : Nat} {b : Builder} (hb : w.builders[i]? = some b)
      (children : List Node) (hmade : ∀ n ∈ children, n ∈ w.nodes) :
      Step catalog w (.setChildren i children (b.setChildren children).1)
        (w.put i (b.setChildren children).2)
  | createNode {w : Workshop} {i : Nat} {b : Builder} (hb : w.builders[i]? = some b) :
      Step catalog w (.createNode i b.createNode)
        { w with nodes := w.nodes ++ b.createNode.toOption.toList }

inductive Run (catalog : Catalog) : List Event → Workshop → Prop
  | start : Run catalog [] ⟨[], []⟩
  | step {log : List Event} {w w' : Workshop} {event : Event} (hrun : Run catalog log w)
      (hstep : Step catalog w event w') : Run catalog (log ++ [event]) w'

namespace Event

def fragment? (i : Nat) : Event → Option (Option Span)
  | setFragment j fragment => if j = i then some fragment else none
  | _ => none

def children? (i : Nat) : Event → Option (List Node)
  | setChildren j children true => if j = i then some children else none
  | _ => none

end Event

def lastFragment (log : List Event) (i : Nat) : Option Span :=
  (log.reverse.findSome? (Event.fragment? i)).getD none

def lastChildren (log : List Event) (i : Nat) : Option (List Node) :=
  log.reverse.findSome? (Event.children? i)

theorem lastFragment_append (log : List Event) (event : Event) (i : Nat) :
    lastFragment (log ++ [event]) i = (event.fragment? i).getD (lastFragment log i) := by
  cases h : event.fragment? i <;> simp [lastFragment, h]

theorem lastChildren_append (log : List Event) (event : Event) (i : Nat) :
    lastChildren (log ++ [event]) i = (event.children? i).or (lastChildren log i) := by
  cases h : event.children? i <;> simp [lastChildren, h]

namespace Workshop

variable {catalog : Catalog} {w w' : Workshop} {event : Event} {b : Builder}

def heldFragment (w : Workshop) (i : Nat) : Option Span := w.builders[i]?.bind Builder.fragment

def heldChildren (w : Workshop) (i : Nat) : Option (List Node) :=
  w.builders[i]?.bind Builder.children

theorem put_self {j : Nat} (hb : w.builders[j]? = some b) : w.put j b = w := by
  obtain ⟨hlt, rfl⟩ := List.getElem?_eq_some_iff.mp hb
  rw [put, List.set_getElem_self]

section Held

variable {α : Type} {f : Builder → Option α}

theorem bind_put {j : Nat} (hb : w.builders[j]? = some b) (b' : Builder) (i : Nat) :
    (w.put j b').builders[i]?.bind f = if j = i then f b' else w.builders[i]?.bind f := by
  obtain ⟨hlt, -⟩ := List.getElem?_eq_some_iff.mp hb
  by_cases hji : j = i
  · subst hji
    simp [put, hlt]
  · simp [put, hji]

theorem bind_put_of_eq {j : Nat} (hb : w.builders[j]? = some b) {b' : Builder} (hf : f b' = f b)
    (i : Nat) : (w.put j b').builders[i]?.bind f = w.builders[i]?.bind f := by
  rw [bind_put hb]
  by_cases hji : j = i
  · subst hji
    simp [hb, hf]
  · simp [hji]

theorem bind_createBuilder (hf : ∀ t, f (.ofType t) = none) (name : String) (i : Nat) :
    (w.builders ++ (catalog.builder? name).toList)[i]?.bind f = w.builders[i]?.bind f := by
  rw [List.getElem?_append]
  split
  · rfl
  · rename_i hge
    rw [List.getElem?_eq_none (Nat.le_of_not_lt hge)]
    cases hb : catalog.builder? name with
    | none => simp
    | some b =>
        obtain ⟨t, -, rfl⟩ := Option.map_eq_some_iff.mp hb
        cases i - w.builders.length <;> simp [hf]

end Held

theorem heldFragment_step (h : Step catalog w event w') (i : Nat) :
    w'.heldFragment i = (event.fragment? i).getD (w.heldFragment i) := by
  cases h with
  | createBuilder name => exact bind_createBuilder (fun _ => rfl) name i
  | setFragment hb fragment =>
      rw [heldFragment, bind_put hb, Event.fragment?]
      split <;> rfl
  | setData hb => exact bind_put_of_eq hb rfl i
  | @setChildren _ b hb children =>
      refine bind_put_of_eq hb ?_ i
      obtain ⟨-, heq⟩ | heq := b.setChildren_cases children <;> rw [heq]
  | createNode => rfl

theorem heldChildren_step (h : Step catalog w event w') (i : Nat) :
    w'.heldChildren i = (event.children? i).or (w.heldChildren i) := by
  cases h with
  | createBuilder name => exact bind_createBuilder (fun _ => rfl) name i
  | setFragment hb =>
      refine bind_put_of_eq hb ?_ i
      rfl
  | setData hb => exact bind_put_of_eq hb rfl i
  | @setChildren j b hb children =>
      obtain ⟨-, heq⟩ | heq := b.setChildren_cases children
      · rw [heq, heldChildren, bind_put hb, Event.children?]
        split <;> rfl
      · rw [heq, put_self hb]
        rfl
  | createNode => rfl

theorem eq_of_setData {i : Nat} {data : String} {accepted : Bool}
    (h : Step catalog w (.setData i data accepted) w') : w' = w := by
  cases h with
  | setData hb => exact put_self hb

theorem eq_of_rejected {i : Nat} {children : List Node}
    (h : Step catalog w (.setChildren i children false) w') : w' = w := by
  generalize hevent : Event.setChildren i children false = event at h
  cases h with
  | @setChildren j b hb children =>
      injection hevent with _ _ hrejected
      obtain ⟨-, heq⟩ | heq := b.setChildren_cases children
      · rw [heq] at hrejected
        cases hrejected
      · rw [heq]
        exact put_self hb
  | createBuilder | setFragment | setData | createNode => cases hevent

structure Sound (w : Workshop) : Prop where
  builders : ∀ b ∈ w.builders, b.Sound
  nodes : ∀ n ∈ w.nodes, n.WellFormed

theorem Sound.put (h : w.Sound) (i : Nat) (hb : b.Sound) : (w.put i b).Sound := by
  refine ⟨?_, h.nodes⟩
  intro b' hb'
  rcases List.mem_or_eq_of_mem_set hb' with hb' | rfl
  · exact h.builders b' hb'
  · exact hb

theorem Sound.step (h : w.Sound) (hstep : Step catalog w event w') : w'.Sound := by
  cases hstep with
  | createBuilder name =>
      refine ⟨?_, h.nodes⟩
      intro b hb
      rcases List.mem_append.mp hb with hb | hb
      · exact h.builders b hb
      · obtain ⟨t, -, rfl⟩ := Option.map_eq_some_iff.mp (Option.mem_toList.mp hb)
        exact Builder.sound_ofType t
  | @setFragment i b hb => exact h.put i (h.builders b (List.mem_of_getElem? hb))
  | @setData i b hb => exact h.put i (h.builders b (List.mem_of_getElem? hb))
  | @setChildren i b hb children hmade =>
      have hsound := h.builders b (List.mem_of_getElem? hb)
      exact h.put i (hsound.setChildren fun n hn => h.nodes n (hmade n hn))
  | @createNode i b hb =>
      refine ⟨h.builders, ?_⟩
      intro n hn
      rcases List.mem_append.mp hn with hn | hn
      · exact h.nodes n hn
      · have hsound := h.builders b (List.mem_of_getElem? hb)
        refine hsound.createNode ?_
        cases hnode : b.createNode with
        | error e => simp [hnode, Except.toOption] at hn
        | ok m => simpa [hnode, Except.toOption, eq_comm] using hn

end Workshop

namespace Run

variable {catalog : Catalog} {log : List Event} {w : Workshop}

theorem sound (h : Run catalog log w) : w.Sound := by
  induction h with
  | start => exact ⟨by simp, by simp⟩
  | step _ hstep ih => exact ih.step hstep

theorem heldFragment_eq (h : Run catalog log w) (i : Nat) :
    w.heldFragment i = lastFragment log i := by
  induction h with
  | start => rfl
  | step _ hstep ih => rw [Workshop.heldFragment_step hstep, lastFragment_append, ih]

theorem heldChildren_eq (h : Run catalog log w) (i : Nat) :
    w.heldChildren i = lastChildren log i := by
  induction h with
  | start => rfl
  | step _ hstep ih => rw [Workshop.heldChildren_step hstep, lastChildren_append, ih]

theorem createNode_eq (h : Run catalog log w) {i : Nat} {b : Builder}
    (hb : w.builders[i]? = some b) {n : Node} (hn : b.createNode = .ok n) :
    n = ⟨b.type, lastFragment log i, "", (lastChildren log i).getD []⟩ := by
  obtain ⟨-, rfl⟩ := Builder.createNode_ok_iff.mp hn
  rw [← h.heldFragment_eq, ← h.heldChildren_eq, Workshop.heldFragment, Workshop.heldChildren, hb]
  rfl

/-- In every run, a builder is valid exactly when what it holds fits its type; data and rejected
children change nothing; a valid builder makes the node of the fragment and the children that were
set last; and all nodes of the run have fitting children at every depth. -/
theorem builds_wellFormed (h : Run catalog log w) :
    (∀ i b, w.builders[i]? = some b →
      (b.isValid = true ↔ fits b.type.children (b.children.getD []) = true) ∧
      ((∃ n, b.createNode = .ok n) ↔ b.isValid = true) ∧
      ∀ n, b.createNode = .ok n → n.type = b.type ∧ n.children = (lastChildren log i).getD [] ∧
        n.fragment = lastFragment log i ∧ n.data = "") ∧
    (∀ i data accepted w', Step catalog w (.setData i data accepted) w' → w' = w) ∧
    (∀ i children w', Step catalog w (.setChildren i children false) w' → w' = w) ∧
    ∀ n ∈ w.nodes, ∀ d, n.Holds d → fits d.type.children d.children = true := by
  refine ⟨?_, fun _ _ _ _ => Workshop.eq_of_setData, fun _ _ _ => Workshop.eq_of_rejected,
    h.sound.nodes⟩
  intro i b hb
  have hsound := h.sound.builders b (List.mem_of_getElem? hb)
  refine ⟨hsound.isValid_iff, ?_, ?_⟩
  · simp [Builder.createNode_ok_iff]
  · intro n hn
    rw [h.createNode_eq hb hn]
    exact ⟨rfl, rfl, rfl, rfl⟩

end Run

def nameType : NodeType := ⟨"Name", [], ["Name", "Expr"]⟩

def sumType : NodeType :=
  ⟨"Sum", [.plain "Expr" .one, .plain "Expr" .optional], ["Sum", "Expr"]⟩

def loneName : Node := ⟨nameType, none, "", []⟩

def innerSum : Node := ⟨sumType, none, "", [loneName]⟩

def outerSum : Node := ⟨sumType, some ⟨3, 8⟩, "", [innerSum, loneName]⟩

/-- One builder makes both sums. In between it rejects three children, and none. -/
def sumsLog : List Event :=
  [.createBuilder "Name", .createNode 0 (.ok loneName), .createBuilder "Sum",
    .createNode 1 (.error ⟨"Sum"⟩), .setChildren 1 [loneName] true, .createNode 1 (.ok innerSum),
    .setChildren 1 [loneName, loneName, innerSum] false, .setChildren 1 [] false,
    .setFragment 1 (some ⟨3, 8⟩), .setChildren 1 [innerSum, loneName] true,
    .createNode 1 (.ok outerSum)]

def sumsBuilder : Builder := ⟨sumType, some ⟨3, 8⟩, some [innerSum, loneName]⟩

def sumsWorkshop : Workshop :=
  ⟨[.ofType nameType, sumsBuilder], [loneName, innerSum, outerSum]⟩

theorem builds_wellFormed_sums :
    Run ⟨[nameType, sumType]⟩ sumsLog sumsWorkshop ∧
      sumsWorkshop.builders[1]? = some sumsBuilder ∧
      sumsBuilder.isValid = true ∧ sumsBuilder.createNode = .ok outerSum ∧
      outerSum.children = (lastChildren sumsLog 1).getD [] ∧
      outerSum.fragment = lastFragment sumsLog 1 ∧ outerSum ∈ sumsWorkshop.nodes ∧
      fits innerSum.type.children innerSum.children = true ∧
      ∃ w', Step ⟨[nameType, sumType]⟩ sumsWorkshop
        (.setChildren 1 [outerSum, loneName, innerSum] false) w' ∧ w' = sumsWorkshop := by
  have hmany : ∀ n ∈ [loneName, loneName, innerSum], n ∈ [loneName, innerSum] := by simp
  have hpair : ∀ n ∈ [innerSum, loneName], n ∈ [loneName, innerSum] := by simp
  have hstart : Run ⟨[nameType, sumType]⟩ [] ⟨[], []⟩ := .start
  have hname := (hstart.step (.createBuilder "Name")).step (.createNode (i := 0) rfl)
  have hmissing := (hname.step (.createBuilder "Sum")).step (.createNode (i := 1) rfl)
  have hinner := (hmissing.step (.setChildren (i := 1) rfl [loneName] fun _ hn => hn)).step
    (.createNode (i := 1) rfl)
  have hrejected := (hinner.step (.setChildren (i := 1) rfl _ hmany)).step
    (.setChildren (i := 1) rfl [] (by simp))
  have hheld := (hrejected.step (.setFragment (i := 1) rfl (some ⟨3, 8⟩))).step
    (.setChildren (i := 1) rfl _ hpair)
  have houter : Run ⟨[nameType, sumType]⟩ sumsLog sumsWorkshop :=
    hheld.step (.createNode (b := sumsBuilder) rfl)
  have hthree : ∀ n ∈ [outerSum, loneName, innerSum], n ∈ sumsWorkshop.nodes := by
    simp [sumsWorkshop]
  have hmore : Step ⟨[nameType, sumType]⟩ sumsWorkshop
      (.setChildren 1 [outerSum, loneName, innerSum] false) _ :=
    .setChildren (b := sumsBuilder) rfl _ hthree
  obtain ⟨hbuilders, -, hunchanged, hnodes⟩ := houter.builds_wellFormed
  obtain ⟨-, hvalid, hmade⟩ := hbuilders 1 sumsBuilder rfl
  obtain ⟨-, hchildren, hfragment, -⟩ := hmade outerSum rfl
  have hlast : outerSum ∈ sumsWorkshop.nodes := by simp [sumsWorkshop]
  exact ⟨houter, rfl, hvalid.mp ⟨outerSum, rfl⟩, rfl, hchildren, hfragment, hlast,
    hnodes outerSum hlast innerSum (.single List.mem_cons_self), _, hmore,
    hunchanged 1 _ _ hmore⟩

end NodeRules.Tree
