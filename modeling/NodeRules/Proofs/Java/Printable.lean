import Mathlib.Data.List.Basic
import NodeRules.Java.Generate
import NodeRules.Proofs.Java.Tidy

namespace NodeRules

namespace Text

-- These two hand a text in quotes to the discharger of a `simp` call, which checks its characters.
theorem oneLine_true {s : String} (h : OneLine s) : OneLine s ↔ True := iff_true_intro h

theorem filled_true {s : String} (h : Filled s) : Filled s ↔ True := iff_true_intro h

theorem oneLine_toString (n : Nat) : OneLine (toString n) := by
  intro hmem
  rw [Scanner.toList_toString] at hmem
  exact absurd (Nat.isDigit_of_mem_toDigits (by decide) (by decide) hmem) (by decide)

theorem oneLine_intercalate {sep : String} (hsep : OneLine sep) {ts : List String}
    (h : ∀ t ∈ ts, OneLine t) : OneLine (String.intercalate sep ts) := by
  cases ts with
  | nil => exact oneLine_literal rfl
  | cons first more =>
      obtain ⟨hfirst, hmore⟩ := List.forall_mem_cons.mp h
      rw [OneLine, String.toList_intercalate, List.map_cons, intercalate_cons]
      simp only [List.mem_append, List.mem_flatMap, List.mem_map]
      rintro (hmem | ⟨_, ⟨t, ht, rfl⟩, hmem⟩)
      · exact hfirst hmem
      · rcases hmem with hmem | hmem
        · exact hsep hmem
        · exact hmore t ht hmem

end Text

namespace Java

open Text (Filled OneLine filled_append filled_literal filled_true oneLine_append
  oneLine_intercalate oneLine_literal oneLine_toString oneLine_true)

@[simp] theorem Field.printable_mk {brief declaration : String} {initializer : List String} :
    (Field.mk brief declaration initializer).Printable ↔
      Filled brief ∧ OneLine declaration ∧ ∀ text ∈ initializer, Filled text :=
  ⟨fun h => ⟨h.brief, h.declaration, h.initializer⟩, fun h => ⟨h.1, h.2.1, h.2.2⟩⟩

@[simp] theorem Method.printable_documented {documentation : List String} {signature : String}
    {body : List String} : (Method.documented documentation signature body).Printable ↔
      (∀ text ∈ documentation, Filled text) ∧ OneLine signature ∧ ∀ text ∈ body, Filled text :=
  ⟨fun h => ⟨h.documentation, h.signature, h.body⟩, fun h => ⟨h.1, h.2.1, h.2.2⟩⟩

@[simp] theorem Method.printable_overriding {signature : String} {body : List String} :
    (Method.overriding signature body).Printable ↔
      OneLine signature ∧ ∀ text ∈ body, Filled text :=
  ⟨fun h => ⟨h.signature, h.body⟩, fun h => ⟨by simp [Method.overriding], h.1, h.2⟩⟩

structure Outline.Printable (o : Outline) : Prop where
  name : OneLine o.name
  language : OneLine o.language
  version : Filled o.version
  supertypes : ∀ t ∈ o.supertypes, OneLine t
  groups : ∀ t ∈ o.groups, OneLine t

theorem Outline.Printable.brief {o : Outline} (h : o.Printable) : Filled o.brief := by
  unfold Outline.brief
  simp (disch := (first | apply oneLine_literal | apply filled_literal) <;> decide) only
    [filled_append, oneLine_append, oneLine_true, h.name, and_self]

namespace NodeType

variable {o : Outline} (ho : o.Printable)

theorem filled_groupsValue {groups : List String} (h : ∀ t ∈ groups, OneLine t) :
    Filled (groupsValue groups) := by
  rw [groupsValue]
  split
  · exact filled_literal rfl
  · have hgroups : OneLine (String.intercalate ", " (groups.tail.map inQuotes)) := by
      refine oneLine_intercalate (oneLine_literal rfl) ?_
      simp only [List.forall_mem_map]
      intro t ht
      simp (disch := apply oneLine_literal <;> decide) only [inQuotes, oneLine_append, oneLine_true,
        h t (List.mem_of_mem_tail ht), and_self]
    simp (disch := (first | apply oneLine_literal | apply filled_literal) <;> decide) only
      [filled_append, oneLine_append, oneLine_true, hgroups, and_self]

include ho

theorem typeClass_printable {children : List String} (h : ∀ text ∈ children, Filled text) :
    (typeClass o children).Printable := by
  have hbrief : Filled ("Type descriptor of the '" ++ o.name ++ "' node.") := by
    simp (disch := (first | apply oneLine_literal | apply filled_literal) <;> decide) only
      [filled_append, oneLine_append, oneLine_true, ho.name, and_self]
  have hfields : ∀ f ∈ typeFields o children, f.Printable := by
    have hgroups := filled_groupsValue ho.groups
    simpa (disch := (first | apply oneLine_literal | apply filled_literal) <;> decide)
      [typeFields, inQuotes, filled_append, filled_true, oneLine_append, oneLine_true, ho.name,
        ho.language, hgroups] using h
  have hmethods : ∀ m ∈ typeMethods, m.Printable := by
    simp (disch := (first | apply oneLine_literal | apply filled_literal) <;> decide)
      [typeMethods, filled_true, oneLine_true]
  exact .intro hbrief ho.version (oneLine_literal rfl) (oneLine_literal rfl)
    (List.forall_mem_singleton.mpr (oneLine_literal rfl)) hfields hmethods (by simp [typeClass])

theorem builderClass_printable {fields : List Field} {methods : List Method}
    (hfields : ∀ f ∈ fields, f.Printable) (hmethods : ∀ m ∈ methods, m.Printable) :
    (builderClass o fields methods).Printable := by
  have hbrief : Filled ("Constructor (builder) of the '" ++ o.name ++ "' node.") := by
    simp (disch := (first | apply oneLine_literal | apply filled_literal) <;> decide) only
      [filled_append, oneLine_append, oneLine_true, ho.name, and_self]
  have hfragment : (fragmentField ["EmptyFragment.INSTANCE"]).Printable := by
    simp (disch := (first | apply oneLine_literal | apply filled_literal) <;> decide)
      [fragmentField, filled_true, oneLine_true]
  have hsetter : (Method.overriding "public void setFragment(final Fragment obj)"
      ["this.fragment = obj;"]).Printable := by
    simp (disch := (first | apply oneLine_literal | apply filled_literal) <;> decide)
      [filled_true, oneLine_true]
  exact .intro hbrief ho.version (oneLine_literal rfl) (oneLine_literal rfl)
    (List.forall_mem_singleton.mpr (oneLine_literal rfl))
    (List.forall_mem_cons.mpr ⟨hfragment, hfields⟩)
    (List.forall_mem_cons.mpr ⟨hsetter, hmethods⟩) (by simp [builderClass])

theorem nodeClass_printable {fields : List Field} {methods : List Method}
    {nested : List Declaration} (hfields : ∀ f ∈ fields, f.Printable)
    (hmethods : ∀ m ∈ methods, m.Printable) (hnested : ∀ d ∈ nested, d.Printable) :
    (nodeClass o fields methods nested).Printable := by
  have hown : ∀ f ∈ nodeFields, f.Printable := by
    simp (disch := (first | apply oneLine_literal | apply filled_literal) <;> decide)
      [nodeFields, fragmentField, filled_true, oneLine_true]
  have hcommon : ∀ m ∈ nodeMethods o.name, m.Printable := by
    simp (disch := (first | apply oneLine_literal | apply filled_literal) <;> decide)
      [nodeMethods, filled_append, filled_true, oneLine_append, oneLine_true, ho.name]
  exact .intro ho.brief ho.version (oneLine_literal rfl) ho.name ho.supertypes
    (List.forall_mem_append.mpr ⟨hown, hfields⟩)
    (List.forall_mem_append.mpr ⟨hcommon, hmethods⟩) hnested

theorem createMethod_printable {body : List String} (h : ∀ text ∈ body, Filled text) :
    (createMethod o.name body).Printable := by
  simpa (disch := (first | apply oneLine_literal | apply filled_literal) <;> decide)
    [createMethod, or_imp, forall_and, filled_append, filled_true, oneLine_append, oneLine_true,
      ho.name] using h

end NodeType

structure Slot.Printable (s : Slot) : Prop where
  typeName : OneLine s.typeName
  field : OneLine s.field
  label : OneLine (capitalized s.field)

namespace Slot.Printable

variable {s : Slot} (h : s.Printable)

include h

theorem nodeField : s.nodeField.Printable := by
  unfold Slot.nodeField
  simp (disch := (first | apply oneLine_literal | apply filled_literal) <;> decide)
    [filled_append, oneLine_append, oneLine_true, h.typeName, h.field]

theorem builderField : s.builderField.Printable := by
  rw [Slot.builderField]
  split <;>
    simp (disch := (first | apply oneLine_literal | apply filled_literal) <;> decide)
      [filled_append, filled_true, oneLine_append, oneLine_true, h.typeName, h.field]

theorem getter : s.getter.Printable := by
  rw [Slot.getter]
  split
  · simp (disch := (first | apply oneLine_literal | apply filled_literal) <;> decide)
      [getterName, filled_append, filled_true, oneLine_append, oneLine_true, h.typeName, h.label]
  · have hreturn : Filled (if s.descriptor.isOptional then "@return The node or \x7b@code null\x7d"
        else "@return The node") := by
      split <;> exact filled_literal rfl
    simp (disch := (first | apply oneLine_literal | apply filled_literal) <;> decide)
      [getterName, filled_append, oneLine_append, oneLine_true, h.typeName, h.field, h.label,
        hreturn]

end Slot.Printable

namespace NodeClass

variable {slots : List Slot} (hslots : ∀ s ∈ slots, s.Printable)

include hslots

theorem filled_childrenValue : ∀ text ∈ childrenValue slots, Filled text := by
  have hchild : ∀ s ∈ slots, Filled (".add(new ChildDescriptor(\"" ++ s.typeName ++ "\", " ++
      (if s.isRequired then "false" else "true") ++ "))") := by
    intro s hs
    have hflag : OneLine (if s.isRequired then "false" else "true") := by
      split <;> exact oneLine_literal rfl
    simp (disch := (first | apply oneLine_literal | apply filled_literal) <;> decide) only
      [filled_append, oneLine_append, oneLine_true, (hslots s hs).typeName, hflag, and_self]
  rw [childrenValue]
  split
  · exact List.forall_mem_singleton.mpr (filled_literal rfl)
  · rw [List.forall_mem_append, List.forall_mem_cons, List.forall_mem_map,
      List.forall_mem_singleton]
    exact ⟨⟨filled_literal rfl, hchild⟩, filled_literal rfl⟩

theorem filled_setChildrenBody : ∀ text ∈ setChildrenBody slots, Filled text := by
  rw [setChildrenBody]
  split
  · exact List.forall_mem_singleton.mpr (filled_literal rfl)
  split
  · rename_i list hfind
    have hlist := hslots list (List.mem_of_find?_eq_some hfind)
    simp (disch := (first | apply oneLine_literal | apply filled_literal) <;> decide)
      [takeList, filled_append, filled_true, oneLine_append, oneLine_true, hlist.typeName,
        hlist.field]
  · have hslot : ∀ x ∈ slots.zipIdx, Filled ("    this." ++ x.1.field ++ " = (" ++ x.1.typeName ++
        ") nodes[" ++ toString x.2 ++ "];") := by
      intro x hx
      have hs := hslots x.1 (List.fst_mem_of_mem_zipIdx hx)
      simp (disch := (first | apply oneLine_literal | apply filled_literal) <;> decide) only
        [filled_append, oneLine_append, oneLine_true, hs.typeName, hs.field, oneLine_toString,
          and_self]
    rw [takeAllocated, List.forall_mem_append, List.forall_mem_append, List.forall_mem_map]
    refine ⟨⟨?_, hslot⟩, ?_⟩
    · simpa (disch := (first | apply oneLine_literal | apply filled_literal) <;> decide)
        [filled_append, filled_true, oneLine_append, oneLine_true] using
        oneLine_toString slots.length
    · simp (disch := apply filled_literal <;> decide) [filled_true]

theorem oneLine_validCondition : OneLine (validCondition slots) := by
  rw [validCondition]
  split
  · exact oneLine_literal rfl
  · refine oneLine_intercalate (oneLine_literal rfl) ?_
    simp only [List.forall_mem_map]
    intro s hs
    simp (disch := apply oneLine_literal <;> decide) only
      [oneLine_append, oneLine_true, (hslots s (List.mem_of_mem_filter hs)).field, and_self]

theorem filled_createBody : ∀ text ∈ createBody slots, Filled text := by
  rw [createBody]
  split
  · exact List.forall_mem_singleton.mpr (filled_literal rfl)
  split
  · rename_i list hfind
    have hlist := hslots list (List.mem_of_find?_eq_some hfind)
    simp (disch := (first | apply oneLine_literal | apply filled_literal) <;> decide)
      [filled_append, oneLine_append, oneLine_true, hlist.field]
  · have hfields : OneLine (String.intercalate ", " (slots.map fun s => "this." ++ s.field)) := by
      refine oneLine_intercalate (oneLine_literal rfl) ?_
      simp only [List.forall_mem_map]
      intro s hs
      exact oneLine_append.mpr ⟨oneLine_literal rfl, (hslots s hs).field⟩
    rw [List.forall_mem_cons, List.forall_mem_map]
    refine ⟨?_, fun s hs => ?_⟩
    · simp (disch := (first | apply oneLine_literal | apply filled_literal) <;> decide) only
        [filled_append, oneLine_append, oneLine_true, hfields, and_self]
    · simp (disch := (first | apply oneLine_literal | apply filled_literal) <;> decide) only
        [filled_append, oneLine_append, oneLine_true, (hslots s hs).field, and_self]

theorem builder_printable {o : Outline} (ho : o.Printable) : (builder o slots).Printable := by
  have hcreate := NodeType.createMethod_printable ho (filled_createBody hslots)
  apply NodeType.builderClass_printable ho
  · rw [List.forall_mem_map]
    exact fun s hs => (hslots s hs).builderField
  · simpa (disch := (first | apply oneLine_literal | apply filled_literal) <;> decide)
      [NodeType.setDataMethod, NodeType.setChildrenMethod, NodeType.isValidMethod, filled_append,
        filled_true, oneLine_append, oneLine_true, oneLine_validCondition hslots, hcreate] using
      filled_setChildrenBody hslots

theorem declaration_printable {o : Outline} (ho : o.Printable) :
    (declaration o slots).Printable := by
  apply NodeType.nodeClass_printable ho
  · rw [List.forall_mem_cons, List.forall_mem_map]
    refine ⟨?_, fun s hs => (hslots s (List.mem_of_mem_filter hs)).nodeField⟩
    simp (disch := (first | apply oneLine_literal | apply filled_literal) <;> decide)
      [filled_true, oneLine_true]
  · rw [List.forall_mem_append, List.forall_mem_map]
    refine ⟨?_, fun s hs => (hslots s hs).getter⟩
    simp (disch := (first | apply oneLine_literal | apply filled_literal) <;> decide)
      [NodeType.accessMethods, filled_true, oneLine_true]
  · rw [List.forall_mem_cons, List.forall_mem_singleton]
    exact ⟨NodeType.typeClass_printable ho (filled_childrenValue hslots),
      builder_printable hslots ho⟩

end NodeClass

namespace LiteralClass

variable {parsed : String} (hparsed : OneLine parsed)

theorem valueField_printable {nativeType : String} (h : OneLine nativeType) :
    (valueField nativeType).Printable := by
  unfold valueField
  simp (disch := (first | apply oneLine_literal | apply filled_literal) <;> decide)
    [filled_true, oneLine_append, oneLine_true, h]

include hparsed

theorem filled_setDataBody {exception : Option String} (h : ∀ e ∈ exception, OneLine e) :
    ∀ text ∈ setDataBody parsed exception, Filled text := by
  cases exception with
  | none =>
      simp (disch := (first | apply oneLine_literal | apply filled_literal) <;> decide)
        [setDataBody, filled_append, filled_true, oneLine_append, oneLine_true, hparsed]
  | some e =>
      simp (disch := (first | apply oneLine_literal | apply filled_literal) <;> decide)
        [setDataBody, filled_append, filled_true, oneLine_append, oneLine_true, hparsed,
          h e rfl]

theorem declaration_printable {o : Outline} (ho : o.Printable) {r : LiteralRule}
    (hparts : ∀ part ∈ r.parts, OneLine part) {serialized : String}
    (hserialized : OneLine serialized) : (declaration o r serialized parsed).Printable := by
  have hnative : OneLine r.nativeType := hparts r.nativeType (by simp [LiteralRule.parts])
  have hexception : ∀ e ∈ r.exception, OneLine e := fun e he =>
    hparts e (by simp [LiteralRule.parts, Option.mem_def.mp he])
  have hvalue := valueField_printable hnative
  have hcreate : (NodeType.createMethod o.name ["node.data = this.data;"]).Printable :=
    NodeType.createMethod_printable ho (List.forall_mem_singleton.mpr (filled_literal rfl))
  have hbuilder : (builder o r parsed).Printable := by
    apply NodeType.builderClass_printable ho
    · simp (disch := (first | apply oneLine_literal | apply filled_literal) <;> decide)
        [filled_true, oneLine_true, hvalue]
    · simpa (disch := (first | apply oneLine_literal | apply filled_literal) <;> decide)
        [NodeType.setDataMethod, NodeType.setChildrenMethod, NodeType.isValidMethod,
          filled_true, oneLine_true, hcreate] using filled_setDataBody hparsed hexception
  apply NodeType.nodeClass_printable ho
  · exact List.forall_mem_singleton.mpr hvalue
  · simp (disch := (first | apply oneLine_literal | apply filled_literal) <;> decide)
      [NodeType.accessMethods, filled_append, filled_true, oneLine_append, oneLine_true, hnative,
        hserialized]
  · rw [List.forall_mem_cons, List.forall_mem_singleton]
    refine ⟨NodeType.typeClass_printable ho ?_, hbuilder⟩
    exact List.forall_mem_singleton.mpr (filled_literal rfl)

end LiteralClass

theorem Marker.declaration_printable {o : Outline} (ho : o.Printable) :
    (Marker.declaration o).Printable :=
  .intro ho.brief ho.version (oneLine_literal rfl) ho.name ho.supertypes (by simp [declaration])
    (by simp [declaration]) (by simp [declaration])

end Java

end NodeRules
