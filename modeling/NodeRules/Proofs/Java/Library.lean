import Mathlib.Data.List.DropRight
import NodeRules.Proofs.Java.Files
import NodeRules.Proofs.Text.Sorted

namespace NodeRules.Java

def simpleName (qualified : String) : String :=
  String.ofList (qualified.toList.rtakeWhile (· ≠ '.'))

theorem simpleName_append {package name : String} (h : '.' ∉ name.toList) :
    simpleName (package ++ "." ++ name) = name := by
  have hname : ∀ c ∈ name.toList.reverse, decide (c ≠ '.') = true := by
    intro c hc
    rw [decide_eq_true_eq]
    rintro rfl
    exact h (List.mem_reverse.mp hc)
  have hchars : (package ++ "." ++ name).toList.reverse =
      name.toList.reverse ++ '.' :: package.toList.reverse := by simp
  rw [simpleName, List.rtakeWhile, hchars, List.takeWhile_append_of_pos hname,
    List.takeWhile_cons_of_neg (by decide)]
  simp

theorem simpleName_commonImport {target : Target} {name : String} (h : '.' ∉ name.toList) :
    simpleName (target.commonImport name) = name :=
  simpleName_append h

namespace Target

def libraryPackage (t : Target) (name : String) : String :=
  if name ∈ ["Arrays", "Collections", "List", "Map"] then "java.util"
  else if name ∈ ["ListUtils", "MapUtils"] then t.corePackage ++ ".utils"
  else if name = "NodeAllocator" then t.corePackage ++ ".algorithms"
  else t.basePackage

def libraryImport (t : Target) (name : String) : String := t.libraryPackage name ++ "." ++ name

end Target

theorem simpleName_libraryImport {target : Target} {name : String} (h : name ∈ reservedTypes) :
    simpleName (target.libraryImport name) = name := by
  have hdot : ∀ name ∈ reservedTypes, '.' ∉ name.toList := by decide
  exact simpleName_append (hdot name h)

def classTypes : List String :=
  ["Collections", "List", "Map", "MapUtils", "Builder", "ChildDescriptor", "EmptyFragment",
    "Fragment", "Node", "Type"]

/-- The library types in the code for a rule: the type of all nodes in an interface without bases,
those of every class, and in a class those for its groups and its children. -/
inductive UsesLibrary (scope : Scope) : Rule → String → Prop
  | root {rule : Rule} (habstract : rule.isAbstract = true) (hbases : scope.bases rule.name = []) :
      UsesLibrary scope rule "Node"
  | plain {rule : Rule} {name : String} (hclass : rule.isAbstract = false)
      (hname : name ∈ classTypes) : UsesLibrary scope rule name
  | groups {rule : Rule} (hclass : rule.isAbstract = false)
      (hgroups : scope.hierarchy rule.name ≠ []) : UsesLibrary scope rule "Arrays"
  | children {r : NodeRule} (hclass : r.isAbstract = false) (hchildren : r.descriptors ≠ []) :
      UsesLibrary scope (.node r) "ListUtils"
  | allocator {r : NodeRule} (hclass : r.isAbstract = false) (hchildren : r.descriptors ≠ [])
      (hlist : r.hasListChild = false) : UsesLibrary scope (.node r) "NodeAllocator"

theorem UsesLibrary.mem_reservedTypes {scope : Scope} {rule : Rule} {name : String}
    (h : UsesLibrary scope rule name) : name ∈ reservedTypes := by
  have hclass : ∀ name ∈ classTypes, name ∈ reservedTypes := by decide
  cases h with
  | plain _ hname => exact hclass name hname
  | root => decide
  | groups => decide
  | children => decide
  | allocator => decide

section Uses

variable {scope : Scope} {name : String}

theorem usesLibrary_arrays {rule : Rule} :
    UsesLibrary scope rule "Arrays" ↔
      rule.isAbstract = false ∧ scope.hierarchy rule.name ≠ [] := by
  have hplain : "Arrays" ∉ classTypes := by decide
  constructor
  · generalize harrays : "Arrays" = name
    intro h
    cases h with
    | groups hclass hgroups => exact ⟨hclass, hgroups⟩
    | plain _ hname =>
        rw [← harrays] at hname
        exact absurd hname hplain
    | root => exact absurd harrays (by decide)
    | children => exact absurd harrays (by decide)
    | allocator => exact absurd harrays (by decide)
  · rintro ⟨hclass, hgroups⟩
    exact .groups hclass hgroups

theorem usesLibrary_marker {r : NodeRule} (habstract : r.isAbstract = true) :
    UsesLibrary scope (.node r) name ↔ scope.bases r.name = [] ∧ name = "Node" := by
  constructor
  · intro h
    cases h with
    | root _ hbases => exact ⟨hbases, rfl⟩
    | plain hclass => cases habstract.symm.trans hclass
    | groups hclass => cases habstract.symm.trans hclass
    | children hclass => cases habstract.symm.trans hclass
    | allocator hclass => cases habstract.symm.trans hclass
  · rintro ⟨hbases, rfl⟩
    exact .root habstract hbases

def groupTypes (scope : Scope) (name : String) : List String :=
  (if scope.hierarchy name = [] then [] else ["Arrays"]) ++ classTypes

def childTypes (r : NodeRule) : List String :=
  if r.descriptors = [] then []
  else "ListUtils" :: if r.hasListChild then [] else ["NodeAllocator"]

theorem arrays_mem_groupTypes (h : scope.hierarchy name ≠ []) :
    "Arrays" ∈ groupTypes scope name := by
  rw [groupTypes, if_neg h]
  exact List.mem_cons_self

theorem usesLibrary_of_groupTypes {rule : Rule} (hclass : rule.isAbstract = false)
    (h : name ∈ groupTypes scope rule.name) : UsesLibrary scope rule name := by
  rcases List.mem_append.mp h with h | h
  · split at h
    · cases h
    · rw [List.mem_singleton.mp h]
      exact .groups hclass ‹_›
  · exact .plain hclass h

theorem usesLibrary_of_childTypes {r : NodeRule} (hclass : r.isAbstract = false)
    (h : name ∈ childTypes r) : UsesLibrary scope (.node r) name := by
  rw [childTypes] at h
  split at h
  · cases h
  rename_i hchildren
  rcases List.mem_cons.mp h with rfl | h
  · exact .children hclass hchildren
  split at h
  · cases h
  rename_i hlist
  rw [List.mem_singleton.mp h]
  exact .allocator hclass hchildren (by simpa using hlist)

theorem usesLibrary_literal {r : LiteralRule} :
    UsesLibrary scope (.literal r) name ↔ name ∈ groupTypes scope r.name := by
  constructor
  · intro h
    cases h with
    | root habstract => cases habstract
    | plain _ hname => exact List.mem_append_right _ hname
    | groups _ hgroups => exact arrays_mem_groupTypes hgroups
  · have hclass : (Rule.literal r).isAbstract = false := rfl
    exact usesLibrary_of_groupTypes hclass

theorem usesLibrary_node {r : NodeRule} (hclass : r.isAbstract = false) :
    UsesLibrary scope (.node r) name ↔ name ∈ groupTypes scope r.name ∨ name ∈ childTypes r := by
  constructor
  · intro h
    cases h with
    | root habstract => cases hclass.symm.trans habstract
    | plain _ hname => exact .inl (List.mem_append_right _ hname)
    | groups _ hgroups => exact .inl (arrays_mem_groupTypes hgroups)
    | children _ hchildren =>
        right
        rw [childTypes, if_neg hchildren]
        exact List.mem_cons_self
    | allocator _ hchildren hlist =>
        right
        rw [childTypes, if_neg hchildren, hlist]
        exact List.mem_cons_of_mem _ (List.mem_singleton_self _)
  · rintro (h | h)
    · exact usesLibrary_of_groupTypes hclass h
    · exact usesLibrary_of_childTypes hclass h

end Uses

theorem length_fieldsFrom (all earlier types : List String) :
    (fieldsFrom all earlier types).length = types.length := by
  induction types generalizing earlier with
  | nil => rfl
  | cons t types ih => simp [fieldsFrom, ih]

theorem Slot.map_descriptor_ofDescriptors (ds : List Descriptor) :
    (Slot.ofDescriptors ds).map Slot.descriptor = ds := by
  have hlength : ds.length ≤ (fieldsFor (ds.map Descriptor.typeName)).length := by
    rw [fieldsFor, length_fieldsFrom, List.length_map]
  have hfirst := List.map_fst_zip hlength
  rw [List.zip_eq_zipWith, List.map_zipWith] at hfirst
  rw [ofDescriptors, List.map_zipWith]
  exact hfirst

section Membership

variable {target : Target} {scope : Scope}

theorem typeImports_eq (name : String) :
    NodeType.imports target (scope.groups name) =
      (groupTypes scope name).map target.libraryImport := by
  by_cases hgroups : scope.hierarchy name = [] <;>
    simp [NodeType.imports, groupTypes, classTypes, Scope.groups, Target.libraryImport,
      Target.libraryPackage, Target.baseImport, String.append_assoc, hgroups]

theorem childImports_eq (r : NodeRule) :
    NodeClass.childImports target (Slot.ofDescriptors r.descriptors) =
      (childTypes r).map target.libraryImport := by
  have hslots := Slot.map_descriptor_ofDescriptors r.descriptors
  have hempty : (Slot.ofDescriptors r.descriptors).isEmpty = r.descriptors.isEmpty := by
    conv_rhs => rw [← hslots]
    rw [List.isEmpty_map]
  have hlist : (Slot.ofDescriptors r.descriptors).any Slot.isList = r.hasListChild := by
    have hany : r.descriptors.any Descriptor.isList = r.hasListChild := by
      rw [NodeRule.descriptors, List.any_filterMap]
      rfl
    rw [← hany]
    conv_rhs => rw [← hslots]
    rw [List.any_map]
    rfl
  rw [NodeClass.childImports, childTypes, hempty, hlist]
  simp only [List.isEmpty_iff]
  split
  · rfl
  · split <;> simp [Target.libraryImport, Target.libraryPackage, String.append_assoc]

theorem FileOf.mem_imports {e : Entry} {f : SourceFile} {q : String}
    (h : FileOf target scope e f) :
    q ∈ f.imports ↔
      (∃ name, UsesLibrary scope e.rule name ∧ target.libraryImport name = q) ∨
      ∃ name, (name ∈ scope.imports e.name ∧
          (e.rule.isAbstract = true → name ∈ scope.bases e.name)) ∧
        target.commonImport name = q := by
  cases h with
  | @marker r hrule habstract =>
      have hname : e.name = r.name := by rw [Entry.name, hrule, Rule.name]
      have hnode : target.libraryImport "Node" = target.baseImport "Node" := rfl
      rw [SourceFile.make, Text.mem_sortedSet, Marker.imports, hrule, hname]
      rw [List.mem_append, List.mem_map]
      apply or_congr
      · simp only [usesLibrary_marker habstract, List.isEmpty_iff]
        by_cases hbases : scope.bases r.name = [] <;> simp [hbases, hnode, eq_comm]
      · simp [Rule.isAbstract, habstract]
  | @node r hrule hclass _ =>
      have hname : e.name = r.name := by rw [Entry.name, hrule, Rule.name]
      rw [SourceFile.make, Text.mem_sortedSet, NodeClass.imports, Outline.make, hrule, hname]
      simp only [typeImports_eq, childImports_eq, List.mem_append, List.mem_map,
        usesLibrary_node hclass, Rule.isAbstract, hclass, or_and_right, exists_or]
      simp
  | @literal r _ _ hrule _ _ =>
      have hname : e.name = r.name := by rw [Entry.name, hrule, Rule.name]
      rw [SourceFile.make, Text.mem_sortedSet, LiteralClass.imports, Outline.make, hrule, hname]
      simp only [typeImports_eq, List.mem_append, List.mem_map, usesLibrary_literal,
        Rule.isAbstract]
      simp

theorem FileOf.nodup_imports {e : Entry} {f : SourceFile} (h : FileOf target scope e f) :
    f.imports.Nodup := by
  cases h with
  | marker => exact Text.nodup_sortedSet _
  | node => exact Text.nodup_sortedSet _
  | literal => exact Text.nodup_sortedSet _

end Membership

end NodeRules.Java
