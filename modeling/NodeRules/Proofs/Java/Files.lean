import NodeRules.Java.Generate
import NodeRules.Proofs.Results
import NodeRules.Proofs.Scope.Origins
import NodeRules.Proofs.Template.Holes

namespace NodeRules.Java

inductive FileOf (target : Target) (scope : Scope) (e : Entry) : SourceFile → Prop
  | marker {r : NodeRule} (hrule : e.rule = .node r) (habstract : r.isAbstract = true) :
      FileOf target scope e (.make target.license (target.packageName e.language)
        (Marker.imports target scope e.name) (Marker.declaration (.make target scope e)))
  | node {r : NodeRule} (hrule : e.rule = .node r) (habstract : r.isAbstract = false)
      (hdeclared : ∀ d ∈ r.descriptors, scope.isDeclared d.typeName = true) :
      FileOf target scope e (.make target.license (target.packageName e.language)
        (NodeClass.imports target scope (.make target scope e) (Slot.ofDescriptors r.descriptors))
        (NodeClass.declaration (.make target scope e) (Slot.ofDescriptors r.descriptors)))
  | literal {r : LiteralRule} {serialized parsed : String} (hrule : e.rule = .literal r)
      (hserialized : Template.instantiate r.serializer ["this.data"] = .ok serialized)
      (hparsed : Template.instantiate r.parser ["str"] = .ok parsed) :
      FileOf target scope e (.make target.license (target.packageName e.language)
        (LiteralClass.imports target scope (.make target scope e))
        (LiteralClass.declaration (.make target scope e) r serialized parsed))

variable {target : Target} {scope : Scope} {e : Entry} {f : SourceFile}

theorem nodeFile_ok {r : NodeRule} (hrule : e.rule = .node r)
    (h : nodeFile target scope e r = .ok f) : FileOf target scope e f := by
  rw [nodeFile] at h
  split at h
  · rename_i habstract
    cases h
    exact .marker hrule habstract
  rename_i habstract
  split at h
  · cases h
  rename_i hnone
  cases h
  refine .node hrule (by simpa using habstract) ?_
  intro d hd
  simpa using List.find?_eq_none.mp hnone d hd

theorem literalFile_ok {r : LiteralRule} (hrule : e.rule = .literal r)
    (h : literalFile target scope e r = .ok f) : FileOf target scope e f := by
  obtain ⟨serialized, hserialized, h⟩ := bind_ok h
  obtain ⟨parsed, hparsed, h⟩ := bind_ok h
  cases h
  exact .literal hrule (mapError_ok hserialized) (mapError_ok hparsed)

theorem reservedTypes_sorted : reservedTypes.Pairwise (· < ·) := by decide

theorem isReservedType_iff {name : String} : isReservedType name = true ↔ name ∈ reservedTypes :=
  Text.isListed_iff reservedTypes_sorted

theorem generate_ok (h : generate target scope e = .ok f) :
    FileOf target scope e f ∧ ∀ name ∈ mentionedTypes scope e.rule, name ∉ reservedTypes := by
  rw [generate] at h
  split at h
  · cases h
  rename_i hnone
  constructor
  · split at h
    · exact nodeFile_ok ‹_› h
    · exact literalFile_ok ‹_› h
  · intro name hname
    exact mt isReservedType_iff.mpr (List.find?_eq_none.mp hnone name hname)

theorem exists_nodeFile_iff {r : NodeRule} :
    (∃ f, nodeFile target scope e r = .ok f) ↔ scope.DeclaresChildren (.node r) := by
  simp only [Scope.DeclaresChildren, Rule.node.injEq, forall_eq', nodeFile]
  by_cases habstract : r.isAbstract = true
  · simp [habstract]
  · have hclass : r.isAbstract = false := by simpa using habstract
    rw [if_neg habstract]
    cases hfind : r.descriptors.find? fun d => !scope.isDeclared d.typeName with
    | none =>
        refine ⟨fun _ _ d hd => ?_, fun _ => ⟨_, rfl⟩⟩
        simpa using List.find?_eq_none.mp hfind d hd
    | some d =>
        constructor
        · rintro ⟨f, h⟩
          cases h
        · intro hall
          have hd := List.find?_some hfind
          simp [hall hclass d (List.mem_of_find?_eq_some hfind)] at hd

theorem exists_literalFile_iff {r : LiteralRule} : (∃ f, literalFile target scope e r = .ok f) ↔
    ∀ template ∈ [r.serializer, r.parser], ∀ digits, Template.HasHole template.toList digits →
      digits = [] ∨ Nat.ofDigitChars 10 digits 0 = 1 := by
  simp only [List.forall_mem_cons, List.not_mem_nil, false_imp_iff, forall_const, and_true]
  rw [← Template.exists_instantiate_iff "this.data", ← Template.exists_instantiate_iff "str",
    literalFile]
  cases Template.instantiate r.serializer ["this.data"] with
  | error _ => simp [Except.mapError, bind, Except.bind]
  | ok serialized =>
      cases Template.instantiate r.parser ["str"] with
      | error _ => simp [Except.mapError, bind, Except.bind]
      | ok parsed => simp [Except.mapError, bind, Except.bind, pure, Except.pure]

/-- There is a file for an entry exactly when none of its types is reserved, its children are
declared, and its templates have no holes but the first. -/
theorem exists_generate_iff : (∃ f, generate target scope e = .ok f) ↔
    (∀ name ∈ mentionedTypes scope e.rule, name ∉ reservedTypes) ∧
      scope.DeclaresChildren e.rule ∧
      ∀ r, e.rule = .literal r → ∀ template ∈ [r.serializer, r.parser],
        ∀ digits, Template.HasHole template.toList digits →
          digits = [] ∨ Nat.ofDigitChars 10 digits 0 = 1 := by
  rw [generate]
  cases hfind : (mentionedTypes scope e.rule).find? isReservedType with
  | some name =>
      have hname : name ∈ reservedTypes := isReservedType_iff.mp (List.find?_some hfind)
      constructor
      · rintro ⟨f, h⟩
        cases h
      · rintro ⟨hfree, -⟩
        exact absurd hname (hfree name (List.mem_of_find?_eq_some hfind))
  | none =>
      have hfree : ∀ name ∈ mentionedTypes scope e.rule, name ∉ reservedTypes := by
        intro name hname
        exact mt isReservedType_iff.mpr (List.find?_eq_none.mp hfind name hname)
      rw [and_iff_right hfree]
      cases e.rule with
      | node r =>
          rw [exists_nodeFile_iff, and_iff_left]
          nofun
      | literal r =>
          rw [exists_literalFile_iff, and_iff_right (by nofun)]
          simp only [Rule.literal.injEq, forall_eq']

theorem mem_mentionedTypes {name : String} : name ∈ mentionedTypes scope e.rule ↔
    name = e.name ∨ name ∈ e.rule.references ∨ name ∈ scope.bases e.name := by
  rw [mentionedTypes, List.cons_append, List.mem_cons, List.mem_append, Entry.name]

namespace FileOf

theorem typeName_eq (h : FileOf target scope e f) : f.typeName = e.name := by
  cases h <;> rfl

theorem package_eq (h : FileOf target scope e f) : f.package = target.packageName e.language := by
  cases h <;> rfl

theorem supertypes_eq (h : FileOf target scope e f) :
    f.declaration.supertypes = Outline.supertypesIn scope e.name := by
  cases h <;> rfl

theorem isAbstract_eq (h : FileOf target scope e f) :
    e.rule.isAbstract = decide (f.declaration.form = .interface) := by
  cases h with
  | marker hrule habstract => rw [hrule]; exact habstract
  | node hrule habstract => rw [hrule]; exact habstract
  | literal hrule => rw [hrule]; rfl

theorem isDeclared {r : NodeRule} (h : FileOf target scope e f) (hrule : e.rule = .node r)
    (habstract : r.isAbstract = false) :
    ∀ d ∈ r.descriptors, scope.isDeclared d.typeName = true := by
  cases h with
  | marker hrule' habstract' =>
      cases hrule.symm.trans hrule'
      rw [habstract] at habstract'
      cases habstract'
  | node hrule' _ hdeclared =>
      cases hrule.symm.trans hrule'
      exact hdeclared
  | literal hrule' => cases hrule.symm.trans hrule'

theorem nested_eq (h : FileOf target scope e f) (hclass : e.rule.isAbstract = false) :
    ∃ children more, f.declaration.nested =
      NodeType.typeClass (.make target scope e) children :: more := by
  cases h with
  | marker hrule habstract =>
      rw [hrule, Rule.isAbstract, habstract] at hclass
      cases hclass
  | node => exact ⟨_, _, rfl⟩
  | literal => exact ⟨_, _, rfl⟩

end FileOf

end NodeRules.Java
