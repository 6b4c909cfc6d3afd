import Mathlib.Data.Option.Basic
import Mathlib.Data.String.Basic
import NodeRules.Java.Generate
import NodeRules.Proofs.Program.Lines

namespace NodeRules.Java

def textValue? : List Char → Option String
  | '"' :: cs =>
    if cs.getLast? = some '"' ∧ '"' ∉ cs.dropLast ∧ '\\' ∉ cs.dropLast then
      some (String.ofList cs.dropLast)
    else none
  | _ => none

/-- The value of an argument, for the value `name` of the constant. -/
def argumentValue? (name : String) (argument : List Char) : Option String :=
  let text := Text.trimStart argument
  if text = "TypeImpl.NAME".toList then some name else textValue? text

def arguments (call : List Char) : List (List Char) :=
  ((call.dropWhile (· ≠ '(')).tail.takeWhile (· ≠ ')')).splitOn ','

def listFunctions : List String := ["Arrays.asList", "Collections.singletonList"]

def listValue? (name : String) (call : List Char) : Option (List String) :=
  if String.ofList (call.takeWhile (· ≠ '(')) ∈ listFunctions then
    (arguments call).mapM (argumentValue? name)
  else none

def Declaration.initializer? (d : Declaration) (declaration : String) : Option (List Char) :=
  (d.fields.find? (·.declaration == declaration)).map fun field =>
    field.initializer.flatMap String.toList

/-- The groups that the file lists for its type. -/
def SourceFile.groups? (f : SourceFile) : Option (List String) := do
  let type ← f.declaration.nested.find? (·.name == "TypeImpl")
  let name ← type.initializer? "private static final String NAME" >>= textValue?
  listValue? name (← type.initializer? "private static final List<String> HIERARCHY")

theorem toList_inQuotes (s : String) :
    (NodeType.inQuotes s).toList = '"' :: (s.toList ++ ['"']) := by
  simp [NodeType.inQuotes]

theorem textValue?_inQuotes {s : String} (h : Scanner.IsName s.toList) :
    textValue? (NodeType.inQuotes s).toList = some s := by
  have hquote : '"' ∉ s.toList := h.not_mem rfl
  have hslash : '\\' ∉ s.toList := h.not_mem rfl
  rw [toList_inQuotes, textValue?, List.getLast?_concat, List.dropLast_concat,
    if_pos ⟨rfl, hquote, hslash⟩, String.ofList_toList]

theorem argumentValue?_text {name s : String} (h : Scanner.IsName s.toList) :
    argumentValue? name (' ' :: (NodeType.inQuotes s).toList) = some s := by
  have htrim : Text.trimStart (' ' :: (NodeType.inQuotes s).toList) =
      (NodeType.inQuotes s).toList := by
    rw [toList_inQuotes]
    rfl
  have hne : (NodeType.inQuotes s).toList ≠ "TypeImpl.NAME".toList := by
    rw [toList_inQuotes]
    intro he
    cases (List.cons.inj he).1
  rw [argumentValue?, htrim, if_neg hne, textValue?_inQuotes h]

def laterArguments (ancestors : List String) : List (List Char) :=
  ancestors.map fun ancestor => ' ' :: (NodeType.inQuotes ancestor).toList

theorem toList_groupsValue (name ancestor : String) (ancestors : List String) :
    (NodeType.groupsValue (name :: ancestor :: ancestors)).toList = "Arrays.asList(".toList ++
      ([','].intercalate ("TypeImpl.NAME".toList :: laterArguments (ancestor :: ancestors)) ++
        [')']) := by
  simp [NodeType.groupsValue, laterArguments, String.toList_intercalate, intercalate_cons,
    List.flatMap_map]

theorem not_mem_laterArguments {ancestors : List String} {c : Char}
    (h : ∀ ancestor ∈ ancestors, Scanner.IsName ancestor.toList)
    (hc : Scanner.isNameChar c = false) (hblank : c ≠ ' ') (hquote : c ≠ '"') :
    ∀ argument ∈ laterArguments ancestors, c ∉ argument := by
  intro argument hargument
  obtain ⟨ancestor, ha, rfl⟩ := List.mem_map.mp hargument
  have hname := (h ancestor ha).not_mem hc
  simp [toList_inQuotes, hblank, hquote, hname]

theorem arguments_groupsValue {name ancestor : String} {ancestors : List String}
    (h : ∀ a ∈ ancestor :: ancestors, Scanner.IsName a.toList) :
    arguments (NodeType.groupsValue (name :: ancestor :: ancestors)).toList =
      "TypeImpl.NAME".toList :: laterArguments (ancestor :: ancestors) := by
  have hclose : ∀ c ∈ [','].intercalate
      ("TypeImpl.NAME".toList :: laterArguments (ancestor :: ancestors)), c ≠ ')' := by
    rintro c hc rfl
    rw [intercalate_cons, List.mem_append] at hc
    rcases hc with hc | hc
    · revert hc
      decide
    · obtain ⟨argument, hargument, hc⟩ := List.mem_flatMap.mp hc
      rcases List.mem_append.mp hc with hc | hc
      · revert hc
        decide
      · exact not_mem_laterArguments h rfl (by decide) (by decide) argument hargument hc
  have hcomma : ∀ argument ∈ "TypeImpl.NAME".toList :: laterArguments (ancestor :: ancestors),
      ',' ∉ argument := by
    intro argument hargument
    rcases List.mem_cons.mp hargument with rfl | hargument
    · decide
    · exact not_mem_laterArguments h rfl (by decide) (by decide) argument hargument
  have hopen (rest : List Char) :
      ("Arrays.asList(".toList ++ rest).dropWhile (· ≠ '(') = '(' :: rest := rfl
  have htake (inner : List Char) (hinner : ∀ c ∈ inner, c ≠ ')') :
      (inner ++ [')']).takeWhile (· ≠ ')') = inner := by
    rw [List.takeWhile_append_of_pos (by simpa using hinner)]
    simp
  rw [toList_groupsValue, arguments, hopen, List.tail_cons, htake _ hclose,
    List.splitOn_intercalate _ hcomma (by simp)]

theorem mapM_laterArguments {name : String} {ancestors : List String}
    (h : ∀ a ∈ ancestors, Scanner.IsName a.toList) :
    (laterArguments ancestors).mapM (argumentValue? name) = some ancestors := by
  induction ancestors with
  | nil => rfl
  | cons a ancestors ih =>
      have hrest := ih fun b hb => h b (List.mem_cons_of_mem _ hb)
      rw [laterArguments, List.map_cons, List.mapM_cons,
        argumentValue?_text (h a List.mem_cons_self), ← laterArguments, hrest]
      rfl

theorem listValue?_groupsValue {name : String} {ancestors : List String}
    (h : ∀ ancestor ∈ ancestors, Scanner.IsName ancestor.toList) :
    listValue? name (NodeType.groupsValue (name :: ancestors)).toList =
      some (name :: ancestors) := by
  cases ancestors with
  | nil =>
      have hgroups : NodeType.groupsValue [name] = "Collections.singletonList(TypeImpl.NAME)" := rfl
      have harguments : arguments "Collections.singletonList(TypeImpl.NAME)".toList =
          ["TypeImpl.NAME".toList] := by decide
      rw [hgroups, listValue?, if_pos (by decide), harguments]
      rfl
  | cons ancestor ancestors =>
      have hcallee : ((NodeType.groupsValue (name :: ancestor :: ancestors)).toList.takeWhile
          (· ≠ '(')) = "Arrays.asList".toList := by
        rw [toList_groupsValue]
        rfl
      rw [listValue?, hcallee, if_pos (by decide), arguments_groupsValue h, List.mapM_cons,
        mapM_laterArguments h]
      rfl

theorem SourceFile.groups?_nodeClass {f : SourceFile} {o : Outline} {children : List String}
    {ancestors : List String} {more : List Declaration}
    (hf : f.declaration.nested = NodeType.typeClass o children :: more)
    (ho : o.groups = o.name :: ancestors) (h : ∀ group ∈ o.groups, Scanner.IsName group.toList) :
    f.groups? = some o.groups := by
  have hname : Scanner.IsName o.name.toList := h o.name (by simp [ho])
  have hlist : listValue? o.name (NodeType.groupsValue o.groups).toList = some o.groups := by
    rw [ho] at h ⊢
    exact listValue?_groupsValue fun a ha => h a (List.mem_cons_of_mem _ ha)
  have htype : f.declaration.nested.find? (·.name == "TypeImpl") =
      some (NodeType.typeClass o children) := by
    rw [hf]
    rfl
  have hconstant : (NodeType.typeClass o children).initializer? "private static final String NAME" =
      some (NodeType.inQuotes o.name).toList := by
    simp [Declaration.initializer?, NodeType.typeClass, NodeType.typeFields]
  have hgroups : (NodeType.typeClass o children).initializer?
      "private static final List<String> HIERARCHY" =
        some (NodeType.groupsValue o.groups).toList := by
    simp [Declaration.initializer?, NodeType.typeClass, NodeType.typeFields]
  simp only [groups?, htype, hconstant, hgroups, textValue?_inQuotes hname, hlist,
    Option.bind_eq_bind, Option.bind_some]

end NodeRules.Java
