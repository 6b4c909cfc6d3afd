import Mathlib.Order.Basic
import NodeRules.CommandLine
import NodeRules.Proofs.First

namespace NodeRules

inductive OptionName
  | output
  | package
  | core
  | license
  | version
deriving DecidableEq

namespace OptionName

def start : OptionName → String
  | output => "--output="
  | package => "--package="
  | core => "--core="
  | license => "--license="
  | version => "--version="

def preset : OptionName → Option String
  | output => some "output"
  | package => some "org.cqfn.astranaut.tree"
  | core => some "org.cqfn.astranaut.core"
  | license => none
  | version => some "1.0.0"

def opens (name : OptionName) (a : String) : Bool := name.start.toList.isPrefixOf a.toList

/-- The value of the option behind the arguments: that of the last argument for it, or the preset
one if there is none. -/
inductive Value (name : OptionName) (as : List String) : Option String → Prop
  | last {value : String} (h : (as.filter name.opens).getLast? = some (name.start ++ value)) :
      Value name as (some value)
  | unset (h : ∀ a ∈ as, name.opens a = false) : Value name as name.preset

variable {name other : OptionName} {a : String} {as : List String}

theorem opens_iff : name.opens a = true ↔ ∃ value, a = name.start ++ value := by
  rw [opens, List.isPrefixOf_iff_prefix]
  constructor
  · rintro ⟨value, h⟩
    refine ⟨String.ofList value, String.toList_inj.mp ?_⟩
    rw [String.toList_append, String.toList_ofList, h]
  · rintro ⟨value, rfl⟩
    exact ⟨value.toList, String.toList_append.symm⟩

theorem eq_of_prefix_start (h : name.start.toList <+: other.start.toList) : name = other := by
  revert h
  cases name <;> cases other <;> decide

theorem opens_start (name other : OptionName) (value : String) :
    name.opens (other.start ++ value) = decide (name = other) := by
  rw [Bool.eq_iff_iff, decide_eq_true_iff, opens, List.isPrefixOf_iff_prefix, String.toList_append]
  constructor
  · intro h
    rcases List.prefix_or_prefix_of_prefix h (List.prefix_append _ _) with hstart | hstart
    · exact eq_of_prefix_start hstart
    · exact (eq_of_prefix_start hstart).symm
  · rintro rfl
    exact List.prefix_append _ _

namespace Value

theorem append_start (as : List String) (value : String) :
    name.Value (as ++ [name.start ++ value]) (some value) := by
  refine .last ?_
  rw [List.filter_append, List.filter_cons_of_pos (by simp [opens_start]),
    List.getLast?_append]
  rfl

theorem append_other {x : Option String} (h : name.Value as x) (ha : name.opens a = false) :
    name.Value (as ++ [a]) x := by
  cases h with
  | last h =>
      refine .last ?_
      rwa [List.filter_append, List.filter_cons_of_neg (by simp [ha]), List.filter_nil,
        List.append_nil]
  | unset h => exact .unset (by simpa [or_imp, forall_and, ha] using h)

theorem unique {x y : Option String} (hx : name.Value as x) (hy : name.Value as y) : x = y := by
  have hopens {value : String} (h : (as.filter name.opens).getLast? = some (name.start ++ value)) :
      ∃ a ∈ as, name.opens a = true :=
    ⟨_, List.mem_filter.mp (List.mem_of_getLast? h)⟩
  cases hx with
  | @last v hv =>
      cases hy with
      | @last w hw =>
          have heq : name.start ++ v = name.start ++ w := Option.some.inj (hv.symm.trans hw)
          rw [(String.append_right_inj _).mp heq]
      | unset hw =>
          obtain ⟨a, ha, hopen⟩ := hopens hv
          simp [hw a ha] at hopen
  | unset hv =>
      cases hy with
      | last hw =>
          obtain ⟨a, ha, hopen⟩ := hopens hw
          simp [hv a ha] at hopen
      | unset => rfl

theorem reorder {bs : List String} {x : Option String} (h : name.Value as x) (hperm : as.Perm bs)
    (hfilter : as.filter name.opens = bs.filter name.opens) : name.Value bs x := by
  cases h with
  | last h => exact .last (hfilter ▸ h)
  | unset h => exact .unset fun a ha => h a (hperm.mem_iff.mpr ha)

end Value

end OptionName

namespace Arguments

def isPlain (a : String) : Bool := a.toList.head? != some '-'

def Unknown (a : String) : Prop := isPlain a = false ∧ ∀ name : OptionName, name.opens a = false

/-- The argument cannot follow those in front of it. -/
def Offends (before : List String) (a : String) : Prop :=
  Unknown a ∨ (isPlain a = true ∧ ∃ b ∈ before, isPlain b = true)

def fault (a : String) : CommandError := if isPlain a then .extraArgument a else .unknownOption a

def NoneOffends (as : List String) : Prop :=
  ∀ before a after, as = before ++ a :: after → ¬ Offends before a

/-- How a list of arguments is refused: for its first argument that offends, or for lack of a rules
file. -/
inductive Refused (as : List String) : CommandError → Prop
  | offends {a : String} (h : First Offends as a) : Refused as (fault a)
  | noParameters (h : NoneOffends as) (hplain : ∀ a ∈ as, isPlain a = false) :
      Refused as .noParameters

/-- The same arguments, with those for the same option in the same order. -/
structure Reorders (as bs : List String) : Prop where
  perm : as.Perm bs
  filter_eq : ∀ name : OptionName, as.filter name.opens = bs.filter name.opens

variable {a : String} {as bs : List String}

theorem isPlain_start (name : OptionName) (value : String) :
    isPlain (name.start ++ value) = false := by
  rw [isPlain, String.toList_append]
  cases name <;> rfl

theorem opens_of_isPlain (h : isPlain a = true) (name : OptionName) : name.opens a = false := by
  by_contra hopens
  obtain ⟨value, rfl⟩ := OptionName.opens_iff.mp (eq_true_of_ne_false hopens)
  rw [isPlain_start] at h
  cases h

theorem not_unknown_iff :
    ¬ Unknown a ↔ (isPlain a = false → ∃ name : OptionName, name.opens a = true) := by
  rw [Unknown, not_and]
  simp

theorem not_unknown_start (name : OptionName) (value : String) :
    ¬ Unknown (name.start ++ value) :=
  not_unknown_iff.mpr fun _ => ⟨name, OptionName.opens_iff.mpr ⟨value, rfl⟩⟩

theorem not_unknown_of_isPlain (h : isPlain a = true) : ¬ Unknown a := by
  rintro ⟨hdash, -⟩
  rw [h] at hdash
  cases hdash

theorem noneOffends (hplain : (as.filter isPlain).length ≤ 1) (hknown : ∀ a ∈ as, ¬ Unknown a) :
    NoneOffends as := by
  rintro before a after rfl (hunknown | ⟨ha, b, hb, hbplain⟩)
  · exact hknown a (by simp) hunknown
  · have hpos : 0 < (before.filter isPlain).length :=
      List.length_pos_of_mem (List.mem_filter.mpr ⟨hb, hbplain⟩)
    rw [List.filter_append, List.filter_cons_of_pos ha, List.length_append,
      List.length_cons] at hplain
    omega

theorem NoneOffends.not_first (h : NoneOffends as) : ¬ First Offends as a := by
  intro ha
  obtain ⟨before, after, hsplit, hoffends⟩ := ha.exists_split
  exact h before a after hsplit hoffends

theorem not_refused {input : String} (hplain : as.filter isPlain = [input])
    (hknown : ∀ a ∈ as, ¬ Unknown a) {e : CommandError} : ¬ Refused as e := by
  intro h
  cases h with
  | offends h => exact (noneOffends (by simp [hplain]) hknown).not_first h
  | noParameters _ hnone =>
      have hinput : input ∈ as.filter isPlain := by simp [hplain]
      obtain ⟨hmem, hinput⟩ := List.mem_filter.mp hinput
      simp [hnone input hmem] at hinput

theorem Refused.unique {e e' : CommandError} (h : Refused as e) (h' : Refused as e') : e = e' := by
  cases h with
  | offends ha =>
      cases h' with
      | offends hb => rw [ha.unique hb]
      | noParameters hnone _ => exact absurd ha hnone.not_first
  | noParameters hnone _ =>
      cases h' with
      | offends hb => exact absurd hb hnone.not_first
      | noParameters => rfl

end Arguments

namespace Argument

def ofOption : OptionName → String → Argument
  | .output => output
  | .package => package
  | .core => core
  | .license => license
  | .version => version

theorem after?_eq_some_iff {start text rest : List Char} :
    after? start text = some rest ↔ text = start ++ rest := by
  fun_induction after? start text with
  | case1 text => exact ⟨fun h => Option.some.inj h, congrArg some⟩
  | case2 => simp
  | case3 s start text ih => simpa using ih
  | case4 s start c text hne => simp [Ne.symm hne]

theorem after?_eq_none_iff {name : OptionName} {a : String} :
    after? name.start.toList a.toList = none ↔ name.opens a = false := by
  rw [← Bool.not_eq_true, OptionName.opens, List.isPrefixOf_iff_prefix, List.IsPrefix, not_exists,
    Option.eq_none_iff_forall_ne_some]
  exact forall_congr' fun rest => not_congr (after?_eq_some_iff.trans eq_comm)

theorem valued_eq : valued = [OptionName.output, .package, .core, .license, .version].map
    fun name => (name.start, ofOption name) := rfl

theorem read_start (name other : OptionName) (value : String) :
    (after? name.start.toList (other.start ++ value).toList).map
        (fun rest => ofOption name (String.ofList rest)) =
      if name = other then some (ofOption other value) else none := by
  by_cases h : name = other
  · subst h
    rw [if_pos rfl, after?_eq_some_iff.mpr String.toList_append, Option.map_some,
      String.ofList_toList]
  · have hopens : name.opens (other.start ++ value) = false := by
      rw [OptionName.opens_start]
      exact decide_eq_false h
    rw [if_neg h, after?_eq_none_iff.mpr hopens]
    rfl

theorem ofString_start (name : OptionName) (value : String) :
    ofString (name.start ++ value) = ofOption name value := by
  rw [ofString, valued_eq]
  simp only [List.map_cons, List.findSome?_cons, read_start]
  cases name <;> rfl

theorem ofString_other {a : String} (h : ∀ name : OptionName, name.opens a = false) :
    ofString a = if Arguments.isPlain a then plain else unknown := by
  rw [ofString, valued_eq]
  simp only [List.map_cons, List.findSome?_cons, after?_eq_none_iff.mpr (h _)]
  by_cases ha : a.toList.head? = some '-' <;> simp [Arguments.isPlain, ha]

end Argument

namespace Options

open Arguments

def get (o : Options) : OptionName → Option String
  | .output => some o.output
  | .package => some o.settings.rootPackage
  | .core => some o.settings.corePackage
  | .license => o.licenseFile
  | .version => some o.settings.version

def set (o : Options) : OptionName → String → Options
  | .output, value => { o with output := value }
  | .package, value => { o with settings := { o.settings with rootPackage := value } }
  | .core, value => { o with settings := { o.settings with corePackage := value } }
  | .license, value => { o with licenseFile := some value }
  | .version, value => { o with settings := { o.settings with version := value } }

/-- The state behind the arguments `as`: the rules file, once it was named, and the options with the
values so far. No argument sets the text of the license. -/
structure Taken (as : List String) (input : Option String) (o : Options) : Prop where
  plain : as.filter isPlain = input.toList
  known : ∀ a ∈ as, ¬ Unknown a
  value : ∀ name : OptionName, name.Value as (o.get name)
  license : o.settings.license = ({} : Settings).license

structure AskedFor (as : List String) (o : Options) : Prop extends Taken as (some o.input) o where
  filePath : o.settings.filePath = o.input

theorem eq_of_get {o o' : Options} (hinput : o.input = o'.input)
    (hpath : o.settings.filePath = o'.settings.filePath)
    (hlicense : o.settings.license = o'.settings.license)
    (hget : ∀ name, o.get name = o'.get name) : o = o' := by
  have houtput := Option.some.inj (hget .output)
  have hpackage := Option.some.inj (hget .package)
  have hcore := Option.some.inj (hget .core)
  have hversion := Option.some.inj (hget .version)
  have hfile : o.licenseFile = o'.licenseFile := hget .license
  obtain ⟨_, _, _, _, _, _, _, _⟩ := o
  obtain ⟨_, _, _, _, _, _, _, _⟩ := o'
  rw [Options.mk.injEq, Settings.mk.injEq]
  exact ⟨hinput, houtput, hfile, hpath, hlicense, hversion, hpackage, hcore⟩

theorem get_set (o : Options) (name : OptionName) (value : String) (other : OptionName) :
    (o.set name value).get other = if other = name then some value else o.get other := by
  cases name <;> cases other <;> rfl

theorem license_set (o : Options) (name : OptionName) (value : String) :
    (o.set name value).settings.license = o.settings.license := by
  cases name <;> rfl

theorem taken_initial : Taken [] none (initial "") where
  plain := rfl
  known := by simp
  value name := by
    have hget : (initial "").get name = name.preset := by cases name <;> rfl
    rw [hget]
    exact .unset (by simp)
  license := rfl

namespace Taken

variable {before as : List String} {input : Option String} {o : Options}

theorem noneOffends (h : Taken as input o) : NoneOffends as := by
  refine Arguments.noneOffends ?_ h.known
  rw [h.plain]
  cases input <;> simp

theorem append_option (h : Taken before input o) (name : OptionName) (value : String) :
    Taken (before ++ [name.start ++ value]) input (o.set name value) where
  plain := by
    rw [List.filter_append, List.filter_cons_of_neg (by simp [isPlain_start]), List.filter_nil,
      List.append_nil, h.plain]
  known := by
    rw [List.forall_mem_append, List.forall_mem_singleton]
    exact ⟨h.known, not_unknown_start name value⟩
  value other := by
    rw [get_set]
    split
    · rename_i hsame
      rw [hsame]
      exact .append_start before value
    · rename_i hother
      exact (h.value other).append_other (by rw [OptionName.opens_start, decide_eq_false hother])
  license := (license_set o name value).trans h.license

theorem append_plain {a : String} (h : Taken before none o) (ha : isPlain a = true) :
    Taken (before ++ [a]) (some a) o where
  plain := by
    rw [List.filter_append, h.plain, List.filter_cons_of_pos ha]
    rfl
  known := by
    rw [List.forall_mem_append, List.forall_mem_singleton]
    exact ⟨h.known, not_unknown_of_isPlain ha⟩
  value name := (h.value name).append_other (opens_of_isPlain ha name)
  license := h.license

end Taken

section Steps

variable {before : List String} {input : Option String} {o : Options}

theorem takeAll_option (name : OptionName) (value : String) (as : List String) :
    takeAll input o ((name.start ++ value) :: as) = takeAll input (o.set name value) as := by
  rw [takeAll, Argument.ofString_start]
  cases name <;> rfl

theorem takeAll_unknown {a : String} (h : Unknown a) (as : List String) :
    takeAll input o (a :: as) = .error (fault a) := by
  rw [takeAll, Argument.ofString_other h.2, fault, h.1]
  rfl

theorem takeAll_plain {a : String} (h : isPlain a = true) (as : List String) :
    takeAll input o (a :: as) =
      if input.isSome then .error (fault a) else takeAll (some a) o as := by
  rw [takeAll, Argument.ofString_other (opens_of_isPlain h), fault, h]
  rfl

theorem takeAll_step (h : Taken before input o) (a : String) (as : List String) :
    (Offends before a ∧ takeAll input o (a :: as) = .error (fault a)) ∨
    ∃ input' o', Taken (before ++ [a]) input' o' ∧ ¬ Offends before a ∧
      takeAll input o (a :: as) = takeAll input' o' as := by
  by_cases hoption : ∃ name : OptionName, name.opens a = true
  · obtain ⟨name, hname⟩ := hoption
    obtain ⟨value, rfl⟩ := OptionName.opens_iff.mp hname
    have h' := h.append_option name value
    exact .inr ⟨input, _, h', h'.noneOffends _ _ _ rfl, takeAll_option name value as⟩
  have hopens : ∀ name : OptionName, name.opens a = false := by simpa using hoption
  by_cases hplain : isPlain a = true
  · rw [takeAll_plain hplain]
    cases input with
    | none =>
        have h' := h.append_plain hplain
        exact .inr ⟨some a, o, h', h'.noneOffends _ _ _ rfl, rfl⟩
    | some input =>
        have hinput : input ∈ before.filter isPlain := by simp [h.plain]
        exact .inl ⟨.inr ⟨hplain, input, List.mem_filter.mp hinput⟩, rfl⟩
  · have hunknown : Unknown a := ⟨by simpa using hplain, hopens⟩
    exact .inl ⟨.inl hunknown, takeAll_unknown hunknown as⟩

/-- All arguments lead to the state behind them, up to the first one that offends. -/
theorem takeAll_cases (h : Taken before input o) (as : List String) :
    (∃ a, First (fun front => Offends (before ++ front)) as a ∧
      takeAll input o as = .error (fault a)) ∨
    ∃ input' o', Taken (before ++ as) input' o' ∧ takeAll input o as = .ok (input', o') := by
  induction as generalizing before input o with
  | nil => exact .inr ⟨input, o, by rwa [List.append_nil], rfl⟩
  | cons a as ih =>
      rcases takeAll_step h a as with ⟨ha, hstep⟩ | ⟨input', o', h', ha, hstep⟩
      · exact .inl ⟨a, .head (by rwa [List.append_nil]), hstep⟩
      · rw [hstep]
        rcases ih h' with ⟨b, hb, herror⟩ | ⟨input'', o'', h'', hok⟩
        · refine .inl ⟨b, .cons (by rwa [List.append_nil]) ?_, herror⟩
          simpa using hb
        · exact .inr ⟨input'', o'', by simpa using h'', hok⟩

end Steps

theorem Taken.askedFor {as : List String} {input : String} {o : Options}
    (h : Taken as (some input) o) :
    AskedFor as { o with input, settings := { o.settings with filePath := input } } where
  plain := h.plain
  known := h.known
  value name := by
    have hvalue := h.value name
    cases name <;> exact hvalue
  license := h.license
  filePath := rfl

theorem ofArguments_cases (as : List String) :
    (∃ e, Refused as e ∧ ofArguments as = .error e) ∨
    ∃ o, AskedFor as o ∧ ofArguments as = .ok o := by
  rw [ofArguments]
  rcases takeAll_cases taken_initial as with ⟨a, ha, herror⟩ | ⟨input, o, h, hok⟩
  · rw [herror]
    exact .inl ⟨fault a, .offends ha, rfl⟩
  · rw [hok]
    rw [List.nil_append] at h
    cases input with
    | none =>
        have hnone : ∀ a ∈ as, isPlain a = false := by simpa using h.plain
        exact .inl ⟨_, .noParameters h.noneOffends hnone, rfl⟩
    | some input => exact .inr ⟨_, h.askedFor, rfl⟩

namespace AskedFor

variable {as bs : List String} {o o' : Options}

theorem unique (h : AskedFor as o) (h' : AskedFor as o') : o = o' := by
  have hinput : o.input = o'.input := by simpa using h.plain.symm.trans h'.plain
  have hpath : o.settings.filePath = o'.settings.filePath := by rw [h.filePath, h'.filePath, hinput]
  exact eq_of_get hinput hpath (h.license.trans h'.license.symm) fun name =>
    (h.value name).unique (h'.value name)

theorem reorder (h : AskedFor as o) (hbs : Reorders as bs) : AskedFor bs o where
  plain := by
    have hperm := (hbs.perm.filter isPlain).symm
    rw [h.plain] at hperm
    exact hperm.eq_singleton
  known a ha := h.known a (hbs.perm.mem_iff.mpr ha)
  value name := (h.value name).reorder hbs.perm (hbs.filter_eq name)
  license := h.license
  filePath := h.filePath

end AskedFor

theorem ofArguments_ok_iff {as : List String} {o : Options} :
    ofArguments as = .ok o ↔ AskedFor as o := by
  rcases ofArguments_cases as with ⟨e, he, heq⟩ | ⟨o', h', heq⟩
  · rw [heq]
    exact ⟨fun h => (by cases h), fun h => absurd he (not_refused h.plain h.known)⟩
  · rw [heq, Except.ok.injEq]
    exact ⟨fun h => h ▸ h', h'.unique⟩

theorem ofArguments_error_iff {as : List String} {e : CommandError} :
    ofArguments as = .error e ↔ Refused as e := by
  rcases ofArguments_cases as with ⟨e', he', heq⟩ | ⟨o, ho, heq⟩
  · rw [heq, Except.error.injEq]
    exact ⟨fun h => h ▸ he', he'.unique⟩
  · rw [heq]
    exact ⟨fun h => (by cases h), fun h => absurd h (not_refused ho.plain ho.known)⟩

theorem exists_ofArguments_iff {as : List String} :
    (∃ o, ofArguments as = .ok o) ↔
      (∃ input, as.filter isPlain = [input]) ∧ ∀ a ∈ as, ¬ Unknown a := by
  constructor
  · rintro ⟨o, ho⟩
    have h := ofArguments_ok_iff.mp ho
    exact ⟨⟨o.input, h.plain⟩, h.known⟩
  · rintro ⟨⟨input, hplain⟩, hknown⟩
    rcases ofArguments_cases as with ⟨e, he, -⟩ | ⟨o, -, ho⟩
    · exact absurd he (not_refused hplain hknown)
    · exact ⟨o, ho⟩

/-- Arguments are taken if exactly one is no option and all others are for known options. Each
option then has the value of its last argument, so that the order counts only among arguments for
the same option. Otherwise the error is that of the first argument that offends, or there is no
rules file. -/
theorem ofArguments_any_order (as : List String) :
    ((∃ o, ofArguments as = .ok o) ↔ (∃ input, as.filter isPlain = [input]) ∧
      ∀ a ∈ as, isPlain a = false → ∃ name : OptionName, name.opens a = true) ∧
    (∀ o, ofArguments as = .ok o ↔ AskedFor as o) ∧
    (∀ e, ofArguments as = .error e ↔ Refused as e) ∧
    ∀ bs, Reorders as bs → ∀ o, ofArguments as = .ok o → ofArguments bs = .ok o := by
  refine ⟨?_, fun o => ofArguments_ok_iff, fun e => ofArguments_error_iff, ?_⟩
  · simp only [exists_ofArguments_iff, not_unknown_iff]
  · intro bs hbs o ho
    exact ofArguments_ok_iff.mpr ((ofArguments_ok_iff.mp ho).reorder hbs)

/-- An option twice, an empty value, and the rules file between them. -/
def mixedArguments : List String :=
  ["--output=a", "--version=", "rules.dsl", "--output=b", "--license=L"]

def sortedArguments : List String :=
  ["rules.dsl", "--license=L", "--output=a", "--output=b", "--version="]

def mixedOptions : Options :=
  ⟨"rules.dsl", "b", some "L", { filePath := "rules.dsl", version := "" }⟩

theorem ofArguments_any_order_mixed :
    Reorders mixedArguments sortedArguments ∧ ofArguments mixedArguments = .ok mixedOptions ∧
    ofArguments sortedArguments = .ok mixedOptions := by
  have hreorders : Reorders mixedArguments sortedArguments := by
    refine ⟨by decide, fun name => ?_⟩
    cases name <;> decide
  have hmixed : ofArguments mixedArguments = .ok mixedOptions := rfl
  obtain ⟨-, -, -, hreorder⟩ := ofArguments_any_order mixedArguments
  exact ⟨hreorders, hmixed, hreorder _ hreorders _ hmixed⟩

-- Both arguments behind the first one offend.
example : ofArguments ["a.dsl", "b.dsl", "--verbose"] = .error (.extraArgument "b.dsl") := rfl

end Options

end NodeRules
