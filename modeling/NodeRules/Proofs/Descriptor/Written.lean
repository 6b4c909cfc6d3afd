import Mathlib.Logic.Basic
import NodeRules.Proofs.Descriptor.Children
import NodeRules.Proofs.Token.Names
import NodeRules.Proofs.Token.Written

namespace NodeRules

open Scanner (Apart Writes)

section Lists

variable {α : Type} {written : α → List Char} (derives : List Token.Kind → α → Prop)
  (someDerive : List Token.Kind → List α → Prop)

theorem exists_writes_list (hlast : ∀ {ks a}, derives ks a → someDerive ks [a])
    (hmore : ∀ {ks ks' a as}, derives ks a → someDerive ks' as →
      someDerive (ks ++ .comma :: ks') (a :: as))
    (first : α) (more : List α)
    (h : ∀ a ∈ first :: more, ∃ ks, derives ks a ∧ Writes (written a) ks) :
    ∃ ks, someDerive ks (first :: more) ∧
      Writes (written first ++ more.flatMap fun a => ", ".toList ++ written a) ks := by
  obtain ⟨ks, hks, hwrites⟩ := h first List.mem_cons_self
  induction more generalizing first ks with
  | nil => exact ⟨ks, hlast hks, by simpa using hwrites⟩
  | cons second more ih =>
      have hrest : ∀ a ∈ second :: more, ∃ ks, derives ks a ∧ Writes (written a) ks :=
        fun a ha => h a (List.mem_cons_of_mem first ha)
      obtain ⟨ks₂, hks₂, hwrites₂⟩ := hrest second List.mem_cons_self
      obtain ⟨ks', hks', hwrites'⟩ := ih second hrest ks₂ hks₂ hwrites₂
      refine ⟨ks ++ .comma :: ks', hmore hks hks', ?_⟩
      have hcomma : Writes (',' :: ' ' :: _) (.comma :: ks') := (hwrites'.blank rfl).symbol rfl
      simpa using hwrites.append hcomma (Scanner.apart_cons rfl _)

end Lists

def Multiplicity.kinds : Multiplicity → List Token.Kind
  | one => []
  | optional => [.question]
  | list => [.star]

theorem Multiplicity.derives_kinds (m : Multiplicity) :
    Descriptor.MultiplicityDerives m.kinds m := by
  cases m with
  | one => exact .one
  | optional => exact .optional
  | list => exact .list

theorem Multiplicity.writes (m : Multiplicity) : Writes m.render.toList m.kinds := by
  cases m with
  | one => exact Scanner.writes_nil
  | optional | list => exact Scanner.writes_nil.symbol rfl

theorem Multiplicity.apart (m : Multiplicity) : Apart m.render.toList := by
  cases m with
  | one => exact Scanner.apart_nil
  | optional | list => exact Scanner.apart_cons rfl []

namespace Descriptor

inductive Named : Descriptor → Prop
  | mk {tag : Option String} {typeName : String} {parameters : List Descriptor}
      {data : Option Data} {multiplicity : Multiplicity} (htag : ∀ name ∈ tag, MatchesName name)
      (htype : MatchesName typeName) (hparameters : ∀ d ∈ parameters, Named d) :
      Named ⟨tag, typeName, parameters, data, multiplicity⟩

theorem Named.plain {typeName : String} (m : Multiplicity) (h : MatchesName typeName) :
    (plain typeName m).Named :=
  .mk (by simp) h (by simp)

theorem writes_name {name : String} (h : MatchesName name) : Writes name.toList [.name name] := by
  simpa using Scanner.writes_name (Scanner.isName_iff.mpr h)

theorem exists_writes_head {tag : Option String} {typeName : String}
    (htag : ∀ name ∈ tag, MatchesName name) (htype : MatchesName typeName) :
    ∃ ks, HeadDerives ks tag typeName ∧ Writes (renderTag tag ++ typeName).toList ks := by
  cases tag with
  | none => exact ⟨_, .name typeName, by simpa [renderTag] using writes_name htype⟩
  | some tag =>
      have hat : Writes ('@' :: typeName.toList) [.atSign, .name typeName] :=
        (writes_name htype).symbol rfl
      refine ⟨_, .tagged tag typeName, ?_⟩
      simpa [renderTag] using (writes_name (htag tag rfl)).append hat (Scanner.apart_cons rfl _)

theorem Data.exists_writes (data : Data) :
    ∃ kind, DataDerives [.leftAngle, kind, .rightAngle] (some data) ∧
      Writes data.render.toList [kind] := by
  cases data with
  | hole h => exact ⟨.hole h, .hole h, Scanner.writes_hole h⟩
  | text value => exact ⟨.text value, .text value, Scanner.writes_text value⟩

theorem exists_writes_data (data : Option Data) :
    ∃ ks, DataDerives ks data ∧ Writes (renderData data).toList ks ∧
      Apart (renderData data).toList := by
  cases data with
  | none => exact ⟨[], .absent, Scanner.writes_nil, Scanner.apart_nil⟩
  | some data =>
      obtain ⟨kind, hderives, hwrites⟩ := data.exists_writes
      have hclose : Writes ['>'] [.rightAngle] := Scanner.writes_nil.symbol rfl
      have hopen : Writes ('<' :: _) [.leftAngle, kind, .rightAngle] :=
        (hwrites.append hclose (Scanner.apart_cons rfl _)).symbol rfl
      have hrender : (renderData (some data)).toList = '<' :: (data.render.toList ++ ['>']) := by
        simp [renderData]
      rw [hrender]
      exact ⟨_, hderives, hopen, Scanner.apart_cons rfl _⟩

theorem toList_renderMore (ds : List Descriptor) :
    (renderMore ds).toList = ds.flatMap fun d => ", ".toList ++ d.render.toList := by
  induction ds with
  | nil => simp [renderMore]
  | cons d ds ih => simp [renderMore, ih]

/-- The grammar derives the descriptor from the kinds that it is written with. -/
def WrittenOut (d : Descriptor) : Prop := ∃ ks, Derives ks d ∧ Writes d.render.toList ks

theorem exists_writes_parameters {ds : List Descriptor} (h : ∀ d ∈ ds, d.WrittenOut) :
    ∃ ks, ParametersDerive ks ds ∧ Writes (renderParameters ds).toList ks ∧
      Apart (renderParameters ds).toList := by
  cases ds with
  | nil => exact ⟨[], .absent, by simpa [renderParameters] using Scanner.writes_nil, by
      simpa [renderParameters] using Scanner.apart_nil⟩
  | cons d ds =>
      obtain ⟨ks, hderives, hwrites⟩ := exists_writes_list Derives SomeDerive .last .more d ds h
      have hclose : Writes [')'] [.rightParen] := Scanner.writes_nil.symbol rfl
      have hopen : Writes ('(' :: _) (.leftParen :: (ks ++ [.rightParen])) :=
        (hwrites.append hclose (Scanner.apart_cons rfl _)).symbol rfl
      have hrender : (renderParameters (d :: ds)).toList =
          '(' :: (d.render.toList ++ (ds.flatMap fun d => ", ".toList ++ d.render.toList) ++
            [')']) := by
        simp [renderParameters, toList_renderMore]
      rw [hrender]
      exact ⟨_, .list hderives, hopen, Scanner.apart_cons rfl _⟩

theorem Named.writtenOut {d : Descriptor} (h : d.Named) : d.WrittenOut := by
  induction h with
  | @mk tag typeName parameters data m htag htype _ ih =>
      obtain ⟨head, hhead, hwhead⟩ := exists_writes_head htag htype
      obtain ⟨inner, hinner, hwinner, hainner⟩ := exists_writes_parameters ih
      obtain ⟨value, hvalue, hwvalue, havalue⟩ := exists_writes_data data
      refine ⟨_, .mk hhead hinner hvalue m.derives_kinds, ?_⟩
      -- All parts behind the head start with a mark or are empty, so no part goes on into the next.
      have htail := hwvalue.append m.writes m.apart
      have hrest := hwinner.append htail (havalue.append m.apart)
      have hall := hwhead.append hrest (hainner.append (havalue.append m.apart))
      simpa [render] using hall

end Descriptor

namespace Child

theorem exists_writes {c : Child} (h : ∀ d, c = .descriptor d → d.Named) :
    ∃ ks, Derives ks c ∧ Writes c.render.toList ks := by
  cases c with
  | empty =>
      have hzero : Writes (toString 0).toList [.number 0] := Scanner.writes_number (by decide)
      exact ⟨_, .empty, by simpa [render] using hzero⟩
  | descriptor d =>
      obtain ⟨ks, hks, hwrites⟩ := (h d rfl).writtenOut
      exact ⟨ks, .descriptor hks, hwrites⟩

def renderList (cs : List Child) : String := ", ".intercalate (cs.map render)

theorem exists_writes_renderList {cs : List Child} (h : ∀ d, .descriptor d ∈ cs → d.Named) :
    ∃ ks, ListDerives ks cs ∧ Writes (renderList cs).toList ks := by
  have hmembers : ∀ c ∈ cs, ∃ ks, Derives ks c ∧ Writes c.render.toList ks := by
    intro c hc
    refine exists_writes ?_
    rintro d rfl
    exact h d hc
  cases cs with
  | nil => exact ⟨[], .nothing, Scanner.writes_nil⟩
  | cons first more =>
      obtain ⟨ks, hks, hwrites⟩ :=
        exists_writes_list Derives SomeDerive .last .more first more hmembers
      refine ⟨ks, .some hks, ?_⟩
      simpa [renderList, String.toList_intercalate, intercalate_cons, List.flatMap_map]
        using hwrites

theorem ListDerives.stop_not_mem {ks : List Token.Kind} {cs : List Child}
    (h : ListDerives ks cs) : .stop ∉ ks := by
  cases h with
  | nothing => simp
  | some h => exact h.stop_not_mem

/-- Children whose tags and types are names are read back from their written form, whatever their
holes and texts are, and however deep their parameters go. -/
theorem ofTokens_renderList (cs : List Child) (h : ∀ d, .descriptor d ∈ cs → d.Named)
    (offset : Nat) :
    ∃ ts, Token.scan (renderList cs) offset = .ok ts ∧ ofTokens ts = .ok cs := by
  obtain ⟨ks, hks, hwrites⟩ := exists_writes_renderList h
  obtain ⟨ts, hts, hkinds⟩ := Scanner.tokens_of_kinds hwrites.kinds_eq offset
  refine ⟨ts, hts, ofTokens_of_listDerives ?_⟩
  rwa [Token.lineKinds_eq hkinds hks.stop_not_mem (by simp)]

/-- Parameters within parameters, with a text that holds the marks of its surroundings. -/
def nestedPair : Descriptor :=
  ⟨some "left", "Pair",
    [⟨some "x9", "Map", [.plain "Key" .one, ⟨none, "List", [.plain "Value" .optional],
      some (.text ">)\"é\\\n"), .list⟩], none, .one⟩],
    some (.hole ⟨4294967295, by decide, by decide⟩), .optional⟩

def nested : List Child := [.descriptor nestedPair, .empty, .descriptor (.plain "name" .list)]

theorem named_nestedPair : nestedPair.Named := by
  refine .mk (by decide) (by decide) (List.forall_mem_singleton.mpr ?map)
  case map =>
    refine .mk (by decide) (by decide) (List.forall_mem_cons.mpr ⟨.plain .one (by decide), ?list⟩)
    case list =>
      refine List.forall_mem_singleton.mpr (.mk (by decide) (by decide) ?_)
      exact List.forall_mem_singleton.mpr (.plain .optional (by decide))

theorem ofTokens_renderList_nested :
    (∀ d, .descriptor d ∈ nested → d.Named) ∧
      renderList nested =
        "left@Pair(x9@Map(Key, List(Value?)<\">)\\\"é\\\\\\n\">*))<#4294967295>?, 0, name*" ∧
      ∃ ts, Token.scan (renderList nested) 0 = .ok ts ∧ ofTokens ts = .ok nested := by
  have hnamed : ∀ d, .descriptor d ∈ nested → d.Named := by
    intro d hd
    rcases (show d = nestedPair ∨ d = .plain "name" .list by simpa [nested] using hd) with rfl | rfl
    · exact named_nestedPair
    · exact .plain .list (by decide)
  exact ⟨hnamed, by rfl, ofTokens_renderList nested hnamed 0⟩

end Child

end NodeRules
