import Mathlib.Algebra.Group.Nat.Defs
import Mathlib.Data.Option.Basic
import NodeRules.Proofs.First
import NodeRules.Proofs.Results
import NodeRules.Proofs.Token.Kinds
import NodeRules.Template

namespace NodeRules.Template

/-- A hole with all its digits, and the text behind it up to the next hole. -/
structure Segment where
  digits : List Char
  rest : List Char
  digits_isDigit : ∀ c ∈ digits, c.isDigit = true
  rest_notDigit : ∀ c ∈ rest.head?, c.isDigit = false
  rest_bare : '#' ∉ rest

structure Cut where
  lead : List Char
  lead_bare : '#' ∉ lead
  segments : List Segment

namespace Segment

def text (s : Segment) : List Char := '#' :: (s.digits ++ s.rest)

def number (s : Segment) : Nat := if s.digits = [] then 1 else Nat.ofDigitChars 10 s.digits 0

def InRange (s : Segment) (values : List String) : Prop :=
  1 ≤ s.number ∧ s.number ≤ values.length

instance (s : Segment) (values : List String) : Decidable (s.InRange values) :=
  inferInstanceAs (Decidable (1 ≤ s.number ∧ s.number ≤ values.length))

def filled (values : List String) (s : Segment) : List Char :=
  (values.getD (s.number - 1) "").toList ++ s.rest

def ofChars (cs : List Char) (hbare : '#' ∉ cs) : Segment where
  digits := cs.takeWhile Char.isDigit
  rest := cs.dropWhile Char.isDigit
  digits_isDigit := List.all_eq_true.mp List.all_takeWhile
  rest_notDigit := by
    intro c hc
    have hnot := List.head?_dropWhile_not Char.isDigit cs
    rw [Option.mem_def.mp hc] at hnot
    simpa using hnot
  rest_bare := fun hmem => hbare ((List.dropWhile_sublist _).mem hmem)

end Segment

namespace Cut

def text (cut : Cut) : List Char := cut.lead ++ cut.segments.flatMap Segment.text

def filled (values : List String) (cut : Cut) : List Char :=
  cut.lead ++ cut.segments.flatMap (Segment.filled values)

def ofChars : List Char → Cut
  | [] => ⟨[], List.not_mem_nil, []⟩
  | c :: cs =>
    let cut := ofChars cs
    if h : c = '#' then
      ⟨[], List.not_mem_nil, Segment.ofChars cut.lead cut.lead_bare :: cut.segments⟩
    else ⟨c :: cut.lead, by simp [Ne.symm h, cut.lead_bare], cut.segments⟩

theorem text_ofChars (cs : List Char) : (ofChars cs).text = cs := by
  induction cs with
  | nil => rfl
  | cons c cs ih =>
      rw [ofChars]
      split
      · rename_i hc
        rw [hc]
        simpa [text, Segment.text, Segment.ofChars] using ih
      · simpa [text] using ih

theorem ofChars_hash (cs : List Char) : ofChars ('#' :: cs) =
    ⟨[], List.not_mem_nil,
      Segment.ofChars (ofChars cs).lead (ofChars cs).lead_bare :: (ofChars cs).segments⟩ := by
  rw [ofChars, dif_pos rfl]

theorem ofChars_append {front : List Char} (hfront : '#' ∉ front) (cs : List Char) :
    (ofChars (front ++ cs)).lead = front ++ (ofChars cs).lead ∧
      (ofChars (front ++ cs)).segments = (ofChars cs).segments := by
  induction front with
  | nil => exact ⟨rfl, rfl⟩
  | cons c front ih =>
      rw [List.mem_cons, not_or] at hfront
      obtain ⟨hlead, hsegments⟩ := ih hfront.2
      rw [List.cons_append, ofChars, dif_neg (Ne.symm hfront.1)]
      exact ⟨congrArg (c :: ·) hlead, hsegments⟩

theorem ofChars_segments (segments : List Segment) :
    ofChars (segments.flatMap Segment.text) = ⟨[], List.not_mem_nil, segments⟩ := by
  induction segments with
  | nil => rfl
  | cons s segments ih =>
      have hbare : '#' ∉ s.digits ++ s.rest := by
        rw [List.mem_append, not_or]
        refine ⟨fun hmem => ?_, s.rest_bare⟩
        exact absurd (s.digits_isDigit _ hmem) (by decide)
      obtain ⟨hlead, hsegments⟩ := ofChars_append hbare (segments.flatMap Segment.text)
      rw [ih, List.append_nil] at hlead
      have hdigits : Segment.ofChars _ (hlead ▸ hbare) = s := by
        simp only [Segment.ofChars, hlead, Scanner.takeWhile_run s.digits_isDigit s.rest_notDigit,
          Scanner.dropWhile_run s.digits_isDigit s.rest_notDigit]
      rw [List.flatMap_cons, Segment.text, List.cons_append, ofChars_hash, hdigits, hsegments, ih]

/-- A cut can be found again in its text, so a text has one cut only. -/
theorem ofChars_text (cut : Cut) : ofChars cut.text = cut := by
  obtain ⟨hlead, hsegments⟩ := ofChars_append cut.lead_bare (cut.segments.flatMap Segment.text)
  rw [ofChars_segments] at hlead hsegments
  cases cut with
  | mk lead hbare segments =>
      cases h : ofChars (text ⟨lead, hbare, segments⟩) with
      | mk lead' hbare' segments' =>
          simp_all [text]

end Cut

section Fill

variable {values : List String}

theorem holeNumber_digits (s : Segment) : holeNumber s.digits = min s.number (numberLimit - 1) := by
  rw [holeNumber, Segment.number]
  by_cases h : s.digits = []
  · rw [h]
    decide
  · simp [h]

/-- A number that does not fit 32 bits is taken for another one, but there are too few values for
either. -/
theorem value?_of_inRange (hvalues : values.length < numberLimit - 1) {s : Segment}
    (h : s.InRange values) :
    value? values (holeNumber s.digits) = some (values.getD (s.number - 1) "") := by
  obtain ⟨hone, hle⟩ := h
  have hnumber : holeNumber s.digits = s.number := by
    rw [holeNumber_digits]
    omega
  have hlt : s.number - 1 < values.length := by omega
  rw [hnumber, value?, Hole.ofNumber?, dif_pos ⟨hone, by omega⟩, Option.bind_some, Hole.index,
    List.getD_eq_getElem?_getD, List.getElem?_eq_getElem hlt]
  rfl

theorem value?_of_not_inRange (hvalues : values.length < numberLimit - 1) {s : Segment}
    (h : ¬ s.InRange values) : value? values (holeNumber s.digits) = none := by
  rw [holeNumber_digits, value?, Hole.ofNumber?]
  split
  · rename_i hhole
    rw [Segment.InRange] at h
    rw [Option.bind_some, Hole.index, List.getElem?_eq_none_iff]
    dsimp only
    omega
  · rfl

theorem fill_bare {front : List Char} (hfront : '#' ∉ front) (cs : List Char) :
    fill values (front ++ cs) = (front ++ ·) <$> fill values cs := by
  induction front with
  | nil => cases h : fill values cs <;> simp [h]
  | cons c front ih =>
      rw [List.mem_cons, not_or] at hfront
      rw [List.cons_append, fill, if_neg (Ne.symm hfront.1), ih hfront.2]
      cases fill values cs <;> rfl

theorem head?_segments (segments : List Segment) :
    ∀ c ∈ (segments.flatMap Segment.text).head?, c.isDigit = false := by
  cases segments with
  | nil => simp
  | cons s segments => simp [Segment.text]

theorem fill_segment (s : Segment) (segments : List Segment) :
    fill values ((s :: segments).flatMap Segment.text) =
      match value? values (holeNumber s.digits) with
      | none => .error (holeNumber s.digits)
      | some value =>
        (fun text => value.toList ++ (s.rest ++ text)) <$>
          fill values (segments.flatMap Segment.text) := by
  have hrest : ∀ c ∈ (s.rest ++ segments.flatMap Segment.text).head?, c.isDigit = false := by
    intro c hc
    cases hs : s.rest with
    | nil =>
        rw [hs] at hc
        exact head?_segments segments c hc
    | cons d ds =>
        rw [hs] at hc
        exact s.rest_notDigit c (by rw [hs]; exact hc)
  rw [List.flatMap_cons, Segment.text, List.cons_append, List.append_assoc, fill, if_pos rfl,
    Scanner.takeWhile_run s.digits_isDigit hrest, Scanner.dropWhile_run s.digits_isDigit hrest,
    fill_bare s.rest_bare]
  dsimp only
  cases value? values (holeNumber s.digits) with
  | none => rfl
  | some value => cases fill values (segments.flatMap Segment.text) <;> rfl

theorem fill_segments_cases (hvalues : values.length < numberLimit - 1) (segments : List Segment) :
    (∃ s, First (fun _ s => ¬ s.InRange values) segments s ∧
      fill values (segments.flatMap Segment.text) = .error (holeNumber s.digits)) ∨
    ((∀ s ∈ segments, s.InRange values) ∧
      fill values (segments.flatMap Segment.text) =
        .ok (segments.flatMap (Segment.filled values))) := by
  induction segments with
  | nil => exact .inr ⟨by simp, by rw [List.flatMap_nil, fill]; rfl⟩
  | cons s segments ih =>
      by_cases hs : s.InRange values
      · rw [fill_segment, value?_of_inRange hvalues hs]
        obtain ⟨s', hfirst, hfill⟩ | ⟨hall, hfill⟩ := ih
        · exact .inl ⟨s', .cons (not_not_intro hs) hfirst, by rw [hfill]; rfl⟩
        · refine .inr ⟨List.forall_mem_cons.mpr ⟨hs, hall⟩, ?_⟩
          rw [hfill, List.flatMap_cons, Segment.filled, List.append_assoc]
          rfl
      · exact .inl ⟨s, .head hs, by rw [fill_segment, value?_of_not_inRange hvalues hs]⟩

theorem fill_text_cases (hvalues : values.length < numberLimit - 1) (cut : Cut) :
    (∃ s, First (fun _ s => ¬ s.InRange values) cut.segments s ∧
      fill values cut.text = .error (holeNumber s.digits)) ∨
    ((∀ s ∈ cut.segments, s.InRange values) ∧ fill values cut.text = .ok (cut.filled values)) := by
  rw [Cut.text, fill_bare cut.lead_bare]
  obtain ⟨s, hfirst, hfill⟩ | ⟨hall, hfill⟩ := fill_segments_cases hvalues cut.segments
  · exact .inl ⟨s, hfirst, by rw [hfill]; rfl⟩
  · exact .inr ⟨hall, by rw [hfill]; rfl⟩

end Fill

/-- The number of a hole as an error reports it: at most the largest one of 32 bits. -/
def Segment.reported (s : Segment) : Nat := if s.number < 2 ^ 32 then s.number else 2 ^ 32 - 1

theorem holeNumber_eq_reported (s : Segment) : holeNumber s.digits = s.reported := by
  rw [holeNumber_digits, Segment.reported, numberLimit]
  split <;> omega

/-- There is exactly one cut of a template. The template is instantiated exactly when all holes of
the cut are in range, by the cut with each hole replaced, and fails otherwise for the first hole
that is not. -/
theorem instantiate_eq_filled (template : String) (values : List String)
    (hvalues : values.length < 2 ^ 32 - 1) :
    ∃ cut : Cut, (∀ other : Cut, other.text = template.toList ↔ other = cut) ∧
      (∀ text, instantiate template values = .ok text ↔
        (∀ s ∈ cut.segments, s.InRange values) ∧ text = String.ofList (cut.filled values)) ∧
      ∀ failure, instantiate template values = .error failure ↔
        ∃ s, First (fun _ s => ¬ s.InRange values) cut.segments s ∧
          failure = ⟨template, s.reported, values.length⟩ := by
  have htext := Cut.text_ofChars template.toList
  refine ⟨Cut.ofChars template.toList, fun other => ⟨?_, ?_⟩, ?_⟩
  · intro h
    rw [← h, Cut.ofChars_text]
  · rintro rfl
    exact htext
  generalize Cut.ofChars template.toList = cut at htext
  rw [instantiate, ← htext]
  obtain ⟨s, hfirst, hfill⟩ | ⟨hall, hfill⟩ := fill_text_cases hvalues cut
  · rw [hfill]
    refine ⟨fun text => ⟨?_, ?_⟩, fun failure => ⟨?_, ?_⟩⟩
    · intro h
      cases h
    · rintro ⟨hall, -⟩
      exact absurd (hall s hfirst.holds.1) hfirst.holds.2
    · intro h
      exact ⟨s, hfirst, by rw [← holeNumber_eq_reported]; exact (Except.error.inj h).symm⟩
    · rintro ⟨s', hfirst', rfl⟩
      rw [holeNumber_eq_reported, hfirst.unique hfirst']
  · rw [hfill]
    refine ⟨fun text => ⟨?_, ?_⟩, fun failure => ⟨?_, ?_⟩⟩
    · intro h
      exact ⟨hall, (Except.ok.inj h).symm⟩
    · rintro ⟨-, rfl⟩
      rfl
    · intro h
      cases h
    · rintro ⟨s, hfirst, -⟩
      exact absurd (hall s hfirst.holds.1) hfirst.holds.2

/-- Values that look like holes, a number with a zero in front, and one that is too large. -/
theorem instantiate_eq_filled_motley :
    instantiate "#2(#)#01##" ["#9", "é"] = .ok "é(#9)#9#9#9" ∧
      instantiate "#1#4294967298#0" ["#9", "é"] =
        .error ⟨"#1#4294967298#0", 4294967295, 2⟩ := by
  constructor
  · obtain ⟨cut, hcut, hok, -⟩ := instantiate_eq_filled "#2(#)#01##" ["#9", "é"] (by decide)
    obtain rfl := (hcut _).mp (Cut.text_ofChars _)
    exact (hok _).mpr ⟨by decide, by decide⟩
  · obtain ⟨cut, hcut, -, herror⟩ := instantiate_eq_filled "#1#4294967298#0" ["#9", "é"] (by decide)
    obtain rfl := (hcut _).mp (Cut.text_ofChars _)
    refine (herror _).mpr ⟨_, .cons ?_ (.head ?_), ?_⟩
    · decide
    · decide
    · decide

end NodeRules.Template
