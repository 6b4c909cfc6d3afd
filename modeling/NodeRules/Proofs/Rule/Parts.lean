import Mathlib.Tactic.IntervalCases
import NodeRules.Proofs.Rule.Outcome
import NodeRules.Proofs.Rule.Written

namespace NodeRules

def Token.Says (t : Token) (text : String) : Prop := t.kind = .code text ∨ t.kind = .text text

theorem Token.template?_eq_some_iff {t : Token} {text : String} :
    t.kind.template? = some text ↔ t.Says text := by
  rw [Token.Says]
  cases t.kind <;> simp [Token.Kind.template?]

theorem Token.Says.ne_stop {t : Token} {text : String} (h : t.Says text) : t.kind ≠ .stop := by
  rcases h with h | h <;> simp [h]

namespace LiteralRule

def Part.table : List Part := [.nativeType, .serializer, .parser, .exception]

theorem Part.table_eq {index : Nat} (h : index ≤ 3) : table[index]? = some (ofIndex index) := by
  interval_cases index <;> rfl

/-- Parts with a comma behind each. -/
inductive Terminated : List Token → List String → Prop
  | nil : Terminated [] []
  | cons {t comma : Token} {ts : List Token} {text : String} {parts : List String}
      (ht : t.Says text) (hcomma : comma.kind = .comma) (h : Terminated ts parts) :
      Terminated (t :: comma :: ts) (text :: parts)

inductive Separated : List Token → List String → Prop
  | last {t : Token} {text : String} (ht : t.Says text) : Separated [t] [text]
  | more {t comma : Token} {ts : List Token} {text : String} {parts : List String}
      (ht : t.Says text) (hcomma : comma.kind = .comma) (h : Separated ts parts) :
      Separated (t :: comma :: ts) (text :: parts)

theorem Separated.exists_last {ts : List Token} {parts : List String} (h : Separated ts parts) :
    ∃ front t init text, Terminated front init ∧ t.Says text ∧ ts = front ++ [t] ∧
      parts = init ++ [text] := by
  induction h with
  | last ht => exact ⟨[], _, [], _, .nil, ht, rfl, rfl⟩
  | more ht hcomma _ ih =>
      obtain ⟨front, t, init, text, hfront, ht', rfl, rfl⟩ := ih
      exact ⟨_, t, _, text, .cons ht hcomma hfront, ht', rfl, rfl⟩

section Run

variable {parts : List String} {front rest : List Token} {t : Token} {text : String}

theorem forward_cons (before : List Token) (ht : t.Says text) :
    (Place.mk before (t :: rest)).forward = ⟨t :: before, rest⟩ := by
  simp [Place.forward, ht.ne_stop]

theorem template?_cons (before rest : List Token) (ht : t.Says text) :
    (Place.mk before (t :: rest)).kind.template? = some text :=
  Token.template?_eq_some_iff.mpr ht

theorem take?_comma {comma : Token} (hcomma : comma.kind = .comma) (before : List Token) :
    (Place.mk before (comma :: rest)).take? .comma = some ⟨comma :: before, rest⟩ := by
  rw [← hcomma]
  exact Place.take?_cons (by simp [hcomma])

theorem readParts_terminated (rule : String) (done : List String) (h : Terminated front parts)
    (hlen : done.length + parts.length ≤ 3) (before rest : List Token) :
    readParts rule done ⟨before, front ++ rest⟩ =
      readParts rule (done ++ parts) ⟨front.reverse ++ before, rest⟩ := by
  induction h generalizing done before with
  | nil => rw [List.append_nil]; rfl
  | @cons t comma ts text parts ht hcomma _ ih =>
      rw [List.length_cons] at hlen
      have htake : (Place.mk before (t :: comma :: (ts ++ rest))).forward.take? .comma =
          some ⟨comma :: t :: before, ts ++ rest⟩ := by
        rw [forward_cons before ht, take?_comma hcomma]
      have hfour : (done ++ [text]).length ≠ 4 := by simp; omega
      rw [List.cons_append, List.cons_append,
        readParts_comma rule done (template?_cons before _ ht) htake, if_neg hfour,
        ih _ (by simp; omega)]
      simp

end Run

/-- How tokens go on behind parts with commas, `n` at most. -/
inductive Ends (n : Nat) (line : List Token) : Prop
  | terminated {parts : List String} (h : Terminated line parts) (hlen : parts.length ≤ n)
  | notPart {front rest : List Token} {t : Token} {parts : List String}
      (h : Terminated front parts) (hlen : parts.length ≤ n) (ht : t.kind.template? = none)
      (hline : line = front ++ t :: rest)
  | separated {parts : List String} (h : Separated line parts) (hlen : parts.length ≤ n + 1)
  | notComma {front rest : List Token} {t : Token} {parts : List String}
      (h : Separated front parts) (hlen : parts.length ≤ n + 1) (ht : t.kind ≠ .comma)
      (hline : line = front ++ t :: rest)
  | comma {front rest : List Token} {comma : Token} {parts : List String}
      (h : Separated front parts) (hlen : parts.length = n + 1) (hcomma : comma.kind = .comma)
      (hline : line = front ++ comma :: rest)

theorem Ends.cons {n : Nat} {line : List Token} (h : Ends n line) {t comma : Token} {text : String}
    (ht : t.Says text) (hcomma : comma.kind = .comma) : Ends (n + 1) (t :: comma :: line) := by
  cases h with
  | terminated h hlen => exact .terminated (.cons ht hcomma h) (by simpa using hlen)
  | notPart h hlen ht' hline =>
      exact .notPart (.cons ht hcomma h) (by simpa using hlen) ht' (by rw [hline]; rfl)
  | separated h hlen => exact .separated (.more ht hcomma h) (by simpa using hlen)
  | notComma h hlen ht' hline =>
      exact .notComma (.more ht hcomma h) (by simpa using hlen) ht' (by rw [hline]; rfl)
  | comma h hlen hcomma' hline =>
      exact .comma (.more ht hcomma h) (by simpa using hlen) hcomma' (by rw [hline]; rfl)

theorem ends_or_comma (n : Nat) (line : List Token) : Ends n line ∨
    ∃ t text comma rest, t.Says text ∧ comma.kind = .comma ∧ line = t :: comma :: rest := by
  cases line with
  | nil => exact .inl (.terminated .nil (Nat.zero_le n))
  | cons t rest =>
      cases hkind : t.kind.template? with
      | none => exact .inl (.notPart .nil (Nat.zero_le n) hkind rfl)
      | some text =>
          have ht := Token.template?_eq_some_iff.mp hkind
          cases rest with
          | nil => exact .inl (.separated (.last ht) (by simp))
          | cons next rest =>
              by_cases hcomma : next.kind = .comma
              · exact .inr ⟨t, text, next, rest, ht, hcomma, rfl⟩
              · exact .inl (.notComma (.last ht) (by simp) hcomma rfl)

theorem ends (n : Nat) (line : List Token) : Ends n line := by
  induction n generalizing line with
  | zero =>
      obtain h | ⟨t, text, comma, rest, ht, hcomma, rfl⟩ := ends_or_comma 0 line
      · exact h
      · exact .comma (.last ht) rfl hcomma rfl
  | succ n ih =>
      obtain h | ⟨t, text, comma, rest, ht, hcomma, rfl⟩ := ends_or_comma (n + 1) line
      · exact h
      · exact (ih rest).cons ht hcomma

section Outcomes

variable {name : String} {ts : List Token} {parts : List String}

def ofParts (name : String) (stop : Span) : List String → Except ReadError LiteralRule
  | nativeType :: serializer :: parser :: more =>
    .ok ⟨name, nativeType, serializer, parser, more.head?⟩
  | parts => .error ⟨.missingPart name (.ofIndex parts.length), stop, 1⟩

theorem ofTokens_eq (hname : StartsCapital name) (span : Span) :
    ofTokens name span ts = readParts name [] (.ofTokens ts) >>= fun (parts, p) =>
      p.demandEnd >>= fun _ => ofParts name p.span parts := by
  have hcapital : requireCapital name span = .ok () := by
    rw [requireCapital, if_pos (startsCapital_iff.mpr hname)]
  rw [ofTokens, hcapital]
  rfl

theorem readParts_line (name : String) {front rest : List Token} (h : Terminated front parts)
    (hlen : parts.length ≤ 3) (hline : Token.line ts = front ++ rest) :
    readParts name [] (.ofTokens ts) =
      readParts name parts ⟨front.reverse, rest ++ (Place.lineEnd ts).unread⟩ := by
  have hrun := readParts_terminated name [] h (by simpa using hlen) []
    (rest ++ (Place.lineEnd ts).unread)
  rwa [← List.append_assoc, ← hline, ← Place.ofTokens_eq, List.append_nil, List.nil_append] at hrun

theorem ofTokens_terminated (hname : StartsCapital name) (span : Span)
    (h : Terminated (Token.line ts) parts) (hlen : parts.length ≤ 3) :
    ofTokens name span ts =
      .error ⟨.missingPart name (.ofIndex parts.length), (Place.lineEnd ts).span, 1⟩ := by
  have hread : readParts name [] (.ofTokens ts) = readParts name parts (.lineEnd ts) :=
    readParts_line name h hlen (List.append_nil _).symm
  rw [ofTokens_eq hname, hread, readParts_stop name parts (Place.kind_lineEnd ts)]
  rfl

theorem ofTokens_notPart (hname : StartsCapital name) (span : Span) {front rest : List Token}
    {t : Token} (h : Terminated front parts) (hlen : parts.length ≤ 3)
    (ht : t.kind.template? = none) (hline : Token.line ts = front ++ t :: rest) :
    ofTokens name span ts =
      .error ⟨.unexpectedToken (.part (.ofIndex parts.length) name) t.kind, t.span, 1⟩ := by
  have hmem : t ∈ Token.line ts := by simp [hline]
  have hstop : t.kind ≠ .stop := Token.ne_stop_of_line hmem
  have hpart := readParts_mismatch name parts
    (p := ⟨front.reverse, t :: (rest ++ (Place.lineEnd ts).unread)⟩) ht hstop
  rw [ofTokens_eq hname, readParts_line name h hlen hline, List.cons_append, hpart]
  rfl

theorem ofTokens_separated (hname : StartsCapital name) (span : Span) {front rest : List Token}
    {p : Place} (h : Separated front parts) (hlen : parts.length ≤ 4)
    (hline : Token.line ts = front ++ rest)
    (hp : p = ⟨front.reverse, rest ++ (Place.lineEnd ts).unread⟩) (hcomma : p.kind ≠ .comma) :
    ofTokens name span ts = p.demandEnd >>= fun _ => ofParts name p.span parts := by
  obtain ⟨init, t, texts, text, hinit, ht, rfl, rfl⟩ := h.exists_last
  rw [List.append_assoc] at hline
  rw [List.length_append, List.length_singleton] at hlen
  rw [List.reverse_append] at hp
  have hforward : (Place.mk init.reverse (t :: (rest ++ (Place.lineEnd ts).unread))).forward = p :=
    (forward_cons _ ht).trans hp.symm
  have htake : p.take? .comma = none := if_neg hcomma
  have hlast := readParts_noComma name texts
    (template?_cons init.reverse (rest ++ (Place.lineEnd ts).unread) ht)
    (by rw [hforward, htake])
  rw [ofTokens_eq hname, readParts_line name hinit (by omega) hline, List.singleton_append,
    List.cons_append, hlast, hforward]
  rfl

theorem ofTokens_notComma (hname : StartsCapital name) (span : Span) {front rest : List Token}
    {t : Token} (h : Separated front parts) (hlen : parts.length ≤ 4) (ht : t.kind ≠ .comma)
    (hline : Token.line ts = front ++ t :: rest) :
    ofTokens name span ts = .error ⟨.unexpectedToken .endOfList t.kind, t.span, 1⟩ := by
  have hmem : t ∈ Token.line ts := by simp [hline]
  have hstop : t.kind ≠ .stop := Token.ne_stop_of_line hmem
  have hend : (Place.mk front.reverse (t :: rest ++ (Place.lineEnd ts).unread)).demandEnd =
      .error ⟨.unexpectedToken .endOfList t.kind, t.span, 1⟩ := if_neg hstop
  rw [ofTokens_separated hname span h hlen hline rfl ht, hend]
  rfl

theorem ofTokens_comma (hname : StartsCapital name) (span : Span) {front rest : List Token}
    {comma : Token} (h : Separated front parts) (hlen : parts.length = 4)
    (hcomma : comma.kind = .comma) (hline : Token.line ts = front ++ comma :: rest) :
    ofTokens name span ts = .error ⟨.tooManyParts name, comma.span, 1⟩ := by
  obtain ⟨init, t, texts, text, hinit, ht, rfl, rfl⟩ := h.exists_last
  rw [List.append_assoc] at hline
  have hthree : texts.length ≤ 3 := by simp at hlen; omega
  have hmore := readParts_comma name texts
    (template?_cons init.reverse (comma :: (rest ++ (Place.lineEnd ts).unread)) ht)
    (by rw [forward_cons _ ht, take?_comma hcomma])
  rw [if_pos hlen] at hmore
  rw [ofTokens_eq hname, readParts_line name hinit hthree hline, List.singleton_append,
    List.cons_append, List.cons_append, hmore]
  rfl

end Outcomes

def Takes (line : List Token) (parts : List String) : Prop :=
  Separated line parts ∧ (parts.length = 3 ∨ parts.length = 4)

/-- The tokens stop in front of the part of an index, or of the comma that it needs. -/
inductive Lacks (line : List Token) : Nat → Prop
  | part {parts : List String} (h : Terminated line parts) (hlen : parts.length ≤ 3) :
      Lacks line parts.length
  | comma {parts : List String} (h : Separated line parts) (hlen : parts.length ≤ 2) :
      Lacks line parts.length

def GoesOn (line : List Token) (comma : Token) : Prop :=
  ∃ front parts rest, line = front ++ comma :: rest ∧ Separated front parts ∧
    parts.length = 4 ∧ comma.kind = .comma

/-- A token that does not go with the parts in front of it, and what should stand there. -/
inductive Unfit (name : String) (line : List Token) : ReadError.Expected → Token → Prop
  | part {front rest : List Token} {t : Token} {parts : List String} {part : Part}
      (h : Terminated front parts) (hpart : Part.table[parts.length]? = some part)
      (ht : ∀ text, ¬ t.Says text) (hline : line = front ++ t :: rest) :
      Unfit name line (.part part name) t
  | comma {front rest : List Token} {t : Token} {parts : List String}
      (h : Separated front parts) (hlen : parts.length ≤ 4) (ht : t.kind ≠ .comma)
      (hline : line = front ++ t :: rest) : Unfit name line .endOfList t

section Verdict

variable {name : String} {ts : List Token}

theorem ofTokens_alone (hname : StartsCapital name) (span : Span) {parts : List String}
    (h : Separated (Token.line ts) parts) (hlen : parts.length ≤ 4) :
    ofTokens name span ts = ofParts name (Place.lineEnd ts).span parts := by
  have hstop := Place.kind_lineEnd ts
  rw [ofTokens_separated hname span h hlen (List.append_nil _).symm (p := .lineEnd ts) rfl
    (by simp [hstop]), Place.demandEnd, if_pos hstop]
  rfl

theorem ofTokens_of_takes (hname : StartsCapital name) (span : Span) {parts : List String}
    (h : Takes (Token.line ts) parts) : ∃ r, ofTokens name span ts = .ok r ∧ r.name = name ∧
      r.parts = parts ∧ (r.exception = none ↔ r.parts.length = 3) := by
  obtain ⟨hparts, hlen⟩ := h
  rw [ofTokens_alone hname span hparts (by omega)]
  match parts, hlen with
  | [native, serializer, parser], _ =>
      exact ⟨_, rfl, rfl, rfl, by simp [LiteralRule.parts]⟩
  | [native, serializer, parser, exception], _ =>
      exact ⟨_, rfl, rfl, rfl, by simp [LiteralRule.parts]⟩

theorem ofTokens_of_lacks (hname : StartsCapital name) (span : Span) {index : Nat}
    (h : Lacks (Token.line ts) index) : ∃ part, Part.table[index]? = some part ∧
      ofTokens name span ts = .error ⟨.missingPart name part, (Place.lineEnd ts).span, 1⟩ := by
  cases h with
  | part h hlen => exact ⟨_, Part.table_eq hlen, ofTokens_terminated hname span h hlen⟩
  | @comma parts h hlen =>
      refine ⟨_, Part.table_eq (by omega), ?_⟩
      rw [ofTokens_alone hname span h (by omega)]
      match parts, hlen with
      | [], _ => rfl
      | [_], _ => rfl
      | [_, _], _ => rfl

theorem ofTokens_of_goesOn (hname : StartsCapital name) (span : Span) {comma : Token}
    (h : GoesOn (Token.line ts) comma) :
    ofTokens name span ts = .error ⟨.tooManyParts name, comma.span, 1⟩ := by
  obtain ⟨front, parts, rest, hline, hparts, hlen, hcomma⟩ := h
  exact ofTokens_comma hname span hparts hlen hcomma hline

theorem takes_or_fails (hname : StartsCapital name) (span : Span) (ts : List Token) :
    (∃ parts, Takes (Token.line ts) parts) ∨ (∃ index, Lacks (Token.line ts) index) ∨
      (∃ comma, GoesOn (Token.line ts) comma) ∨
      ∃ expected t, Unfit name (Token.line ts) expected t ∧
        ofTokens name span ts = .error ⟨.unexpectedToken expected t.kind, t.span, 1⟩ := by
  cases ends 3 (Token.line ts) with
  | terminated h hlen => exact .inr (.inl ⟨_, .part h hlen⟩)
  | notPart h hlen ht hline =>
      have hsays (text : String) : ¬ Token.Says _ text := fun hsays => by
        rw [Token.template?_eq_some_iff.mpr hsays] at ht
        cases ht
      exact .inr (.inr (.inr ⟨_, _, .part h (Part.table_eq hlen) hsays hline,
        ofTokens_notPart hname span h hlen ht hline⟩))
  | @separated parts h hlen =>
      by_cases hfew : parts.length ≤ 2
      · exact .inr (.inl ⟨_, .comma h hfew⟩)
      · exact .inl ⟨parts, h, by omega⟩
  | notComma h hlen ht hline =>
      exact .inr (.inr (.inr ⟨_, _, .comma h hlen ht hline,
        ofTokens_notComma hname span h hlen ht hline⟩))
  | comma h hlen hcomma hline => exact .inr (.inr (.inl ⟨_, _, _, _, hline, h, hlen, hcomma⟩))

theorem ofTokens_small (hname : ¬ StartsCapital name) (span : Span) (ts : List Token) :
    ofTokens name span ts = .error ⟨.nameNotCapital name, span, 1⟩ := by
  have hcapital : requireCapital name span = .error ⟨.nameNotCapital name, span, 1⟩ := by
    rw [requireCapital, if_neg (mt startsCapital_iff.mp hname)]
  rw [ofTokens, hcapital]
  rfl

end Verdict

/-- A literal rule has three parts or four. A line that stops too early is refused for the first
part that it lacks, a fifth part for the comma in front of it, and every other line for the first
token that does not fit. -/
theorem ofTokens_takes_three_or_four (name : String) (span : Span) (ts : List Token) :
    ((∃ r, ofTokens name span ts = .ok r) ↔
      StartsCapital name ∧ ∃ parts, Takes (Token.line ts) parts) ∧
    (∀ r, ofTokens name span ts = .ok r → r.name = name ∧ Takes (Token.line ts) r.parts ∧
      (r.exception = none ↔ r.parts.length = 3)) ∧
    (¬ StartsCapital name → ofTokens name span ts = .error ⟨.nameNotCapital name, span, 1⟩) ∧
    (StartsCapital name →
      (∀ index, Lacks (Token.line ts) index → ∃ part, Part.table[index]? = some part ∧
        ofTokens name span ts = .error ⟨.missingPart name part, (Place.lineEnd ts).span, 1⟩) ∧
      (∀ comma, GoesOn (Token.line ts) comma →
        ofTokens name span ts = .error ⟨.tooManyParts name, comma.span, 1⟩) ∧
      ((∀ parts, ¬ Takes (Token.line ts) parts) → (∀ index, ¬ Lacks (Token.line ts) index) →
        (∀ comma, ¬ GoesOn (Token.line ts) comma) →
        ∃ expected t, Unfit name (Token.line ts) expected t ∧
          ofTokens name span ts = .error ⟨.unexpectedToken expected t.kind, t.span, 1⟩)) := by
  by_cases hname : StartsCapital name
  · have hcases := takes_or_fails hname span ts
    have htakes : ∀ r, ofTokens name span ts = .ok r → ∃ parts, Takes (Token.line ts) parts := by
      intro r h
      obtain hparts | ⟨index, hindex⟩ | ⟨comma, hcomma⟩ | ⟨expected, t, -, herror⟩ := hcases
      · exact hparts
      · obtain ⟨part, -, herror⟩ := ofTokens_of_lacks hname span hindex
        rw [herror] at h
        cases h
      · rw [ofTokens_of_goesOn hname span hcomma] at h
        cases h
      · rw [herror] at h
        cases h
    refine ⟨⟨?_, ?_⟩, ?_, fun h => absurd hname h, fun _ => ⟨?_, ?_, ?_⟩⟩
    · rintro ⟨r, h⟩
      exact ⟨hname, htakes r h⟩
    · rintro ⟨-, parts, hparts⟩
      obtain ⟨r, hread, -⟩ := ofTokens_of_takes hname span hparts
      exact ⟨r, hread⟩
    · intro r h
      obtain ⟨parts, hparts⟩ := htakes r h
      obtain ⟨r', hread, hr, rfl, hexception⟩ := ofTokens_of_takes hname span hparts
      obtain rfl : r = r' := Except.ok.inj (h.symm.trans hread)
      exact ⟨hr, hparts, hexception⟩
    · exact fun index hindex => ofTokens_of_lacks hname span hindex
    · exact fun comma hcomma => ofTokens_of_goesOn hname span hcomma
    · intro hparts hindex hcomma
      obtain ⟨parts, h⟩ | ⟨index, h⟩ | ⟨comma, h⟩ | h := hcases
      · exact absurd h (hparts parts)
      · exact absurd h (hindex index)
      · exact absurd h (hcomma comma)
      · exact h
  · have herror := ofTokens_small hname span ts
    refine ⟨⟨?_, fun h => absurd h.1 hname⟩, ?_, fun _ => herror, fun h => absurd h hname⟩
    · rintro ⟨r, h⟩
      rw [herror] at h
      cases h
    · intro r h
      rw [herror] at h
      cases h

def fiveCodes : List Token :=
  [⟨.code "a", ⟨0, 3⟩⟩, ⟨.comma, ⟨3, 4⟩⟩, ⟨.code "b", ⟨4, 7⟩⟩, ⟨.comma, ⟨7, 8⟩⟩,
    ⟨.code "c", ⟨8, 11⟩⟩, ⟨.comma, ⟨11, 12⟩⟩, ⟨.code "d", ⟨12, 15⟩⟩, ⟨.comma, ⟨15, 16⟩⟩,
    ⟨.code "e", ⟨16, 19⟩⟩, ⟨.stop, ⟨19, 19⟩⟩]

theorem goesOn_fiveCodes : GoesOn (Token.line fiveCodes) ⟨.comma, ⟨15, 16⟩⟩ :=
  ⟨_, _, _, rfl,
    .more (.inl rfl) rfl (.more (.inl rfl) rfl (.more (.inl rfl) rfl (.last (.inl rfl)))), rfl, rfl⟩

def brokenOff : List Token :=
  [⟨.code "int", ⟨0, 5⟩⟩, ⟨.comma, ⟨5, 6⟩⟩, ⟨.text "#", ⟨6, 9⟩⟩, ⟨.comma, ⟨9, 10⟩⟩,
    ⟨.code "read(#)", ⟨10, 19⟩⟩, ⟨.comma, ⟨19, 20⟩⟩, ⟨.stop, ⟨20, 20⟩⟩]

theorem ofTokens_takes_three_or_four_codes :
    StartsCapital "Money" ∧ GoesOn (Token.line fiveCodes) ⟨.comma, ⟨15, 16⟩⟩ ∧
      ofTokens "Money" ⟨0, 5⟩ fiveCodes = .error ⟨.tooManyParts "Money", ⟨15, 16⟩, 1⟩ ∧
      Lacks (Token.line brokenOff) 3 ∧
      ofTokens "Money" ⟨0, 5⟩ brokenOff =
        .error ⟨.missingPart "Money" .exception, ⟨20, 20⟩, 1⟩ := by
  have hname : StartsCapital "Money" := startsCapital_iff.mp (by decide)
  have hlacks : Lacks (Token.line brokenOff) 3 :=
    .part (.cons (.inl rfl) rfl (.cons (.inr rfl) rfl (.cons (.inl rfl) rfl .nil))) (by simp)
  obtain ⟨-, -, -, hfive⟩ := ofTokens_takes_three_or_four "Money" ⟨0, 5⟩ fiveCodes
  obtain ⟨-, -, -, hbroken⟩ := ofTokens_takes_three_or_four "Money" ⟨0, 5⟩ brokenOff
  obtain ⟨part, hpart, herror⟩ := (hbroken hname).1 3 hlacks
  cases hpart
  exact ⟨hname, goesOn_fiveCodes, (hfive hname).2.1 _ goesOn_fiveCodes, hlacks, herror⟩

/-- A small name comes before all that is wrong with the parts. -/
theorem not_tooManyParts_small :
    ¬ StartsCapital "money" ∧ GoesOn (Token.line fiveCodes) ⟨.comma, ⟨15, 16⟩⟩ ∧
      ofTokens "money" ⟨0, 5⟩ fiveCodes = .error ⟨.nameNotCapital "money", ⟨0, 5⟩, 1⟩ ∧
      ofTokens "money" ⟨0, 5⟩ fiveCodes ≠ .error ⟨.tooManyParts "money", ⟨15, 16⟩, 1⟩ := by
  have hname : ¬ StartsCapital "money" := mt startsCapital_iff.mpr (by decide)
  have herror := ofTokens_small hname ⟨0, 5⟩ fiveCodes
  refine ⟨hname, goesOn_fiveCodes, herror, ?_⟩
  rw [herror]
  simp

end LiteralRule

end NodeRules
