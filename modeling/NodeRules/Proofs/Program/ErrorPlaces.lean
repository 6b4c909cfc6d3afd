import Mathlib.Data.List.Basic
import NodeRules.Proofs.Rule.Faults
import NodeRules.Proofs.Token.Pieces

namespace NodeRules

theorem eq_of_splitArrow? {cs left right : List Char} (h : splitArrow? cs = some (left, right)) :
    cs = left ++ '<' :: '-' :: right := by
  fun_induction splitArrow? cs generalizing left right with
  | case1 => cases h
  | case2 cs =>
      cases h
      rfl
  | case3 c cs _ ih =>
      obtain ⟨⟨l, r⟩, hr, he⟩ := Option.map_eq_some_iff.mp h
      cases he
      rw [ih hr]
      rfl

section Sides

variable {line left right : List Char} (h : splitArrow? line = some (left, right))

include h

theorem Scanner.standsIn_left : (Scanner.mk 0 left).StandsIn line :=
  ⟨[], '<' :: '-' :: right, eq_of_splitArrow? h, rfl⟩

theorem Scanner.standsIn_right :
    (Scanner.mk (Text.byteLength left + 2) right).StandsIn line := by
  refine ⟨left ++ ['<', '-'], [], by simp [eq_of_splitArrow? h], ?_⟩
  rw [Text.byteLength_append]
  rfl

end Sides

namespace Rule

/-- The line is `name <- ts`, with the name at `span`. -/
def HasSides (line : List Char) (name : String) (span : Span) (ts : List Token) : Prop :=
  ∃ left right front, splitArrow? line = some (left, right) ∧
    (Scanner.mk 0 left).tokens = .ok front ∧ readName front = .ok (name, span) ∧
    (Scanner.mk (Text.byteLength left + 2) right).tokens = .ok ts

/-- The ways in which a line is no rule. -/
inductive Fails (line : List Char) : ReadError → Prop
  | arrow (h : splitArrow? line = none) :
      Fails line ⟨.missingArrow, .ofBytes 0 (Text.byteLength line), 1⟩
  | scan {s : Scanner} {e : ScanError} (hs : s.StandsIn line) (h : s.tokens = .error e) :
      Fails line (.ofScan e)
  | typeName {s : Scanner} {ts : List Token} {e : ReadError} (hs : s.StandsIn line)
      (hts : s.tokens = .ok ts) (h : readName ts = .error e) : Fails line e
  | rule {name : String} {span : Span} {ts : List Token} {e : ReadError}
      (hsides : HasSides line name span ts) (h : Refused name span ts e) : Fails line e

theorem HasSides.ofLine_eq {line : List Char} {name : String} {span : Span} {ts : List Token}
    (h : HasSides line name span ts) : ofLine line = ofTokens name span ts := by
  obtain ⟨left, right, front, hsplit, hfront, hname, hts⟩ := h
  rw [ofLine, hsplit]
  simp only [hfront, hname, hts, Except.mapError, bind, Except.bind]

theorem fails_of_ofLine {line : List Char} {e : ReadError} (h : ofLine line = .error e) :
    Fails line e := by
  rw [ofLine] at h
  split at h
  · rename_i hsplit
    cases h
    exact .arrow hsplit
  rename_i left right hsplit
  rcases bind_error h with hleft | ⟨front, hleft, h⟩
  · obtain ⟨e', he', rfl⟩ := mapError_error hleft
    exact .scan (Scanner.standsIn_left hsplit) he'
  have hfront := mapError_ok hleft
  rcases bind_error h with hname | ⟨⟨name, span⟩, hname, h⟩
  · exact .typeName (Scanner.standsIn_left hsplit) hfront hname
  rcases bind_error h with hright | ⟨ts, hright, h⟩
  · obtain ⟨e', he', rfl⟩ := mapError_error hright
    exact .scan (Scanner.standsIn_right hsplit) he'
  · exact .rule ⟨left, right, front, hsplit, hfront, hname, mapError_ok hright⟩ (refused h)

theorem readName_hasSpan {ts : List Token} {name : String} {span : Span}
    (h : readName ts = .ok (name, span)) : Token.HasSpan ts span := by
  unfold readName at h
  split at h
  · cases h
    exact .inr ⟨_, List.mem_cons_self, rfl⟩
  · cases h
  · cases h

theorem readName_fails {ts : List Token} {e : ReadError} (h : readName ts = .error e) :
    (∃ found, e.cause = .noTypeName found) ∧ Token.HasSpan ts e.span := by
  unfold readName at h
  split at h
  · cases h
  · cases h
    exact ⟨⟨_, rfl⟩, .inr ⟨_, List.mem_cons_self, rfl⟩⟩
  · cases h
    exact ⟨⟨_, rfl⟩, .inl rfl⟩

end Rule

theorem NodeRule.Offends.ne_scan {rule : String} {count : Nat} {c : Child} {cause : ReadError.Cause}
    (h : NodeRule.Offends rule count c cause) (e : ScanError) : cause ≠ .scan e := by
  cases h <;> simp

inductive ReadError.Cause.OfChild : ReadError.Cause → Prop
  | listNotAlone (rule : String) : OfChild (.listNotAlone rule)
  | emptyNotAlone (rule : String) : OfChild (.emptyNotAlone rule)
  | decorated (d : Descriptor) : OfChild (.decorated d)

theorem ReadError.Cause.OfToken.not_ofChild {cause : ReadError.Cause} (h : cause.OfToken) :
    ¬ cause.OfChild := by
  intro hchild
  cases hchild <;> cases h

def Child.ReadFrom (text : String) (c : Child) : Prop :=
  ∃ ts, Token.scan text 0 = .ok ts ∧ Child.ofTokens ts = .ok [c]

section Within

variable {line : String} (hfits : Text.byteLength line.toList ≤ maxOffset)

include hfits

theorem Span.within_whole : (Span.ofBytes 0 (Text.byteLength line.toList)).Within line := by
  have hmarks : (Span.ofBytes 0 (Text.byteLength line.toList)).Marks line.toList line.toList := by
    refine ⟨[], [], by simp, ?_⟩
    rw [Span.ofBytes_eq (Nat.zero_le _) hfits, Text.byteLength, Nat.zero_add]
  exact hmarks.within

theorem Token.HasSpan.within {s : Scanner} (hs : s.StandsIn line.toList) {ts : List Token}
    (hts : s.tokens = .ok ts) {span : Span} (h : Token.HasSpan ts span) : span.Within line := by
  rcases h with rfl | ⟨t, ht, rfl⟩
  · exact Span.within_nowhere line
  · obtain ⟨inside, hmarks⟩ := Scanner.exists_marks_of_tokens hs hfits hts t ht
    exact hmarks.within

theorem Child.ListPlaced.exists_text {s : Scanner} (hs : s.StandsIn line.toList) {ts : List Token}
    (hts : s.tokens = .ok ts) {placed : List Child.Placed}
    (h : Child.ListPlaced (Token.line ts) placed) {c : Child.Placed} (hc : c ∈ placed) :
    c.span.Within line ∧ Child.ReadFrom (c.span.slice line) c.child := by
  generalize hline : Token.line ts = tokens at h
  cases h with
  | nothing => cases hc
  | some h =>
      obtain ⟨front, mid, back, rfl, hmid, hspan⟩ := h.exists_tokens c hc
      have hne : mid ≠ [] := mt List.map_eq_nil_iff.mpr hmid.ne_nil
      obtain ⟨inside, hmarks, hkinds⟩ := Scanner.exists_piece_of_tokens hs hfits hts hline hne
      rw [← hspan] at hmarks
      refine ⟨hmarks.within, ?_⟩
      obtain ⟨us, hus, hkinds'⟩ := Scanner.tokens_of_kinds hkinds 0
      refine ⟨us, ?_, ?_⟩
      · rw [hmarks.slice_eq, Token.scan, Scanner.ofString, String.toList_ofList, hus]
      · apply Child.ofTokens_of_listDerives
        rw [Token.lineKinds_eq hkinds' (hmid.outer_not_mem (.inl rfl)) (by simp)]
        exact .some (.last hmid)

theorem NodeRule.Refuses.within {s : Scanner} (hs : s.StandsIn line.toList) {ts : List Token}
    (hts : s.tokens = .ok ts) {placed : List Child.Placed} {rule : String}
    (hplaced : Child.ListPlaced (Token.line ts) placed) {e : ReadError}
    (h : NodeRule.Refuses rule (Place.lineEnd ts).span placed e) : e.span.Within line := by
  by_cases hne : placed = []
  · subst hne
    cases h with
    | nothing => exact (Token.hasSpan_lineEnd ts).within hfits hs hts
    | list hmany => simp at hmany
    | child _ hfirst => cases hfirst.holds.1
  · obtain ⟨c, hc, hspan, -⟩ := h.exists_blamed hne
    rw [hspan]
    exact (hplaced.exists_text hfits hs hts hc).1

theorem Rule.Fails.within {e : ReadError} (h : Rule.Fails line.toList e) : e.span.Within line := by
  cases h with
  | arrow => exact Span.within_whole hfits
  | scan hs h =>
      obtain ⟨inside, hmarks, -⟩ := Scanner.exists_marks_of_error hs hfits h
      exact hmarks.within
  | typeName hs hts h => exact (Rule.readName_fails h).2.within hfits hs hts
  | rule hsides h =>
      obtain ⟨left, right, front, hsplit, hfront, hname, hts⟩ := hsides
      have hright := Scanner.standsIn_right hsplit
      cases h with
      | name =>
          exact (Rule.readName_hasSpan hname).within hfits (Scanner.standsIn_left hsplit) hfront
      | token h => exact h.span.within hfits hright hts
      | children _ hplaced h => exact h.within hfits hright hts hplaced

theorem Rule.Fails.slice_unknownSymbol {e : ReadError} (h : Rule.Fails line.toList e)
    {symbol : Char} {offset : Nat} {span : Span}
    (hcause : e.cause = .scan ⟨.unknownSymbol symbol offset, span⟩) :
    e.span.slice line = String.singleton symbol ∧ offset = e.span.start := by
  cases h with
  | arrow => cases hcause
  | scan hs h =>
      obtain ⟨inside, hmarks, hsymbol⟩ := Scanner.exists_marks_of_error hs hfits h
      cases hcause
      obtain ⟨rfl, hoffset⟩ := hsymbol symbol offset rfl
      exact ⟨hmarks.slice_eq, hoffset⟩
  | typeName hs hts h =>
      obtain ⟨⟨found, hfound⟩, -⟩ := Rule.readName_fails h
      rw [hfound] at hcause
      cases hcause
  | rule hsides h =>
      cases h with
      | name => cases hcause
      | token h =>
          have hof := h.cause
          rw [hcause] at hof
          cases hof
      | children _ _ h =>
          cases h with
          | nothing => cases hcause
          | list => cases hcause
          | child _ _ hoffends => exact absurd hcause (hoffends.ne_scan _)

end Within

theorem Rule.Fails.exists_children {line : List Char} {e : ReadError} (h : Rule.Fails line e)
    (hcause : e.cause.OfChild) : ∃ rule span ts cs, Rule.HasSides line rule span ts ∧
      StartsCapital rule ∧ Child.ofTokens ts = .ok cs ∧ cs ≠ [] := by
  cases h with
  | arrow => cases hcause
  | scan => cases hcause
  | typeName hs hts h =>
      obtain ⟨⟨found, hfound⟩, -⟩ := Rule.readName_fails h
      rw [hfound] at hcause
      cases hcause
  | @rule rule span ts e hsides h =>
      cases h with
      | name => cases hcause
      | token h => exact absurd hcause h.cause.not_ofChild
      | @children _ placed hname hplaced h =>
          have hderives := hplaced.listDerives
          rw [Token.map_kind_line] at hderives
          refine ⟨rule, span, ts, _, hsides, hname, Child.ofTokens_of_listDerives hderives, ?_⟩
          intro hnil
          obtain rfl := List.map_eq_nil_iff.mp hnil
          cases h with
          | nothing => cases hcause
          | list hmany => simp at hmany
          | child _ hfirst => cases hfirst.holds.1

def IsRuleLine (line rule : String) (ts : List Token) : Prop :=
  LineKind.ofLine line.toList = .rule ∧ ∃ span, Rule.HasSides line.toList rule span ts

namespace ProgramReader

theorem feed_fails {r r' : ProgramReader} {line : String} {e : ReadError}
    (h : r.feed line = (.error e, r')) :
    (LineKind.ofLine line.toList ≠ .rule ∧ (∃ name, e.cause = .invalidLanguage name) ∧
      e.span = .ofBytes 0 (Text.byteLength line.toList)) ∨
    LineKind.ofLine line.toList = .rule ∧ ∃ e', Rule.ofLine line.toList = .error e' ∧
      e.cause = e'.cause ∧ e.span = e'.span := by
  rw [feed] at h
  dsimp only at h
  split at h
  · cases h
  · rename_i hkind
    split at h
    · cases h
    · cases h
      exact .inl ⟨by simp [hkind], ⟨_, rfl⟩, rfl⟩
  · rename_i hkind
    split at h
    · rename_i e' he'
      cases h
      exact .inr ⟨hkind, e', he', rfl, rfl⟩
    · cases h

theorem exists_blamed {line rule : String} (hfits : Text.byteLength line.toList ≤ maxOffset)
    {span : Span} {ts : List Token} (hsides : Rule.HasSides line.toList rule span ts)
    (hname : StartsCapital rule) {cs : List Child} (hcs : Child.ofTokens ts = .ok cs)
    (hne : cs ≠ []) {e : ReadError} (h : Rule.ofLine line.toList = .error e) :
    ∃ c, NodeRule.Blames rule cs e.cause c ∧ Child.ReadFrom (e.span.slice line) c := by
  have hderives := Child.listDerives_of_ofTokens hcs
  obtain ⟨placed, hplaced, rfl⟩ := hderives.exists_placed
  have hlisted := (hplaced placed).mpr rfl
  rw [hsides.ofLine_eq, Rule.ofTokens_children hname span hderives] at h
  have hrefuses := NodeRule.readOrdinary_refuses hlisted (map_error h)
  obtain ⟨c, hc, hplace, hblames⟩ := hrefuses.exists_blamed (mt (congrArg (List.map _)) hne)
  obtain ⟨left, right, front, hsplit, -, -, hts⟩ := hsides
  rw [hplace]
  exact ⟨c.child, hblames, (hlisted.exists_text hfits (Scanner.standsIn_right hsplit) hts hc).2⟩

/-- The error of a line points at text of the line. An unknown symbol is the text at its place, and
a child that may not stand in its list is read from the text at its place. -/
theorem feed_error_points {r r' : ProgramReader} {line : String} {e : ReadError}
    (hline : line.utf8ByteSize < 2 ^ 32) (h : r.feed line = (.error e, r')) :
    e.span.Within line ∧
    (∀ symbol offset span, e.cause = .scan ⟨.unknownSymbol symbol offset, span⟩ →
      e.span.slice line = String.singleton symbol ∧ offset = e.span.start) ∧
    (e.cause.OfChild → ∃ rule ts cs c, IsRuleLine line rule ts ∧ StartsCapital rule ∧
      Child.ofTokens ts = .ok cs ∧ NodeRule.Blames rule cs e.cause c ∧
      Child.ReadFrom (e.span.slice line) c) ∧
    ∀ rule ts cs, IsRuleLine line rule ts → StartsCapital rule → Child.ofTokens ts = .ok cs →
      cs ≠ [] → ∃ c, NodeRule.Blames rule cs e.cause c ∧ Child.ReadFrom (e.span.slice line) c := by
  have hfits : Text.byteLength line.toList ≤ maxOffset := by
    rw [← Text.utf8ByteSize_eq, maxOffset]
    omega
  rcases feed_fails h with ⟨hkind, ⟨name, hcause⟩, hspan⟩ | ⟨hkind, e', herror, hcause, hspan⟩
  · rw [hcause, hspan]
    refine ⟨Span.within_whole hfits, ?_, ?_, fun rule ts cs hrule => absurd hrule.1 hkind⟩
    · intro symbol offset span hscan
      cases hscan
    · intro hchild
      cases hchild
  have hfails := Rule.fails_of_ofLine herror
  rw [hcause, hspan]
  refine ⟨hfails.within hfits, fun symbol offset span => hfails.slice_unknownSymbol hfits, ?_, ?_⟩
  · intro hchild
    obtain ⟨rule, span, ts, cs, hsides, hname, hcs, hne⟩ := hfails.exists_children hchild
    obtain ⟨c, hc⟩ := exists_blamed hfits hsides hname hcs hne herror
    exact ⟨rule, ts, cs, c, ⟨hkind, span, hsides⟩, hname, hcs, hc⟩
  · rintro rule ts cs ⟨-, span, hsides⟩ hname hcs hne
    exact exists_blamed hfits hsides hname hcs hne herror

def accentedLine : String := "Block <- Name<\"é\">, Stmt *"

def accentedTokens : List Token :=
  [⟨.name "Name", ⟨9, 13⟩⟩, ⟨.leftAngle, ⟨13, 14⟩⟩, ⟨.text "é", ⟨14, 18⟩⟩, ⟨.rightAngle, ⟨18, 19⟩⟩,
    ⟨.comma, ⟨19, 20⟩⟩, ⟨.name "Stmt", ⟨21, 25⟩⟩, ⟨.star, ⟨26, 27⟩⟩, ⟨.stop, ⟨27, 27⟩⟩]

def foreignLine : String := "Block <- Name<\"é\">, ß"

/-- The list stands behind a letter of two bytes, the unknown letter too. -/
theorem feed_error_points_accented :
    accentedLine.utf8ByteSize < 2 ^ 32 ∧ foreignLine.utf8ByteSize < 2 ^ 32 ∧
      (∃ e r', (ofProgram .empty).feed accentedLine = (.error e, r') ∧
        e.cause = .listNotAlone "Block" ∧ e.span.Within accentedLine ∧
        Child.ReadFrom (e.span.slice accentedLine) (.descriptor (.plain "Stmt" .list))) ∧
      ∃ e r', (ofProgram .empty).feed foreignLine = (.error e, r') ∧
        e.span = ⟨21, 23⟩ ∧ e.span.slice foreignLine = "ß" := by
  have haccented : accentedLine.utf8ByteSize < 2 ^ 32 := by decide
  have hforeign : foreignLine.utf8ByteSize < 2 ^ 32 := by decide
  have hlist : (ofProgram .empty).feed accentedLine =
      (.error ⟨.listNotAlone "Block", ⟨21, 27⟩, 1⟩, ⟨.empty, "", 1⟩) := by with_unfolding_all rfl
  have hunknown : (ofProgram .empty).feed foreignLine =
      (.error ⟨.scan ⟨.unknownSymbol 'ß' 21, ⟨21, 23⟩⟩, ⟨21, 23⟩, 1⟩, ⟨.empty, "", 1⟩) := by
    with_unfolding_all rfl
  have hkind : LineKind.ofLine accentedLine.toList = .rule := by rfl
  have hsides : Rule.HasSides accentedLine.toList "Block" ⟨0, 5⟩ accentedTokens :=
    ⟨"Block ".toList, " Name<\"é\">, Stmt *".toList,
      [⟨.name "Block", ⟨0, 5⟩⟩, ⟨.stop, ⟨6, 6⟩⟩], by with_unfolding_all rfl,
      by with_unfolding_all rfl, rfl, by with_unfolding_all rfl⟩
  have hcs : Child.ofTokens accentedTokens = .ok
      [.descriptor ⟨none, "Name", [], some (.text "é"), .one⟩,
        .descriptor (.plain "Stmt" .list)] := by
    with_unfolding_all rfl
  obtain ⟨hwithin, -, -, hchild⟩ := feed_error_points haccented hlist
  obtain ⟨-, hsymbol, -, -⟩ := feed_error_points hforeign hunknown
  obtain ⟨c, hblames, hread⟩ := hchild "Block" accentedTokens _ ⟨hkind, _, hsides⟩
    (startsCapital_iff.mp (by decide)) hcs (by simp)
  have hc : c = .descriptor (.plain "Stmt" .list) := by
    cases hblames with
    | list _ hfirst =>
        obtain ⟨hmem, hisList⟩ := hfirst.holds
        rcases List.mem_pair.mp hmem with rfl | rfl
        · cases hisList
        · rfl
    | child _ _ hcause => cases hcause
  subst hc
  exact ⟨haccented, hforeign, ⟨_, _, hlist, rfl, hwithin, hread⟩,
    ⟨_, _, hunknown, rfl, (hsymbol _ _ _ rfl).1⟩⟩

end ProgramReader

end NodeRules
