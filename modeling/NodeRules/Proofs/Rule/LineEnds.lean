import NodeRules.Proofs.Rule.Cursor

namespace NodeRules

open Place (Alike SameResult Visited)

namespace NodeRule

theorem readSubtypes_same (rule : String) (seen : List String) {ts ts' : List Token} {p q : Place}
    (h : Alike ts ts' p q) :
    SameResult ts ts' (readSubtypes rule seen p) (readSubtypes rule seen q) := by
  rw [readSubtypes_step, readSubtypes_step, ← h.kind, ← h.span, ← h.mismatch, ← h.forward.kind]
  split
  · rename_i name hname
    rcases requireCapital name p.span with e | _
    · exact .error e
    change SameResult ts ts' (if _ then _ else _) (if _ then _ else _)
    split
    · exact .error _
    split
    · rename_i hbar
      have hfirst := Place.length_forward (p := p) (by simp [hname])
      have hsecond := Place.length_forward (p := p.forward) (by simp [hbar])
      refine (readSubtypes_same rule (name :: seen) h.forward.forward).map ?_
      intro names p' q' h'
      exact .ok _ h'
    · exact .ok _ h.forward
  · exact .error _
termination_by p.unread.length

theorem startsAbstract_congr {ts ts' : List Token} {p q : Place} (h : Alike ts ts' p q) :
    startsAbstract p = startsAbstract q := by
  rw [startsAbstract, startsAbstract, ← h.kind]
  split
  · rename_i name hname
    rw [h.kindAfter (by simp [hname])]
  · rfl

theorem readAbstract_congr (name : String) {ts ts' : List Token} {p q : Place}
    (h : Alike ts ts' p q) : readAbstract name p = readAbstract name q := by
  refine (readSubtypes_same name [] h).bind_eq ?_
  intro names p' q' h'
  dsimp only
  rw [h'.demandEnd]

theorem readOrdinary_congr (name : String) {ts ts' : List Token} {p q : Place}
    (h : Alike ts ts' p q) : readOrdinary name p = readOrdinary name q := by
  refine (Child.readAll_same h).bind_eq ?_
  intro children p' q' h'
  dsimp only
  rw [h'.demandEnd, h'.span]

theorem ofTokens_congr (name : String) (span : Span) {ts ts' : List Token}
    (h : Token.seen ts = Token.seen ts') : ofTokens name span ts = ofTokens name span ts' := by
  have hstart := Place.alike_start h
  simp only [ofTokens, startsAbstract_congr hstart, readAbstract_congr name hstart,
    readOrdinary_congr name hstart]

end NodeRule

namespace LiteralRule

theorem readParts_same (rule : String) (done : List String) {ts ts' : List Token} {p q : Place}
    (h : Alike ts ts' p q) : SameResult ts ts' (readParts rule done p) (readParts rule done q) := by
  cases htext : p.kind.template? with
  | none =>
      by_cases hstop : p.kind = .stop
      · rw [readParts_stop rule done hstop, readParts_stop rule done (h.kind ▸ hstop), h.span]
        exact .error _
      · rw [readParts_mismatch rule done htext hstop,
          readParts_mismatch rule done (h.kind ▸ htext) (h.kind ▸ hstop), h.mismatch]
        exact .error _
  | some text =>
      have hnext := h.forward.kind
      by_cases hcomma : p.forward.kind = .comma
      · have hfirst := Place.length_forward_le p
        have hsecond := Place.length_forward (p := p.forward) (by simp [hcomma])
        rw [readParts_comma rule done htext (if_pos hcomma),
          readParts_comma rule done (h.kind ▸ htext) (if_pos (hnext ▸ hcomma)),
          h.forward.forward.spanBefore]
        split
        · exact .error _
        · exact readParts_same rule _ h.forward.forward
      · rw [readParts_noComma rule done htext (if_neg hcomma),
          readParts_noComma rule done (h.kind ▸ htext) (if_neg (hnext ▸ hcomma))]
        exact .ok _ h.forward
termination_by p.unread.length

theorem ofTokens_congr (name : String) (span : Span) {ts ts' : List Token}
    (h : Token.seen ts = Token.seen ts') : ofTokens name span ts = ofTokens name span ts' := by
  rw [ofTokens, ofTokens]
  refine congrArg (requireCapital name span >>= ·) (funext fun _ => ?_)
  refine (readParts_same name [] (Place.alike_start h)).bind_eq ?_
  intro parts p q h'
  dsimp only
  rw [h'.demandEnd, h'.span]

end LiteralRule

/-- The place lies inside `ts`, and the token in front of it, if it is not at the start, is a token
of `ts`. -/
structure Place.InBounds (ts : List Token) (p : Place) : Prop where
  position_le : p.position ≤ ts.length
  current_eq : p.current = ts.getD p.position ⟨.stop, .nowhere⟩
  spanBefore_eq : 0 < p.position → ∃ t, ts[p.position - 1]? = some t ∧ p.spanBefore = t.span

structure Place.ReadersVisit (rule : String) (ts : List Token) : Prop where
  descriptor : ∀ p step, Visited ts p → Descriptor.read p = .ok step → Visited ts step.rest
  parameters : ∀ p step, Visited ts p → Descriptor.readParameters p = .ok step →
    Visited ts step.rest
  children : ∀ p cs p', Visited ts p → Child.readAll p = .ok (cs, p') → Visited ts p'
  subtypes : ∀ seen p names p', Visited ts p →
    NodeRule.readSubtypes rule seen p = .ok (names, p') → Visited ts p'
  parts : ∀ done p parts p', Visited ts p →
    LiteralRule.readParts rule done p = .ok (parts, p') → Visited ts p'

theorem Place.readersVisit (rule : String) (ts : List Token) : ReadersVisit rule ts where
  descriptor p step hp h := by
    refine (Descriptor.read_same (alike_self hp)).visited (a := step.value) ?_
    rw [h]
    rfl
  parameters p step hp h := by
    refine (Descriptor.readParameters_same (alike_self hp)).visited (a := step.value) ?_
    rw [h]
    rfl
  children _ _ _ hp h := (Child.readAll_same (alike_self hp)).visited h
  subtypes seen _ _ _ hp h := (NodeRule.readSubtypes_same rule seen (alike_self hp)).visited h
  parts done _ _ _ hp h := (LiteralRule.readParts_same rule done (alike_self hp)).visited h

namespace Token

structure ReadAlike (name : String) (span : Span) (ts ts' : List Token) : Prop where
  children : Child.ofTokens ts = Child.ofTokens ts'
  nodeRule : NodeRule.ofTokens name span ts = NodeRule.ofTokens name span ts'
  literalRule : LiteralRule.ofTokens name span ts = LiteralRule.ofTokens name span ts'

theorem readAlike_of_seen (name : String) (span : Span) {ts ts' : List Token}
    (h : seen ts = seen ts') : ReadAlike name span ts ts' :=
  ⟨Child.ofTokens_congr h, NodeRule.ofTokens_congr name span h,
    LiteralRule.ofTokens_congr name span h⟩

/-- Moved through `ts`, an index finds the same children and rules of `name` and the same errors.
It is never larger than the number of tokens, and a token in front of it is always there. -/
structure ReadByIndex (name : String) (span : Span) (ts : List Token) (n : Nat) : Prop where
  children : Cursor.Reads ts (Cursor.childrenOfLine n) (Child.ofTokens ts)
  nodeRule : Cursor.Reads ts (Cursor.nodeRuleOfLine name span n) (NodeRule.ofTokens name span ts)
  literalRule : Cursor.Reads ts (Cursor.literalRuleOfLine name span n)
    (LiteralRule.ofTokens name span ts)

theorem readByIndex (name : String) (span : Span) {ts : List Token} {n : Nat}
    (hn : 2 * ts.length + 1 < n) : ReadByIndex name span ts n where
  children := (Cursor.yields_children hn).reads
  nodeRule := (Cursor.yields_nodeRule name span hn).reads
  literalRule := (Cursor.yields_literalRule name span (by omega)).reads

/-- Reading stops at the first end of the line. A list without one is read as if it had one behind
its last token, and no place behind that token is ever looked at. -/
theorem read_stops_at_line_end (name : String) (span : Span) (ts : List Token) :
    ReadAlike name span ts (upToStop ts) ∧
    ((∀ t ∈ ts, t.kind ≠ .stop) → ReadAlike name span ts (ts ++ [⟨.stop, ⟨0, 0⟩⟩])) ∧
    (∀ p, Visited ts p → p.InBounds ts) ∧ Place.ReadersVisit name ts ∧
    ∀ n, 2 * ts.length + 1 < n → ReadByIndex name span ts n := by
  refine ⟨readAlike_of_seen name span (seen_upToStop ts).symm, ?_, ?_, Place.readersVisit name ts,
    fun n hn => readByIndex name span hn⟩
  · intro hstop
    exact readAlike_of_seen name span (seen_append_stop hstop).symm
  · intro p hp
    exact ⟨hp.position_le, hp.current_eq, hp.spanBefore_eq⟩

/-- The error at the comma behind a fourth part is the same without an end of the line and with
one, and for an index, which is then behind the last token. -/
theorem read_stops_at_line_end_parts :
    let part (i : Nat) : List Token := [⟨.code "x", ⟨i, i + 1⟩⟩, ⟨.comma, ⟨i + 1, i + 2⟩⟩]
    let ts := part 0 ++ part 2 ++ part 4 ++ part 6
    LiteralRule.ofTokens "T" ⟨0, 1⟩ ts = .error ⟨.tooManyParts "T", ⟨7, 8⟩, 1⟩ ∧
    (∀ t ∈ ts, t.kind ≠ .stop) ∧ ReadAlike "T" ⟨0, 1⟩ ts (ts ++ [⟨.stop, ⟨0, 0⟩⟩]) ∧
    ∃ c, (Cursor.literalRuleOfLine "T" ⟨0, 1⟩ 18).on (.start ts) =
      (.error (.rejected ⟨.tooManyParts "T", ⟨7, 8⟩, 1⟩), c) ∧ c.InBounds ts := by
  intro part ts
  have hstop : ∀ t ∈ ts, t.kind ≠ .stop := by decide
  have herror : LiteralRule.ofTokens "T" ⟨0, 1⟩ ts = .error ⟨.tooManyParts "T", ⟨7, 8⟩, 1⟩ := by
    with_unfolding_all rfl
  obtain ⟨-, hend, -, -, hindex⟩ := read_stops_at_line_end "T" ⟨0, 1⟩ ts
  obtain ⟨c, hrun, hc⟩ := (hindex 18 (by decide)).literalRule
  rw [herror] at hrun
  exact ⟨herror, hstop, hend hstop, c, hrun, hc⟩

end Token

end NodeRules
