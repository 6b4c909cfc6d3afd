import Mathlib.Data.List.Basic
import NodeRules.Proofs.Token.Pieces

namespace NodeRules.Scanner

def calls (s : Scanner) : Nat → List (Except ScanError Token)
  | 0 => []
  | n + 1 => s.next.1 :: s.next.2.calls n

theorem Scans.calls_add {s s' : Scanner} {ts : List Token} (h : Scans s ts s') (n : Nat) :
    s.calls (ts.length + n) = ts.map .ok ++ s'.calls n := by
  induction h with
  | done s => rw [List.length_nil, Nat.zero_add, List.map_nil, List.nil_append]
  | @more s s₁ s' t ts hnext _ _ ih =>
      rw [List.length_cons, Nat.add_right_comm, calls, hnext, ih, List.map_cons, List.cons_append]

namespace Stream

/-- The stream yields the items one after the other, and then it answers that there is none. -/
inductive Yields : Stream → List (Except ScanError Token) → Stream → Prop
  | stop {s s' : Stream} (h : s.next = (none, s')) : Yields s [] s'
  | item {s s' s'' : Stream} {x : Except ScanError Token} {xs : List (Except ScanError Token)}
      (h : s.next = (some x, s')) (hrest : Yields s' xs s'') : Yields s (x :: xs) s''

theorem Yields.unique {s s' s'' : Stream} {xs ys : List (Except ScanError Token)}
    (h : Yields s xs s') (h' : Yields s ys s'') : xs = ys ∧ s' = s'' := by
  induction h generalizing ys with
  | stop hnext =>
      cases h' with
      | stop hnext' =>
          rw [hnext] at hnext'
          cases hnext'
          exact ⟨rfl, rfl⟩
      | item hnext' _ =>
          rw [hnext] at hnext'
          cases hnext'
  | item hnext _ ih =>
      cases h' with
      | stop hnext' =>
          rw [hnext] at hnext'
          cases hnext'
      | item hnext' hrest' =>
          rw [hnext] at hnext'
          cases hnext'
          obtain ⟨rfl, rfl⟩ := ih hrest'
          exact ⟨rfl, rfl⟩

section Step

variable {s s' : Scanner}

theorem next_ofScanner_error {e : ScanError} (h : s.next = (.error e, s')) :
    (ofScanner s).next = (some (.error e), ⟨s', true⟩) := by
  simp [ofScanner, next, h]

theorem next_ofScanner_stop {t : Token} (h : s.next = (.ok t, s')) (ht : t.kind = .stop) :
    (ofScanner s).next = (none, ⟨s', true⟩) := by
  simp [ofScanner, next, h, ht]

theorem next_ofScanner_ok {t : Token} (h : s.next = (.ok t, s')) (ht : t.kind ≠ .stop) :
    (ofScanner s).next = (some (.ok t), ofScanner s') := by
  simp [ofScanner, next, h, ht]

end Step

theorem next_finished (s : Scanner) : (Stream.mk s true).next = (none, ⟨s, true⟩) := rfl

theorem Yields.scans {s s' : Scanner} {ts : List Token} {xs : List (Except ScanError Token)}
    {final : Stream} (hscans : Scans s ts s') (h : Yields (ofScanner s') xs final) :
    Yields (ofScanner s) (ts.map .ok ++ xs) final := by
  induction hscans with
  | done s => exact h
  | more hnext ht _ ih => exact .item (next_ofScanner_ok hnext ht) (ih h)

inductive Call
  | item
  | token

def after (s : Stream) : Call → Stream
  | .item => s.next.2
  | .token => { s with scanner := s.scanner.next.2 }

theorem finished_of_next {s : Stream} (h : s.next.1 = none) : s.next.2.finished = true := by
  rw [next] at h ⊢
  split
  · assumption
  rename_i hfinished
  rw [if_neg hfinished] at h
  split at h
  · cases h
  split at h
  · rename_i hstop
    rw [if_pos hstop]
  · cases h

theorem finished_after {s : Stream} (h : s.finished = true) (call : Call) :
    (s.after call).finished = true := by
  cases call with
  | item => rw [after, next, if_pos h, h]
  | token => exact h

/-- A stream that is finished stays so, whichever calls are made. -/
theorem finished_foldl {s : Stream} (h : s.finished = true) (later : List Call) :
    (later.foldl after s).finished = true := by
  induction later generalizing s with
  | nil => exact h
  | cons call later ih => exact ih (finished_after h call)

theorem next_foldl_none {s : Stream} (h : s.next.1 = none) (later : List Call) :
    (later.foldl after s.next.2).next.1 = none := by
  rw [next, if_pos (finished_foldl (finished_of_next h) later)]

end Stream

/-- All at once, item by item or call by call: the way to the end of the line, or to an error. -/
theorem yields_cases (s : Scanner) :
    (∃ ts s', Scans s ts s' ∧ s.tokens = .ok (ts ++ [⟨.stop, .ofBytes s.stopOffset s.stopOffset⟩]) ∧
      s'.next = (endAt s.stopOffset, ⟨s.stopOffset, []⟩) ∧
      Stream.Yields (.ofScanner s) (ts.map .ok) ⟨⟨s.stopOffset, []⟩, true⟩) ∨
    ∃ ts s' e s'', Scans s ts s' ∧ s.tokens = .error e ∧ s'.next = (.error e, s'') ∧
      Stream.Yields (.ofScanner s) (ts.map .ok ++ [.error e]) ⟨s'', true⟩ := by
  rcases s.tokens_cases with ⟨ts, s', hscans, hblank, htokens⟩ |
    ⟨ts, s', e, s'', hscans, hnext, htokens⟩
  · have hnext := next_of_blank hblank
    rw [hscans.stopOffset_eq] at hnext
    have hyields := Stream.Yields.scans hscans (.stop (Stream.next_ofScanner_stop hnext rfl))
    rw [List.append_nil] at hyields
    exact .inl ⟨ts, s', hscans, htokens, hnext, hyields⟩
  · have hitem := Stream.next_ofScanner_error hnext
    exact .inr ⟨ts, s', e, s'', hscans, htokens, hnext,
      .scans hscans (.item hitem (.stop (Stream.next_finished s'')))⟩

theorem exists_bad {s s' : Scanner} {e : ScanError} (h : s.next = (.error e, s')) :
    ∃ blanks bad, s.rest = blanks ++ (bad ++ s'.rest) ∧ bad ≠ [] ∧
      e.span = e.cause.bytes (s.offset + Text.byteLength blanks) s'.offset ∧
      (s'.offset ≤ maxOffset → e.span = ⟨s.offset + Text.byteLength blanks, s'.offset⟩) ∧
      s'.offset = s.offset + Text.byteLength blanks + Text.byteLength bad := by
  obtain ⟨-, hend⟩ | hreads := s.next_cases
  · rw [h] at hend
    cases hend
  · rw [h] at hreads
    generalize hr : Except.error e = r at hreads
    cases hreads with
    | mk hblanks htaken hstop hspan hfits =>
        subst hr
        exact ⟨_, _, rfl, htaken, hspan, hfits, rfl⟩

def stopBehind (source : String) (offset : Nat) : Token :=
  ⟨.stop, .ofBytes (offset + source.utf8ByteSize) (offset + source.utf8ByteSize)⟩

theorem stopOffset_ofString (source : String) (offset : Nat) :
    (ofString source offset).stopOffset = offset + source.utf8ByteSize := by
  rw [stopOffset, ofString, ← Text.utf8ByteSize_eq]

theorem error_not_mem (e : ScanError) (ts : List Token) :
    (.error e : Except ScanError Token) ∉ ts.map .ok := by
  rw [List.mem_map]
  rintro ⟨t, -, ht⟩
  cases ht

section Source

variable {source : String} {offset : Nat}

theorem scan_ok_iff (ts : List Token) :
    Token.scan source offset = .ok (ts ++ [stopBehind source offset]) ↔
      ∃ s', Stream.Yields (.ofScanner (ofString source offset)) (ts.map .ok) s' := by
  have hstop := stopOffset_ofString source offset
  rw [Token.scan]
  obtain ⟨found, s', -, htokens, -, hyields⟩ | ⟨found, s', e, s'', -, htokens, -, hyields⟩ :=
    (ofString source offset).yields_cases
  · rw [htokens, hstop]
    constructor
    · intro h
      obtain rfl : found = ts := List.append_cancel_right (Except.ok.inj h)
      exact ⟨_, hyields⟩
    · rintro ⟨final, h⟩
      have hts := List.map_injective_iff.mpr (fun _ _ => Except.ok.inj) (hyields.unique h).1
      rw [hts]
      rfl
  · rw [htokens]
    constructor
    · intro h
      cases h
    · rintro ⟨final, h⟩
      -- The error is among the items, but all of these are tokens.
      refine absurd ?_ (error_not_mem e ts)
      rw [← (hyields.unique h).1]
      exact List.mem_append_right _ List.mem_cons_self

theorem scan_error_iff (e : ScanError) :
    Token.scan source offset = .error e ↔
      ∃ (ts : List Token) (s' : Stream),
        Stream.Yields (.ofScanner (ofString source offset)) (ts.map .ok ++ [.error e]) s' := by
  rw [Token.scan]
  obtain ⟨found, s', -, htokens, -, hyields⟩ | ⟨found, s', e', s'', -, htokens, -, hyields⟩ :=
    (ofString source offset).yields_cases
  · rw [htokens]
    constructor
    · intro h
      cases h
    · rintro ⟨ts, final, h⟩
      refine absurd ?_ (error_not_mem e found)
      rw [(hyields.unique h).1]
      exact List.mem_append_right _ List.mem_cons_self
  · rw [htokens]
    constructor
    · intro h
      cases h
      exact ⟨found, _, hyields⟩
    · rintro ⟨ts, final, h⟩
      obtain ⟨-, hlast⟩ := List.append_inj' (hyields.unique h).1 rfl
      obtain ⟨rfl⟩ := hlast
      rfl

theorem calls_of_yields {items : List (Except ScanError Token)} {s' : Stream}
    (h : Stream.Yields (.ofScanner (ofString source offset)) items s') :
    (ofString source offset).calls items.length = items := by
  obtain ⟨ts, s₁, hscans, -, -, hyields⟩ | ⟨ts, s₁, e, s₂, hscans, -, hnext, hyields⟩ :=
    (ofString source offset).yields_cases
  · obtain ⟨rfl, -⟩ := h.unique hyields
    rw [List.length_map]
    exact (hscans.calls_add 0).trans (List.append_nil _)
  · obtain ⟨rfl, -⟩ := h.unique hyields
    rw [List.length_append, List.length_map, List.length_singleton, hscans.calls_add, calls, hnext]
    rfl

theorem calls_of_scan {all : List Token} (h : Token.scan source offset = .ok all) :
    (∃ ts, all = ts ++ [stopBehind source offset] ∧ ∀ t ∈ ts, t.kind ≠ .stop) ∧
      (ofString source offset).calls all.length = all.map .ok := by
  rw [Token.scan] at h
  obtain ⟨ts, s', hscans, htokens, hnext, -⟩ | ⟨-, -, e, -, -, htokens, -, -⟩ :=
    (ofString source offset).yields_cases
  · rw [h, stopOffset_ofString] at htokens
    obtain rfl := Except.ok.inj htokens
    refine ⟨⟨ts, rfl, hscans.ne_stop⟩, ?_⟩
    rw [List.length_append, List.length_singleton, hscans.calls_add, calls, hnext,
      stopOffset_ofString, List.map_append]
    rfl
  · rw [h] at htokens
    cases htokens

theorem exists_behind_error {ts : List Token} {e : ScanError} {s' : Stream}
    (h : Stream.Yields (.ofScanner (ofString source offset)) (ts.map .ok ++ [.error e]) s') :
    ∃ before bad rest : String, source = before ++ bad ++ rest ∧ bad ≠ "" ∧
      e.span = e.cause.bytes (offset + before.utf8ByteSize)
        (offset + before.utf8ByteSize + bad.utf8ByteSize) ∧
      (offset + before.utf8ByteSize + bad.utf8ByteSize ≤ maxOffset →
        e.span = ⟨offset + before.utf8ByteSize,
          offset + before.utf8ByteSize + bad.utf8ByteSize⟩) ∧
      s'.scanner = ofString rest (offset + before.utf8ByteSize + bad.utf8ByteSize) := by
  obtain ⟨found, -, -, -, -, hyields⟩ | ⟨found, s₁, e', s₂, hscans, -, hnext, hyields⟩ :=
    (ofString source offset).yields_cases
  · refine absurd ?_ (error_not_mem e found)
    rw [(hyields.unique h).1]
    exact List.mem_append_right _ List.mem_cons_self
  · obtain ⟨hitems, rfl⟩ := hyields.unique h
    obtain ⟨-, hlast⟩ := List.append_inj' hitems rfl
    obtain ⟨rfl⟩ := hlast
    obtain ⟨consumed, hall, hoffset, -⟩ := hscans.replace
    have hsource : source.toList = consumed ++ s₁.rest := hall
    obtain ⟨blanks, bad, hrest, hbad, hspan, hfits, hstop⟩ := exists_bad hnext
    have hbytes : offset + Text.byteLength (consumed ++ blanks) =
        s₁.offset + Text.byteLength blanks := by
      rw [hoffset, Text.byteLength_append, ofString, Nat.add_assoc]
    refine ⟨.ofList (consumed ++ blanks), .ofList bad, .ofList s₂.rest, ?_, ?_, ?_⟩
    · rw [← String.toList_inj]
      simpa [hrest] using hsource
    · simpa using hbad
    · rw [Text.utf8ByteSize_eq, Text.utf8ByteSize_eq, String.toList_ofList, String.toList_ofList,
        hbytes, ← hstop, ofString, String.toList_ofList]
      exact ⟨hspan, hfits, rfl⟩

end Source

/-- A text has the tokens that a stream yields before it ends, or the error that a stream ends with,
and calls for one token after the other give the same. The end of the line is the last of the tokens
and no other. A stream that has ended yields nothing more, whatever is called on it, and a scanner
that has met an error goes on right behind the text of the error. -/
theorem scan_stream_calls_agree (source : String) (offset : Nat) :
    (∀ ts, Token.scan source offset = .ok (ts ++ [stopBehind source offset]) ↔
      ∃ s', Stream.Yields (.ofScanner (ofString source offset)) (ts.map .ok) s') ∧
    (∀ e, Token.scan source offset = .error e ↔ ∃ (ts : List Token) (s' : Stream),
      Stream.Yields (.ofScanner (ofString source offset)) (ts.map .ok ++ [.error e]) s') ∧
    (∀ items s', Stream.Yields (.ofScanner (ofString source offset)) items s' →
      (ofString source offset).calls items.length = items) ∧
    (∀ all, Token.scan source offset = .ok all →
      (∃ ts, all = ts ++ [stopBehind source offset] ∧ ∀ t ∈ ts, t.kind ≠ .stop) ∧
        (ofString source offset).calls all.length = all.map .ok) ∧
    (∀ s : Stream, s.next.1 = none → ∀ later : List Stream.Call,
      (later.foldl Stream.after s.next.2).next.1 = none) ∧
    ∀ (ts : List Token) e s',
      Stream.Yields (.ofScanner (ofString source offset)) (ts.map .ok ++ [.error e]) s' →
      ∃ before bad rest : String, source = before ++ bad ++ rest ∧ bad ≠ "" ∧
        e.span = e.cause.bytes (offset + before.utf8ByteSize)
          (offset + before.utf8ByteSize + bad.utf8ByteSize) ∧
        (offset + before.utf8ByteSize + bad.utf8ByteSize ≤ maxOffset →
          e.span = ⟨offset + before.utf8ByteSize,
            offset + before.utf8ByteSize + bad.utf8ByteSize⟩) ∧
        s'.scanner = ofString rest (offset + before.utf8ByteSize + bad.utf8ByteSize) := by
  refine ⟨scan_ok_iff, scan_error_iff, ?_, ?_, ?_, ?_⟩
  · intro items s' h
    exact calls_of_yields h
  · intro all h
    exact calls_of_scan h
  · intro s h later
    exact Stream.next_foldl_none h later
  · intro ts e s' h
    exact exists_behind_error h

/-- Two errors behind a token: a symbol of two bytes, and a hole without a place. -/
def brokenTwice : String := "x é#0,"

def brokenItems : List (Except ScanError Token) :=
  [.ok ⟨.name "x", ⟨5, 6⟩⟩, .error ⟨.unknownSymbol 'é' 7, ⟨7, 9⟩⟩]

theorem scan_stream_calls_agree_broken :
    Stream.Yields (.ofScanner (ofString brokenTwice 5)) brokenItems ⟨ofString "#0," 9, true⟩ ∧
      Token.scan brokenTwice 5 = .error ⟨.unknownSymbol 'é' 7, ⟨7, 9⟩⟩ ∧
      (ofString brokenTwice 5).calls 2 = brokenItems ∧
      (ofString "#0," 9).next.1 = .error ⟨.zeroHole, ⟨9, 11⟩⟩ := by
  have hyields : Stream.Yields (.ofScanner (ofString brokenTwice 5)) brokenItems
      ⟨ofString "#0," 9, true⟩ := by
    have hfirst : (Stream.ofScanner (ofString brokenTwice 5)).next =
        (some (.ok ⟨.name "x", ⟨5, 6⟩⟩), .ofScanner (ofString " é#0," 6)) := by rfl
    have hsecond : (Stream.ofScanner (ofString " é#0," 6)).next =
        (some (.error ⟨.unknownSymbol 'é' 7, ⟨7, 9⟩⟩), ⟨ofString "#0," 9, true⟩) := by rfl
    exact .item hfirst (.item hsecond (.stop (Stream.next_finished _)))
  obtain ⟨-, hfails, hcalls, -⟩ := scan_stream_calls_agree brokenTwice 5
  exact ⟨hyields, (hfails _).mpr ⟨[⟨.name "x", ⟨5, 6⟩⟩], _, hyields⟩, hcalls _ _ hyields,
    by rfl⟩

/-- Behind the largest offset, the end of an unknown symbol wraps around. -/
example : Token.scan "%" 4294967295 =
    .error ⟨.unknownSymbol '%' 4294967295, ⟨4294967295, 0⟩⟩ := by with_unfolding_all rfl

end NodeRules.Scanner
