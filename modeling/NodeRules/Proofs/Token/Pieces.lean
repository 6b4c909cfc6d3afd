import Mathlib.Data.String.Basic
import Mathlib.Order.Lattice.Nat
import NodeRules.Proofs.Descriptor.Extents
import NodeRules.Proofs.Token.Composition

namespace NodeRules

namespace Text

theorem utf8Len_eq (cs : List Char) : String.utf8Len cs = byteLength cs := by
  induction cs with
  | nil => rfl
  | cons c cs ih => rw [String.utf8Len, byteLength, ih, Nat.add_comm]

end Text

namespace Span

structure Within (span : Span) (line : String) : Prop where
  ordered : span.start ≤ span.stop
  bounded : span.stop ≤ line.utf8ByteSize
  start_valid : String.Pos.Raw.IsValid line ⟨span.start⟩
  stop_valid : String.Pos.Raw.IsValid line ⟨span.stop⟩

def slice (span : Span) (line : String) : String :=
  String.Pos.Raw.extract line ⟨span.start⟩ ⟨span.stop⟩

/-- The characters `inside` stand in the line where the span says. -/
def Marks (span : Span) (line inside : List Char) : Prop :=
  ∃ before after, line = before ++ (inside ++ after) ∧
    span = ⟨Text.byteLength before, Text.byteLength before + Text.byteLength inside⟩

section Line

variable {span : Span} {line : String} {inside : List Char}

theorem Marks.within (h : span.Marks line.toList inside) : span.Within line := by
  obtain ⟨before, after, hline, rfl⟩ := h
  have hsize : line.utf8ByteSize = Text.byteLength (before ++ (inside ++ after)) := by
    rw [Text.utf8ByteSize_eq, hline]
  simp only [Text.byteLength_append] at hsize
  refine ⟨Nat.le_add_right _ _, by dsimp only; omega, Scanner.isValid_of_append hline, ?_⟩
  rw [← Text.byteLength_append]
  exact Scanner.isValid_of_append (by rw [hline, List.append_assoc])

theorem Marks.slice_eq (h : span.Marks line.toList inside) :
    span.slice line = String.ofList inside := by
  obtain ⟨before, after, hline, rfl⟩ := h
  have hextract := String.extract_of_valid before inside after
  rwa [List.append_assoc, ← hline, String.ofList_toList, Text.utf8Len_eq, Text.utf8Len_eq]
    at hextract

theorem within_nowhere (line : String) : nowhere.Within line := by
  have hmarks : nowhere.Marks line.toList [] := ⟨[], line.toList, rfl, rfl⟩
  exact hmarks.within

end Line

end Span

namespace Scanner

section Bounds

variable {s s' : Scanner} {ts : List Token} {t : Token}

theorem Reads.bounds (h : Reads s (.ok t) s') :
    min s.offset maxOffset ≤ t.span.start ∧ t.span.start ≤ t.span.stop ∧
      t.span.stop = min s'.offset maxOffset ∧ s.offset ≤ s'.offset := by
  generalize hr : Except.ok t = r at h
  cases h with
  | mk hblanks htaken hstop hspan =>
      subst hr
      dsimp only [spanOf, spanAt] at hspan
      rw [hspan, Span.ofBytes]
      dsimp only
      omega

theorem reads_of_next (hnext : s.next = (.ok t, s')) (ht : t.kind ≠ .stop) :
    Reads s (.ok t) s' := by
  obtain ⟨-, hstop⟩ | hreads := s.next_cases
  · rw [hstop] at hnext
    cases hnext
    exact absurd rfl ht
  · rwa [hnext] at hreads

theorem Scans.bounds (h : Scans s ts s') : s.offset ≤ s'.offset ∧ ∀ t ∈ ts,
    min s.offset maxOffset ≤ t.span.start ∧ t.span.start ≤ t.span.stop ∧
      t.span.stop ≤ min s'.offset maxOffset := by
  induction h with
  | done s => exact ⟨le_rfl, by simp⟩
  | more hnext ht _ ih =>
      obtain ⟨hstart, hordered, hstop, hoffset⟩ := (reads_of_next hnext ht).bounds
      refine ⟨hoffset.trans ih.1, ?_⟩
      intro u hu
      rcases List.mem_cons.mp hu with rfl | hu
      · omega
      · have hbounds := ih.2 u hu
        omega

theorem Scans.getLastD_stop (h : Scans s ts s') (hne : ts ≠ []) (d : Token) :
    (ts.getLastD d).span.stop = min s'.offset maxOffset := by
  induction h generalizing d with
  | done s => exact absurd rfl hne
  | @more s s₁ s' t ts hnext ht hrest ih =>
      rw [List.getLastD_cons]
      cases ts with
      | nil =>
          cases hrest
          exact (reads_of_next hnext ht).bounds.2.2.1
      | cons u us => exact ih (by simp) t

theorem Scans.extent_eq (h : Scans s (t :: ts) s') :
    Token.extent (t :: ts) = ⟨t.span.start, min s'.offset maxOffset⟩ := by
  have hstop := h.getLastD_stop (by simp) ⟨.stop, .nowhere⟩
  have hlast : (t :: ts).getLastD ⟨.stop, .nowhere⟩ ∈ t :: ts := by
    rw [List.getLastD_cons]
    exact List.getLastD_mem_cons
  cases h with
  | more hnext ht hrest =>
      obtain ⟨-, hordered, hfirst, -⟩ := (reads_of_next hnext ht).bounds
      obtain ⟨hoffset, hbounds⟩ := hrest.bounds
      have hstart : t.span.start ≤ ((t :: ts).getLastD ⟨.stop, .nowhere⟩).span.start := by
        rcases List.mem_cons.mp hlast with heq | hmem
        · rw [heq]
        · have hlater := (hbounds _ hmem).1
          omega
      rw [Token.extent, Span.cover, List.headD_cons, hstop, min_eq_left hstart, max_eq_right]
      omega

end Bounds

theorem Scans.ne_stop {s s' : Scanner} {ts : List Token} (h : Scans s ts s') :
    ∀ t ∈ ts, t.kind ≠ .stop := by
  induction h with
  | done s => simp
  | more hnext ht _ ih => exact List.forall_mem_cons.mpr ⟨ht, ih⟩

theorem Scans.exists_split {s s' : Scanner} {ts ts' : List Token} (h : Scans s (ts ++ ts') s') :
    ∃ mid, Scans s ts mid ∧ Scans mid ts' s' := by
  induction ts generalizing s with
  | nil => exact ⟨s, .done s, h⟩
  | cons t ts ih =>
      cases h with
      | more hnext ht hrest =>
          obtain ⟨mid, hfront, hback⟩ := ih hrest
          exact ⟨mid, .more hnext ht hfront, hback⟩

/-- What the tokens were read from is scanned as these tokens, and nothing else. -/
theorem Scans.exists_consumed {s s' : Scanner} {ts : List Token} (h : Scans s ts s') :
    ∃ consumed, s.rest = consumed ++ s'.rest ∧
      kinds consumed = some (ts.map Token.kind ++ [.stop]) := by
  obtain ⟨consumed, hrest, -, hreplace⟩ := h.replace
  have htokens := (hreplace [] (by simp [Replaces])).tokens_eq
  have hend : (Scanner.mk s'.offset []).tokens = .ok [⟨.stop, .ofBytes s'.offset s'.offset⟩] :=
    tokens_of_stop rfl rfl
  rw [List.append_nil, hend] at htokens
  refine ⟨consumed, hrest, ?_⟩
  rw [kinds_of_tokens htokens, List.map_append]
  rfl

theorem Lexeme.placed_eq_error {l : Lexeme} {offset : Nat} {e : ScanError}
    (h : l.placed offset = .error e) : l.result = .error e.cause ∧
      e.span = e.cause.bytes offset (offset + Text.byteLength l.taken) := by
  rw [placed] at h
  split at h
  · cases h
  · rename_i hresult
    cases h
    exact ⟨hresult, rfl⟩

/-- The text of the scanner is a part of the line, and the offset counts the bytes in front. -/
def StandsIn (s : Scanner) (line : List Char) : Prop :=
  ∃ before after, line = before ++ (s.rest ++ after) ∧ s.offset = Text.byteLength before

section Line

variable {s s' : Scanner} {line : List Char} (hs : s.StandsIn line)
  (hfits : Text.byteLength line ≤ maxOffset)

include hs

theorem StandsIn.behind {consumed : List Char} (hrest : s.rest = consumed ++ s'.rest)
    (hoffset : s'.offset = s.offset + Text.byteLength consumed) : s'.StandsIn line := by
  obtain ⟨before, after, rfl, hbefore⟩ := hs
  refine ⟨before ++ consumed, after, by simp [hrest], ?_⟩
  rw [hoffset, hbefore, Text.byteLength_append]

theorem Scans.standsIn {ts : List Token} (h : Scans s ts s') : s'.StandsIn line := by
  obtain ⟨consumed, hrest, hoffset, -⟩ := h.replace
  exact hs.behind hrest hoffset

include hfits

theorem StandsIn.stop_le {blanks inside rest : List Char}
    (hrest : s.rest = blanks ++ (inside ++ rest)) :
    s.offset + Text.byteLength blanks + Text.byteLength inside ≤ maxOffset := by
  obtain ⟨before, after, rfl, hbefore⟩ := hs
  simp only [hrest, Text.byteLength_append] at hfits
  omega

theorem StandsIn.marks {blanks inside rest : List Char}
    (hrest : s.rest = blanks ++ (inside ++ rest)) :
    (Span.ofBytes (s.offset + Text.byteLength blanks)
      (s.offset + Text.byteLength blanks + Text.byteLength inside)).Marks line inside := by
  rw [Span.ofBytes_eq (Nat.le_add_right _ _) (hs.stop_le hfits hrest)]
  obtain ⟨before, after, rfl, hbefore⟩ := hs
  refine ⟨before ++ blanks, rest ++ after, by simp [hrest], ?_⟩
  rw [hbefore, Text.byteLength_append]

theorem Reads.exists_marks {r : Except ScanError Token} (h : Reads s r s') :
    ∃ inside, (spanOf r).Marks line inside := by
  cases h with
  | mk hblanks htaken hstop _ hspan =>
      have hle := hs.stop_le hfits rfl
      rw [hspan hle, ← Span.ofBytes_eq (Nat.le_add_right _ _) hle]
      exact ⟨_, hs.marks hfits rfl⟩

theorem Scans.exists_piece {ts : List Token} (h : Scans s ts s') (hne : ts ≠ []) :
    ∃ inside, (Token.extent ts).Marks line inside ∧
      kinds inside = some (ts.map Token.kind ++ [.stop]) := by
  obtain ⟨all, hall, hkinds⟩ := h.exists_consumed
  obtain ⟨t, ts, rfl⟩ := List.exists_cons_of_ne_nil hne
  rw [h.extent_eq]
  cases h with
  | @more _ s₁ _ _ _ hnext ht hrest =>
      obtain ⟨consumed, hconsumed, hoffset, -⟩ := hrest.replace
      have hreads := reads_of_next hnext ht
      cases hreads with
      | @mk o blanks taken rest _ hblanks _ _ hspan =>
          dsimp only [spanOf] at hspan hconsumed hoffset hall
          subst hconsumed
          have htext : blanks ++ (taken ++ (consumed ++ s'.rest)) =
              blanks ++ (taken ++ consumed ++ s'.rest) := by rw [List.append_assoc taken]
          have hinside : all = blanks ++ (taken ++ consumed) := by
            rw [← List.append_left_inj s'.rest, ← hall, htext, List.append_assoc blanks]
          rw [hinside, kinds_blanks hblanks] at hkinds
          refine ⟨taken ++ consumed, ?_, hkinds⟩
          have hmarks := hs.marks hfits htext
          rw [hspan, hoffset, Nat.add_assoc _ _ (Text.byteLength consumed),
            ← Text.byteLength_append]
          exact hmarks

theorem exists_marks_of_tokens {ts : List Token} (h : s.tokens = .ok ts) :
    ∀ t ∈ ts, ∃ inside, t.span.Marks line inside := by
  rcases s.tokens_cases with ⟨run, s', hscans, -, htokens⟩ | ⟨-, -, e, -, -, -, htokens⟩
  · rw [h] at htokens
    cases htokens
    intro t ht
    rcases List.mem_append.mp ht with ht | ht
    · obtain ⟨front, back, rfl⟩ := List.append_of_mem ht
      obtain ⟨mid, hfront, hback⟩ := hscans.exists_split
      cases hback with
      | more hnext hstop =>
          exact (reads_of_next hnext hstop).exists_marks (hfront.standsIn hs) hfits
    · obtain rfl := List.mem_singleton.mp ht
      have hrest : s.rest = s.rest ++ ([] ++ []) := by simp
      exact ⟨[], hs.marks hfits hrest⟩
  · rw [h] at htokens
    cases htokens

/-- Tokens that stand one behind the other in a scan are scanned alone as the same tokens. -/
theorem exists_piece_of_tokens {front mid back ts : List Token} (h : s.tokens = .ok ts)
    (hline : Token.line ts = front ++ (mid ++ back)) (hne : mid ≠ []) :
    ∃ inside, (Token.extent mid).Marks line inside ∧
      kinds inside = some (mid.map Token.kind ++ [.stop]) := by
  rcases s.tokens_cases with ⟨run, s', hscans, -, htokens⟩ | ⟨-, -, e, -, -, -, htokens⟩
  · rw [h] at htokens
    cases htokens
    have hrun : Token.line (run ++ [⟨.stop, .ofBytes s.stopOffset s.stopOffset⟩]) = run := by
      rw [Token.line, List.takeWhile_append_of_pos (by simpa using hscans.ne_stop)]
      simp
    rw [hrun] at hline
    subst hline
    obtain ⟨s₁, hfront, hrest⟩ := hscans.exists_split
    obtain ⟨s₂, hmid, -⟩ := hrest.exists_split
    exact hmid.exists_piece (hfront.standsIn hs) hfits hne
  · rw [h] at htokens
    cases htokens

theorem exists_marks_of_error {e : ScanError} (h : s.tokens = .error e) :
    ∃ inside, e.span.Marks line inside ∧ ∀ symbol offset,
      e.cause = .unknownSymbol symbol offset → inside = [symbol] ∧ offset = e.span.start := by
  rcases s.tokens_cases with ⟨ts, s', -, -, htokens⟩ | ⟨ts, s', e', s'', hscans, hnext, htokens⟩
  · rw [h] at htokens
    cases htokens
  rw [h] at htokens
  cases htokens
  have hs' := hscans.standsIn hs
  obtain hblank | ⟨blanks, c, cs, hblanks, hc, hsplit⟩ := s'.blank_or_cons
  · rw [next_of_blank hblank] at hnext
    cases hnext
  rw [hsplit, next_eq hblanks hc, Prod.mk.injEq] at hnext
  obtain ⟨hresult, hspan⟩ := Lexeme.placed_eq_error hnext.1
  have hrest := congrArg Scanner.rest hsplit
  rw [← lexeme_append (s'.offset + Text.byteLength blanks)] at hrest
  have hle := hs'.stop_le hfits hrest
  rw [hspan, bytes_eq hresult hle, ← Span.ofBytes_eq (Nat.le_add_right _ _) hle]
  refine ⟨_, hs'.marks hfits hrest, ?_⟩
  intro symbol offset hcause
  rw [hcause] at hresult
  exact lexeme_unknown _ c cs hresult

end Line

end Scanner

end NodeRules
