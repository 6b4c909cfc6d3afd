import Mathlib.Data.List.TakeWhile
import NodeRules.Proofs.Token.RoundTrip
import NodeRules.Proofs.Token.Spans

namespace NodeRules

namespace Text.Quoted

theorem split?_cons {c : Char} (hquote : c ≠ '"') (hbackslash : c ≠ '\\') (cs : List Char) :
    split? (c :: cs) = (split? cs).map fun (body, rest) => (c :: body, rest) :=
  split?.eq_5 c cs hquote (fun hc _ => hbackslash hc) fun _ _ hc _ => hbackslash hc

theorem ne_backslash {c : Char} {cs : List Char} (hlast : c = '\\' → cs = [] → False)
    (hescape : ∀ d ds, c = '\\' → cs = d :: ds → False) : c ≠ '\\' := by
  intro hc
  cases cs with
  | nil => exact hlast hc rfl
  | cons d cs => exact hescape d cs hc rfl

theorem split?_replace {cs body rest : List Char} (h : split? cs = some (body, rest))
    (more : List Char) : split? (body ++ '"' :: more) = some (body, more) := by
  fun_induction split? cs generalizing body rest with
  | case1 => cases h
  | case2 cs =>
      cases h
      rfl
  | case3 => cases h
  | case4 c cs ih =>
      obtain ⟨⟨b, r⟩, hr, he⟩ := Option.map_eq_some_iff.mp h
      cases he
      rw [List.cons_append, List.cons_append, split?, ih hr]
      rfl
  | case5 c cs hquote hlast hescape ih =>
      obtain ⟨⟨b, r⟩, hr, he⟩ := Option.map_eq_some_iff.mp h
      cases he
      rw [List.cons_append, split?_cons hquote (ne_backslash hlast hescape), ih hr]
      rfl

end Text.Quoted

namespace Scanner

/-- What was read in front of `rest` is read in front of `more` as well. -/
def Replaces (rest more : List Char) : Prop :=
  ∀ c ∈ more.head?, c ∈ rest.head? ∨ isNameChar c = false

theorem replaces_append {more : List Char} (h : Apart more) (rest : List Char) :
    Replaces rest (rest ++ more) := by
  intro c hc
  cases rest with
  | nil => exact .inr (h c hc)
  | cons d rest => exact .inl hc

section Run

variable {p : Char → Bool} {cs more : List Char}

theorem Replaces.head?_not (hp : ∀ c, p c = true → isNameChar c = true)
    (h : Replaces (cs.dropWhile p) more) : ∀ c ∈ more.head?, p c = false := by
  intro c hc
  rcases h c hc with hhead | hname
  · have hnot := List.head?_dropWhile_not p cs
    rw [Option.mem_def.mp hhead] at hnot
    simpa using hnot
  · rw [Bool.eq_false_iff]
    intro hpc
    rw [hp c hpc] at hname
    cases hname

theorem Replaces.takeWhile_eq (hp : ∀ c, p c = true → isNameChar c = true)
    (h : Replaces (cs.dropWhile p) more) :
    (cs.takeWhile p ++ more).takeWhile p = cs.takeWhile p :=
  takeWhile_run (fun _ hc => List.mem_takeWhile_imp hc) (h.head?_not hp)

theorem Replaces.dropWhile_eq (hp : ∀ c, p c = true → isNameChar c = true)
    (h : Replaces (cs.dropWhile p) more) : (cs.takeWhile p ++ more).dropWhile p = more :=
  dropWhile_run (fun _ hc => List.mem_takeWhile_imp hc) (h.head?_not hp)

end Run

theorem isNameChar_of_isDigit (c : Char) (h : c.isDigit = true) : isNameChar c = true := by
  simp [isNameChar, h]

/-- A token depends on its own characters only. -/
theorem lexeme_replace (o o' : Nat) (c : Char) (cs : List Char) {kind : Token.Kind}
    {more : List Char} : (lexeme o c cs).result = .ok kind → Replaces (lexeme o c cs).rest more →
      ∃ ds, (lexeme o c cs).taken = c :: ds ∧
        lexeme o' c (ds ++ more) = ⟨.ok kind, c :: ds, more⟩ := by
  fun_cases lexeme o c cs with
  | case1 hhash digits =>
      intro hkind hmore
      refine ⟨digits, rfl, ?_⟩
      rw [lexeme, if_pos hhash, hmore.takeWhile_eq isNameChar_of_isDigit,
        hmore.dropWhile_eq isNameChar_of_isDigit]
      exact congrArg (Lexeme.mk · _ _) hkind
  | case2 hhash hquote body rest hsplit =>
      intro hkind hmore
      refine ⟨body ++ ['"'], rfl, ?_⟩
      cases hkind
      simp [lexeme, hhash, hquote, Text.Quoted.split?_replace hsplit]
  | case4 hhash hquote hdollar body rest hsplit =>
      intro hkind hmore
      refine ⟨body ++ ['$'], rfl, ?_⟩
      cases hkind
      simp [lexeme, hhash, hquote, hdollar, splitCode?_append (not_mem_of_splitCode? hsplit)]
  | case6 hhash hquote hdollar hdigit digits =>
      intro hkind hmore
      refine ⟨cs.takeWhile Char.isDigit, rfl, ?_⟩
      rw [lexeme_of_isDigit hdigit, hmore.takeWhile_eq isNameChar_of_isDigit,
        hmore.dropWhile_eq isNameChar_of_isDigit]
      exact congrArg (Lexeme.mk · _ _) hkind
  | case7 hhash hquote hdollar hdigit halpha name =>
      intro hkind hmore
      refine ⟨cs.takeWhile isNameChar, rfl, ?_⟩
      cases hkind
      rw [lexeme_of_isAlpha halpha, hmore.takeWhile_eq fun _ h => h,
        hmore.dropWhile_eq fun _ h => h]
  | case8 hhash hquote hdollar hdigit halpha symbol hsymbol =>
      intro hkind hmore
      refine ⟨[], rfl, ?_⟩
      cases hkind
      simp [lexeme, hhash, hquote, hdollar, hdigit, halpha, hsymbol]
  | case3 | case5 | case9 =>
      intro hkind
      cases hkind

def Lexeme.placed (l : Lexeme) (offset : Nat) : Except ScanError Token :=
  match l.result with
  | .ok kind => .ok ⟨kind, .ofBytes offset (offset + Text.byteLength l.taken)⟩
  | .error cause => .error ⟨cause, cause.bytes offset (offset + Text.byteLength l.taken)⟩

theorem Lexeme.placed_eq_ok {l : Lexeme} {offset : Nat} {t : Token} (h : l.placed offset = .ok t) :
    l.result = .ok t.kind ∧
      t.span = .ofBytes offset (offset + Text.byteLength l.taken) := by
  rw [placed] at h
  split at h
  · rename_i hresult
    cases h
    exact ⟨hresult, rfl⟩
  · cases h

section Next

variable {blanks : List Char} (hblanks : ∀ b ∈ blanks, isSkipped b = true)

include hblanks

theorem next_eq {c : Char} (hc : isSkipped c = false) (o : Nat) (cs : List Char) :
    (Scanner.mk o (blanks ++ c :: cs)).next =
      ((lexeme (o + Text.byteLength blanks) c cs).placed (o + Text.byteLength blanks),
        ⟨o + Text.byteLength blanks +
          Text.byteLength (lexeme (o + Text.byteLength blanks) c cs).taken,
          (lexeme (o + Text.byteLength blanks) c cs).rest⟩) := by
  have hskip : (Scanner.mk o (blanks ++ c :: cs)).skip = ⟨o + Text.byteLength blanks, c :: cs⟩ := by
    have hhead : ∀ d ∈ (c :: cs).head?, isSkipped d = false := by simpa using hc
    rw [skip, takeWhile_run hblanks hhead, dropWhile_run hblanks hhead]
  rw [next, hskip, Lexeme.placed]
  dsimp only
  cases (lexeme (o + Text.byteLength blanks) c cs).result <;> rfl

theorem next_blanks (o : Nat) (cs : List Char) :
    (Scanner.mk o (blanks ++ cs)).next =
      (Scanner.mk (o + Text.byteLength blanks) cs).next := by
  induction blanks generalizing o with
  | nil => rfl
  | cons b blanks ih =>
      rw [List.cons_append, next_skip (hblanks b List.mem_cons_self),
        ih (fun d hd => hblanks d (List.mem_cons_of_mem b hd)), Text.byteLength, Nat.add_assoc]

theorem tokens_blanks (o : Nat) (cs : List Char) :
    (Scanner.mk o (blanks ++ cs)).tokens =
      (Scanner.mk (o + Text.byteLength blanks) cs).tokens :=
  tokens_eq_of_next (next_blanks hblanks o cs)

end Next

theorem blank_or_cons (s : Scanner) : (∀ c ∈ s.rest, isSkipped c = true) ∨
    ∃ blanks c cs, (∀ b ∈ blanks, isSkipped b = true) ∧ isSkipped c = false ∧
      s = ⟨s.offset, blanks ++ c :: cs⟩ := by
  have hblanks : ∀ b ∈ s.rest.takeWhile isSkipped, isSkipped b = true :=
    fun _ hb => List.mem_takeWhile_imp hb
  have happend : s.rest = s.rest.takeWhile isSkipped ++ s.rest.dropWhile isSkipped :=
    List.takeWhile_append_dropWhile.symm
  have hnot := List.head?_dropWhile_not isSkipped s.rest
  cases hrest : s.rest.dropWhile isSkipped with
  | nil =>
      left
      rw [happend, hrest, List.append_nil]
      exact hblanks
  | cons c cs =>
      right
      rw [hrest] at happend hnot
      exact ⟨_, c, cs, hblanks, by simpa using hnot, congrArg (Scanner.mk s.offset) happend⟩

theorem next_of_blank {s : Scanner} (h : ∀ c ∈ s.rest, isSkipped c = true) :
    s.next = (endAt s.stopOffset, ⟨s.stopOffset, []⟩) := by
  have hnext := next_blanks h s.offset []
  rw [List.append_nil] at hnext
  exact hnext

/-- The tokens `ts` are read from `s`, one after the other, which leads to `s'`. -/
inductive Scans : Scanner → List Token → Scanner → Prop
  | done (s : Scanner) : Scans s [] s
  | more {s s' s'' : Scanner} {t : Token} {ts : List Token} (hnext : s.next = (.ok t, s'))
      (ht : t.kind ≠ .stop) (hrest : Scans s' ts s'') : Scans s (t :: ts) s''

theorem next_replace {s s' : Scanner} {t : Token} (hnext : s.next = (.ok t, s'))
    (ht : t.kind ≠ .stop) : ∃ consumed, s.rest = consumed ++ s'.rest ∧
      s'.offset = s.offset + Text.byteLength consumed ∧ ∀ more, Replaces s'.rest more →
        (Scanner.mk s.offset (consumed ++ more)).next = (.ok t, ⟨s'.offset, more⟩) := by
  obtain hblank | ⟨blanks, c, cs, hblanks, hc, hs⟩ := s.blank_or_cons
  · rw [next_of_blank hblank] at hnext
    cases hnext
    exact absurd rfl ht
  obtain ⟨o, text⟩ := s
  obtain ⟨kind, span⟩ := t
  obtain rfl : text = blanks ++ c :: cs := congrArg Scanner.rest hs
  rw [next_eq hblanks hc, Prod.mk.injEq] at hnext
  obtain ⟨hplaced, rfl⟩ := hnext
  obtain ⟨hresult, rfl⟩ := Lexeme.placed_eq_ok hplaced
  refine ⟨blanks ++ (lexeme (o + Text.byteLength blanks) c cs).taken, ?_, ?_, ?_⟩
  · rw [List.append_assoc, lexeme_append]
  · rw [Text.byteLength_append, Nat.add_assoc]
  · intro more hmore
    obtain ⟨ds, htaken, hlexeme⟩ := lexeme_replace _ (o + Text.byteLength blanks) c cs hresult hmore
    rw [htaken, List.append_assoc, List.cons_append, next_eq hblanks hc, hlexeme]
    rfl

namespace Scans

variable {s s' s'' : Scanner} {ts ts' : List Token}

theorem tokens_eq (h : Scans s ts s') : s.tokens = s'.tokens.map (ts ++ ·) := by
  induction h with
  | done s => cases s.tokens <;> rfl
  | more hnext ht _ ih =>
      rw [tokens_of_ok hnext ht, ih]
      cases Scanner.tokens _ <;> rfl

theorem replace (h : Scans s ts s') : ∃ consumed, s.rest = consumed ++ s'.rest ∧
    s'.offset = s.offset + Text.byteLength consumed ∧ ∀ more, Replaces s'.rest more →
      Scans ⟨s.offset, consumed ++ more⟩ ts ⟨s'.offset, more⟩ := by
  induction h with
  | done s => exact ⟨[], rfl, rfl, fun more _ => .done _⟩
  | @more s s₁ s' t ts hnext ht _ ih =>
      obtain ⟨first, hfirst, hoffset, hnext'⟩ := next_replace hnext ht
      obtain ⟨consumed, hconsumed, hoffset', hscans⟩ := ih
      refine ⟨first ++ consumed, ?_, ?_, ?_⟩
      · rw [hfirst, hconsumed, List.append_assoc]
      · rw [hoffset', hoffset, Text.byteLength_append, Nat.add_assoc]
      · intro more hmore
        rw [List.append_assoc]
        refine .more (hnext' _ ?_) ht (hscans more hmore)
        -- The character behind the token stays, unless the token is the last one.
        cases consumed with
        | nil => rwa [hconsumed]
        | cons c consumed => exact fun d hd => .inl (by rw [hconsumed]; exact hd)

theorem stopOffset_eq (h : Scans s ts s') : s'.stopOffset = s.stopOffset := by
  obtain ⟨consumed, hrest, hoffset, -⟩ := h.replace
  rw [stopOffset, stopOffset, hrest, hoffset, Text.byteLength_append, Nat.add_assoc]

end Scans

theorem tokens_cases (s : Scanner) :
    (∃ ts s', Scans s ts s' ∧ (∀ c ∈ s'.rest, isSkipped c = true) ∧
      s.tokens = .ok (ts ++ [⟨.stop, .ofBytes s.stopOffset s.stopOffset⟩])) ∨
    ∃ ts s' e s'', Scans s ts s' ∧ s'.next = (.error e, s'') ∧ s.tokens = .error e := by
  obtain ⟨hblank, hnext⟩ | hreads := s.next_cases
  · exact .inl ⟨[], s, .done s, hblank, tokens_of_stop hnext rfl⟩
  rcases hnext : s.next with ⟨result, s₁⟩
  cases result with
  | error e => exact .inr ⟨[], s, e, s₁, .done s, hnext, tokens_of_error hnext⟩
  | ok t =>
      rw [hnext] at hreads
      have ht := hreads.ne_stop rfl
      have hshorter := hreads.shorter
      rcases s₁.tokens_cases with ⟨ts, s', hscans, hblank, htokens⟩ |
        ⟨ts, s', e, s'', hscans, herror, htokens⟩
      · refine .inl ⟨t :: ts, s', .more hnext ht hscans, hblank, ?_⟩
        rw [tokens_of_ok hnext ht, htokens, hreads.stopOffset_eq]
        rfl
      · refine .inr ⟨t :: ts, s', e, s'', .more hnext ht hscans, herror, ?_⟩
        rw [tokens_of_ok hnext ht, htokens]
        rfl
termination_by s.rest.length

end Scanner

def Token.shift (t : Token) (n : Nat) : Token := ⟨t.kind, t.span.shift n⟩

namespace ScanError

def Cause.shift (n : Nat) : Cause → Cause
  | .unknownSymbol symbol offset => .unknownSymbol symbol (min (offset + n) maxOffset)
  | cause => cause

def shift (e : ScanError) (n : Nat) : ScanError :=
  ⟨e.cause.shift n, (e.cause.shift n).bytes (e.span.start + n) (e.span.stop + n)⟩

end ScanError

namespace Scanner

def shift (s : Scanner) (n : Nat) : Scanner := ⟨s.offset + n, s.rest⟩

section Shift

variable (n : Nat)

theorem shift_ofBytes (start stop : Nat) :
    (Span.ofBytes start stop).shift n = .ofBytes (start + n) (stop + n) := by
  simp only [Span.shift, Span.ofBytes, Span.mk.injEq]
  omega

theorem bytes_shift (cause : ScanError.Cause) (start stop : Nat) :
    (cause.shift n).bytes ((cause.bytes start stop).start + n) ((cause.bytes start stop).stop + n) =
      (cause.shift n).bytes (start + n) (stop + n) := by
  cases cause with
  | unknownSymbol symbol offset =>
      have hstart : min (min start maxOffset + n) maxOffset = min (start + n) maxOffset := by omega
      simp only [ScanError.Cause.bytes, ScanError.Cause.shift, hstart]
  | unterminatedText | unterminatedCode | missingHoleNumber | zeroHole | numberTooLarge =>
      exact shift_ofBytes n start stop

theorem hole_shift (digits : List Char) :
    (hole digits).mapError (ScanError.Cause.shift n) = hole digits := by
  rw [hole]
  repeat' split
  all_goals rfl

theorem number_shift (digits : List Char) :
    (number digits).mapError (ScanError.Cause.shift n) = number digits := by
  rw [number]
  split <;> rfl

theorem lexeme_shift (o : Nat) (c : Char) (cs : List Char) :
    lexeme (o + n) c cs = ⟨(lexeme o c cs).result.mapError (.shift n), (lexeme o c cs).taken,
      (lexeme o c cs).rest⟩ := by
  unfold lexeme
  split
  · exact congrArg (Lexeme.mk · _ _) (hole_shift n _).symm
  split
  · split <;> rfl
  split
  · split <;> rfl
  split
  · exact congrArg (Lexeme.mk · _ _) (number_shift n _).symm
  split
  · rfl
  split
  · rfl
  · have hoffset : min (o + n) maxOffset = min (min o maxOffset + n) maxOffset := by omega
    exact congrArg (fun offset => Lexeme.mk (.error (.unknownSymbol c offset)) [c] cs) hoffset

def shifted {α β : Type} (f : α → β) : Except ScanError α → Except ScanError β
  | .ok a => .ok (f a)
  | .error e => .error (e.shift n)

theorem Lexeme.placed_shift (o : Nat) (c : Char) (cs : List Char) :
    (lexeme (o + n) c cs).placed (o + n) = shifted n (·.shift n) ((lexeme o c cs).placed o) := by
  rw [lexeme_shift, placed, placed]
  cases (lexeme o c cs).result with
  | error cause =>
      simp [Except.mapError, shifted, ScanError.shift, bytes_shift, Nat.add_right_comm]
  | ok kind => simp [Except.mapError, shifted, Token.shift, shift_ofBytes, Nat.add_right_comm]

theorem next_shift (s : Scanner) :
    (s.shift n).next = (shifted n (·.shift n) s.next.1, s.next.2.shift n) := by
  obtain hblank | ⟨blanks, c, cs, hblanks, hc, hs⟩ := s.blank_or_cons
  · rw [next_of_blank hblank, next_of_blank (s := s.shift n) hblank]
    simp [shifted, endAt, Token.shift, shift_ofBytes, shift, stopOffset, Nat.add_right_comm]
  · have hoffset : s.offset + n + Text.byteLength blanks = s.offset + Text.byteLength blanks + n :=
      Nat.add_right_comm _ _ _
    rw [hs, shift, next_eq hblanks hc, next_eq hblanks hc, hoffset]
    generalize s.offset + Text.byteLength blanks = start
    rw [Lexeme.placed_shift, lexeme_shift, shift, Nat.add_right_comm start n]

theorem Scans.shift {s s' : Scanner} {ts : List Token} (h : Scans s ts s') :
    Scans (s.shift n) (ts.map (·.shift n)) (s'.shift n) := by
  induction h with
  | done s => exact .done _
  | more hnext ht _ ih => exact .more (by rw [next_shift, hnext]; rfl) ht ih

/-- The place of a text shows in the spans only. -/
theorem tokens_shift (s : Scanner) :
    (s.shift n).tokens = shifted n (List.map (·.shift n)) s.tokens := by
  rcases s.tokens_cases with ⟨ts, s', hscans, hblank, htokens⟩ |
    ⟨ts, s', e, s'', hscans, hnext, htokens⟩
  · have hend := tokens_of_stop (next_of_blank (s := s'.shift n) hblank) rfl
    rw [(hscans.shift n).tokens_eq, hend, htokens, ← hscans.stopOffset_eq]
    simp [shifted, Except.map, Token.shift, shift_ofBytes, stopOffset, Scanner.shift,
      Nat.add_right_comm]
  · have herror : (s'.shift n).next = (.error (e.shift n), s''.shift n) := by
      rw [next_shift, hnext]
      rfl
    rw [(hscans.shift n).tokens_eq, tokens_of_error herror, htokens]
    rfl

end Shift

theorem tokens_append {o : Nat} {cs blanks : List Char} {ts : List Token}
    (hblanks : ∀ c ∈ blanks, isSkipped c = true) (hne : blanks ≠ [])
    (h : (Scanner.mk o cs).tokens = .ok ts) (more : List Char) :
    ∃ before, ts = before ++ [⟨.stop, .ofBytes (o + Text.byteLength cs) (o + Text.byteLength cs)⟩] ∧
      (Scanner.mk o (cs ++ (blanks ++ more))).tokens =
        (Scanner.mk (o + Text.byteLength cs + Text.byteLength blanks) more).tokens.map
          (before ++ ·) := by
  rcases (Scanner.mk o cs).tokens_cases with ⟨before, s', hscans, hblank, htokens⟩ |
    ⟨-, -, e, -, -, -, htokens⟩
  · rw [h] at htokens
    refine ⟨before, Except.ok.inj htokens, ?_⟩
    obtain ⟨consumed, hrest, hoffset, hreplace⟩ := hscans.replace
    have hrun := hreplace _ (replaces_append (apart_blanks hblanks hne more) s'.rest)
    have hcs : cs = consumed ++ s'.rest := hrest
    dsimp only at hoffset
    rw [hcs, List.append_assoc, hrun.tokens_eq, tokens_blanks hblank, tokens_blanks hblanks,
      hoffset, Text.byteLength_append, Nat.add_assoc o]
  · rw [h] at htokens
    cases htokens

/-- Behind a text that is scanned without an error, and blanks, the scan goes on as if it started
there: with the same tokens, or with the same error. Where that is shows in the offsets only. -/
theorem scan_append (s w t : String) (k : Nat) (hw : w ≠ "")
    (hblanks : ∀ c ∈ w.toList, c ∈ [' ', '\t', '\r', '\n', '\x0c']) {ts : List Token}
    (h : Token.scan s k = .ok ts) :
    (∃ before, ts = before ++ [⟨.stop, .ofBytes (k + s.utf8ByteSize) (k + s.utf8ByteSize)⟩] ∧
      (∀ after, Token.scan t (k + s.utf8ByteSize + w.utf8ByteSize) = .ok after →
        Token.scan (s ++ w ++ t) k = .ok (before ++ after)) ∧
      ∀ e, Token.scan t (k + s.utf8ByteSize + w.utf8ByteSize) = .error e →
        Token.scan (s ++ w ++ t) k = .error e) ∧
    ∀ n, Token.scan t (k + n) = shifted n (List.map (·.shift n)) (Token.scan t k) := by
  have hskipped : ∀ c ∈ w.toList, isSkipped c = true := fun c hc => isSkipped_of_mem (hblanks c hc)
  refine ⟨?_, fun n => tokens_shift n (ofString t k)⟩
  obtain ⟨before, hts, hscan⟩ := tokens_append hskipped (by simpa using hw) h t.toList
  have happend : Token.scan (s ++ w ++ t) k =
      (Token.scan t (k + s.utf8ByteSize + w.utf8ByteSize)).map (before ++ ·) := by
    rw [Text.utf8ByteSize_eq, Text.utf8ByteSize_eq, Token.scan, ofString, String.toList_append,
      String.toList_append, List.append_assoc]
    exact hscan
  refine ⟨before, by rw [hts, Text.utf8ByteSize_eq], ?_, ?_⟩
  · intro after hafter
    rw [happend, hafter]
    rfl
  · intro e he
    rw [happend, he]
    rfl

/-- A name that a letter would go on with, and code with a blank in it. -/
def frontText : String := " $a b$ x9"

def frontTokens : List Token :=
  [⟨.code "a b", ⟨8, 13⟩⟩, ⟨.name "x9", ⟨14, 16⟩⟩, ⟨.stop, ⟨16, 16⟩⟩]

theorem scan_append_front :
    Token.scan frontText 7 = .ok frontTokens ∧
      Token.scan "9,é" 18 = .error ⟨.unknownSymbol 'é' 20, ⟨20, 22⟩⟩ ∧
      Token.scan (frontText ++ "\r\n" ++ "9,é") 7 = .error ⟨.unknownSymbol 'é' 20, ⟨20, 22⟩⟩ ∧
      Token.scan (frontText ++ "\t" ++ "9") 7 =
        .ok (frontTokens.dropLast ++ [⟨.number 9, ⟨17, 18⟩⟩, ⟨.stop, ⟨18, 18⟩⟩]) := by
  have hfront : Token.scan frontText 7 = .ok frontTokens := by with_unfolding_all rfl
  have herror : Token.scan "9,é" 18 = .error ⟨.unknownSymbol 'é' 20, ⟨20, 22⟩⟩ := by
    with_unfolding_all rfl
  have hnine : Token.scan "9" 17 = .ok [⟨.number 9, ⟨17, 18⟩⟩, ⟨.stop, ⟨18, 18⟩⟩] := by
    with_unfolding_all rfl
  obtain ⟨⟨-, -, -, hfails⟩, -⟩ :=
    scan_append frontText "\r\n" "9,é" 7 (by decide)
      (show ∀ c ∈ ['\r', '\n'], c ∈ _ by simp) hfront
  obtain ⟨⟨before, hbefore, hreads, -⟩, -⟩ :=
    scan_append frontText "\t" "9" 7 (by decide) (show ∀ c ∈ ['\t'], c ∈ _ by simp) hfront
  refine ⟨hfront, herror, hfails _ herror, ?_⟩
  rw [hreads _ hnine, hbefore, List.dropLast_concat]

end Scanner

end NodeRules
