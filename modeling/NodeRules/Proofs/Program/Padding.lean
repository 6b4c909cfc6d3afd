import Mathlib.Data.List.TakeWhile
import NodeRules.Proofs.Program.ErrorPlaces
import NodeRules.Proofs.Program.Lines
import NodeRules.Proofs.Rule.Kinds

namespace NodeRules

open ReadError (Agree)

namespace Text

theorem isBlank_of_isSkipped {c : Char} (h : Scanner.isSkipped c = true) : isBlank c = true := by
  simp only [Scanner.isSkipped, Bool.or_eq_true, beq_iff_eq] at h
  rcases h with (((rfl | rfl) | rfl) | rfl) | rfl <;> decide

section Trim

variable {blanks : List Char} (hblanks : ∀ c ∈ blanks, isBlank c = true)

include hblanks

theorem trim_blanks_append (cs : List Char) : trim (blanks ++ cs) = trim cs := by
  rw [trim, trimStart, List.dropWhile_append_of_pos hblanks, trim, trimStart]

theorem trim_append_blanks (cs : List Char) : trim (cs ++ blanks) = trim cs := by
  rw [trim, trimStart, List.dropWhile_append]
  split
  · rename_i hempty
    have hnil : blanks.dropWhile isBlank = [] := List.dropWhile_eq_nil_iff.mpr hblanks
    rw [hnil, trim, trimStart, List.isEmpty_iff.mp hempty]
  · have hback : ∀ c ∈ blanks.reverse, isBlank c = true := by simpa using hblanks
    rw [trimEnd, List.reverse_append, List.dropWhile_append_of_pos hback]
    rfl

end Trim

namespace Quoted

theorem split?_eq_none {cs : List Char} (h : '"' ∉ cs) : split? cs = none := by
  cases hsplit : split? cs with
  | none => rfl
  | some cut =>
      rw [eq_of_split? hsplit] at h
      simp at h

theorem split?_append_eq_none {cs more : List Char} (h : split? cs = none) (hmore : '"' ∉ more) :
    split? (cs ++ more) = none := by
  fun_induction split? cs with
  | case1 => exact split?_eq_none hmore
  | case2 => cases h
  | case3 => exact split?_eq_none (by simpa using hmore)
  | case4 c cs ih =>
      rw [List.cons_append, List.cons_append, split?, ih (Option.map_eq_none_iff.mp h)]
      rfl
  | case5 c cs hquote hlast hescape ih =>
      rw [List.cons_append, split?_cons hquote (ne_backslash hlast hescape),
        ih (Option.map_eq_none_iff.mp h)]
      rfl

end Quoted

end Text

namespace Scanner

theorem not_mem_of_isSkipped {blanks : List Char} (h : ∀ b ∈ blanks, isSkipped b = true) {c : Char}
    (hc : isSkipped c = false) : c ∉ blanks := by
  intro hmem
  rw [h c hmem] at hc
  cases hc

theorem dollar_not_mem_of_splitCode? {cs : List Char} (h : splitCode? cs = none) : '$' ∉ cs := by
  intro hmem
  obtain ⟨body, rest, rfl, hbody⟩ := List.eq_append_cons_of_mem hmem
  rw [splitCode?_append hbody] at h
  cases h

def reading (s : Scanner) : Except Code (List Token.Kind) :=
  match s.tokens with
  | .ok ts => .ok (ts.map Token.kind)
  | .error e => .error e.cause.code

theorem reading_offset (o : Nat) (cs : List Char) :
    (Scanner.mk o cs).reading = (Scanner.mk 0 cs).reading := by
  have hshift : Scanner.mk o cs = (Scanner.mk 0 cs).shift o := by rw [shift, Nat.zero_add]
  rw [hshift, reading, tokens_shift, reading]
  cases (Scanner.mk 0 cs).tokens with
  | ok ts => simp [shifted, Token.shift]
  | error e =>
      obtain ⟨cause, span⟩ := e
      cases cause <;> rfl

section Blanks

variable {blanks : List Char} (hblanks : ∀ b ∈ blanks, isSkipped b = true)

include hblanks

theorem reading_blanks_append (o : Nat) (cs : List Char) :
    (Scanner.mk o (blanks ++ cs)).reading = (Scanner.mk o cs).reading := by
  rw [reading, tokens_blanks hblanks, ← reading, reading_offset, reading_offset o]

theorem replaces_append_blanks (rest : List Char) : Replaces rest (rest ++ blanks) := by
  refine replaces_append ?_ rest
  by_cases hne : blanks = []
  · rw [hne]
    exact apart_nil
  · simpa using apart_blanks hblanks hne []

theorem takeWhile_append_blanks {p : Char → Bool} (hp : ∀ c, p c = true → isNameChar c = true)
    (cs : List Char) : (cs ++ blanks).takeWhile p = cs.takeWhile p := by
  conv_lhs => rw [← List.takeWhile_append_dropWhile (p := p) (l := cs), List.append_assoc]
  exact (replaces_append_blanks hblanks _).takeWhile_eq hp

/-- Blanks behind an error do not mend it: no digit, quote or dollar sign is among them. -/
theorem lexeme_error_append (o : Nat) (c : Char) (cs : List Char) {cause : ScanError.Cause} :
    (lexeme o c cs).result = .error cause →
      (lexeme o c (cs ++ blanks)).result = .error cause := by
  fun_cases lexeme o c cs with
  | case1 hhash digits =>
      intro h
      rw [lexeme, if_pos hhash, takeWhile_append_blanks hblanks isNameChar_of_isDigit]
      exact h
  | case3 hhash hquote hsplit =>
      have hopen := Text.Quoted.split?_append_eq_none hsplit (not_mem_of_isSkipped hblanks rfl)
      intro h
      rw [lexeme, if_neg hhash, if_pos hquote, hopen]
      exact h
  | case5 hhash hquote hdollar hsplit =>
      have hdollars : '$' ∉ blanks := not_mem_of_isSkipped hblanks rfl
      have hopen : splitCode? (cs ++ blanks) = none :=
        splitCode?_eq_none (by simp [dollar_not_mem_of_splitCode? hsplit, hdollars])
      intro h
      rw [lexeme, if_neg hhash, if_neg hquote, if_pos hdollar, hopen]
      exact h
  | case6 hhash hquote hdollar hdigit digits =>
      intro h
      rw [lexeme_of_isDigit hdigit, takeWhile_append_blanks hblanks isNameChar_of_isDigit]
      exact h
  | case9 hhash hquote hdollar hdigit halpha hsymbol =>
      intro h
      simp only [lexeme, hhash, hquote, hdollar, hdigit, halpha, hsymbol]
      exact h
  | case2 | case4 | case7 | case8 =>
      intro h
      cases h

theorem next_error_append {s s' : Scanner} {e : ScanError} (h : s.next = (.error e, s')) :
    ∃ e' s'', (Scanner.mk s.offset (s.rest ++ blanks)).next = (.error e', s'') ∧
      e'.cause = e.cause := by
  obtain hblank | ⟨front, c, cs, hfront, hc, hs⟩ := s.blank_or_cons
  · rw [next_of_blank hblank] at h
    cases h
  rw [hs, next_eq hfront hc, Prod.mk.injEq] at h
  obtain ⟨hresult, -⟩ := Lexeme.placed_eq_error h.1
  have herror := lexeme_error_append hblanks _ c cs hresult
  have hrest : s.rest ++ blanks = front ++ c :: (cs ++ blanks) := by
    rw [congrArg Scanner.rest hs, List.append_assoc, List.cons_append]
  rw [hrest, next_eq hfront hc, Lexeme.placed, herror]
  exact ⟨_, _, rfl, rfl⟩

theorem reading_append_blanks (o : Nat) (cs : List Char) :
    (Scanner.mk o (cs ++ blanks)).reading = (Scanner.mk o cs).reading := by
  -- The tokens in front of the end, or in front of the error, are read as before.
  have hrun {ts : List Token} {s' : Scanner} (h : Scans (Scanner.mk o cs) ts s') :
      Scans ⟨o, cs ++ blanks⟩ ts ⟨s'.offset, s'.rest ++ blanks⟩ := by
    obtain ⟨consumed, hrest, -, hreplace⟩ := h.replace
    have hcs : cs = consumed ++ s'.rest := hrest
    rw [hcs, List.append_assoc]
    exact hreplace _ (replaces_append_blanks hblanks s'.rest)
  rcases (Scanner.mk o cs).tokens_cases with ⟨ts, s', hscans, hblank, htokens⟩ |
    ⟨ts, s', e, s'', hscans, hnext, htokens⟩
  · have hall : ∀ c ∈ s'.rest ++ blanks, isSkipped c = true :=
      List.forall_mem_append.mpr ⟨hblank, hblanks⟩
    have hend := tokens_of_stop (next_of_blank (s := ⟨s'.offset, s'.rest ++ blanks⟩) hall) rfl
    rw [reading, (hrun hscans).tokens_eq, hend, reading, htokens]
    simp [Except.map]
  · obtain ⟨e', s₂, hnext', hcause⟩ := next_error_append hblanks hnext
    rw [reading, (hrun hscans).tokens_eq, tokens_of_error hnext', reading, htokens]
    exact congrArg (fun cause => Except.error cause.code) hcause

end Blanks

theorem tokens_agree {s s' : Scanner} (h : s.reading = s'.reading) :
    Agree (fun ts ts' => ts.map Token.kind = ts'.map Token.kind) (s.tokens.mapError .ofScan)
      (s'.tokens.mapError .ofScan) := by
  rw [reading, reading] at h
  cases hs : s.tokens with
  | ok ts =>
      cases hs' : s'.tokens with
      | ok ts' =>
          rw [hs, hs'] at h
          exact .ok (Except.ok.inj h)
      | error e' =>
          rw [hs, hs'] at h
          cases h
  | error e =>
      cases hs' : s'.tokens with
      | ok ts' =>
          rw [hs, hs'] at h
          cases h
      | error e' =>
          rw [hs, hs'] at h
          exact .error (Except.error.inj h)

end Scanner

theorem splitArrow?_front {front : List Char} (h : '<' ∉ front) (cs : List Char) :
    splitArrow? (front ++ cs) =
      (splitArrow? cs).map fun (left, right) => (front ++ left, right) := by
  induction front with
  | nil => cases h : splitArrow? cs <;> simp [h]
  | cons c front ih =>
      simp only [List.mem_cons, not_or] at h
      rw [List.cons_append, splitArrow?.eq_3 _ _ (fun _ he => absurd he.symm h.1), ih h.2,
        Option.map_map]
      rfl

theorem splitArrow?_back {back : List Char} (hangle : '<' ∉ back) (hdash : '-' ∉ back)
    (cs : List Char) :
    splitArrow? (cs ++ back) = (splitArrow? cs).map fun (left, right) => (left, right ++ back) := by
  fun_induction splitArrow? cs with
  | case1 => exact splitArrow?_eq_none hangle
  | case2 cs => rfl
  | case3 c cs hne ih =>
      -- The first blank could only complete an arrow if it were a dash.
      have hno : ∀ more, c = '<' → cs ++ back = '-' :: more → False := by
        intro more hc hmore
        cases cs with
        | nil =>
            rw [List.nil_append] at hmore
            rw [hmore] at hdash
            exact hdash List.mem_cons_self
        | cons d cs =>
            obtain ⟨rfl, -⟩ := List.cons.inj hmore
            exact hne cs hc rfl
      rw [List.cons_append, splitArrow?.eq_3 _ _ hno, ih, Option.map_map, Option.map_map]
      rfl

namespace Rule

theorem readName_of_kinds {ts : List Token} {name : String} {ks : List Token.Kind}
    (h : ts.map Token.kind = .name name :: .stop :: ks) :
    ∃ span, readName ts = .ok (name, span) := by
  obtain ⟨⟨kind, span⟩, ts, rfl, hkind, h⟩ := List.map_eq_cons_iff.mp h
  obtain ⟨⟨kind', span'⟩, ts, rfl, hkind', -⟩ := List.map_eq_cons_iff.mp h
  cases hkind
  cases hkind'
  exact ⟨span, rfl⟩

theorem kinds_of_readName {ts : List Token} {name : String} {span : Span}
    (h : readName ts = .ok (name, span)) :
    ∃ ks, ts.map Token.kind = .name name :: .stop :: ks := by
  unfold readName at h
  split at h
  · cases h
    exact ⟨_, rfl⟩
  · cases h
  · cases h

theorem readName_agree {ts ts' : List Token} (h : ts.map Token.kind = ts'.map Token.kind) :
    Agree (fun a b => a.1 = b.1) (readName ts) (readName ts') := by
  cases hread : readName ts with
  | ok named =>
      obtain ⟨ks, hks⟩ := kinds_of_readName hread
      obtain ⟨span, hread'⟩ := readName_of_kinds (h ▸ hks)
      rw [hread']
      exact .ok rfl
  | error e =>
      cases hread' : readName ts' with
      | ok named =>
          obtain ⟨ks, hks⟩ := kinds_of_readName hread'
          obtain ⟨span, hsome⟩ := readName_of_kinds (h.trans hks)
          rw [hread] at hsome
          cases hsome
      | error e' =>
          obtain ⟨⟨found, he⟩, -⟩ := readName_fails hread
          obtain ⟨⟨found', he'⟩, -⟩ := readName_fails hread'
          exact .error (by rw [he, he']; rfl)

end Rule

section Line

variable {front back : List Char} (hfront : ∀ c ∈ front, Scanner.isSkipped c = true)
  (hback : ∀ c ∈ back, Scanner.isSkipped c = true)

include hfront hback

theorem splitArrow?_padded (line : List Char) :
    splitArrow? (front ++ (line ++ back)) =
      (splitArrow? line).map fun (left, right) => (front ++ left, right ++ back) := by
  rw [splitArrow?_front (Scanner.not_mem_of_isSkipped hfront rfl),
    splitArrow?_back (Scanner.not_mem_of_isSkipped hback rfl)
      (Scanner.not_mem_of_isSkipped hback rfl), Option.map_map]
  rfl

theorem LineKind.ofLine_padded (line : List Char) :
    ofLine (front ++ (line ++ back)) = ofLine line := by
  rw [ofLine, Text.trim_blanks_append fun c hc => Text.isBlank_of_isSkipped (hfront c hc),
    Text.trim_append_blanks fun c hc => Text.isBlank_of_isSkipped (hback c hc), ofLine]

theorem Rule.ofLine_padded (line : List Char) :
    Agree (· = ·) (ofLine (front ++ (line ++ back))) (ofLine line) := by
  rw [ofLine, ofLine, splitArrow?_padded hfront hback]
  cases splitArrow? line with
  | none => exact .error rfl
  | some sides =>
      obtain ⟨left, right⟩ := sides
      have hleft : (Scanner.mk 0 (front ++ left)).reading = (Scanner.mk 0 left).reading :=
        Scanner.reading_blanks_append hfront 0 left
      refine (Scanner.tokens_agree hleft).bind fun ts ts' hts => ?_
      refine (readName_agree hts).bind ?_
      rintro ⟨name, span⟩ ⟨name', span'⟩ rfl
      refine (Scanner.tokens_agree ?_).bind fun us us' hus => ofTokens_agree name span span' hus
      rw [Scanner.reading_append_blanks hback, Scanner.reading_offset,
        Scanner.reading_offset (Text.byteLength left + 2)]

end Line

namespace ProgramReader

/-- Blanks around a line do not change what it does: it adds the same entry and leads to the same
reader, or it fails with an error of the same code. -/
theorem feed_padded (r : ProgramReader) (line a b : String)
    (ha : ∀ c ∈ a.toList, c ∈ [' ', '\t', '\r', '\n', '\x0c'])
    (hb : ∀ c ∈ b.toList, c ∈ [' ', '\t', '\r', '\n', '\x0c']) :
    (∃ added r', r.feed (a ++ line ++ b) = (.ok added, r') ∧ r.feed line = (.ok added, r')) ∨
    ∃ e e' r', r.feed (a ++ line ++ b) = (.error e, r') ∧ r.feed line = (.error e', r') ∧
      e.diagnostic.code = e'.diagnostic.code ∧ e.line = e'.line ∧
      r'.program = r.program ∧ r'.language = r.language := by
  have hfront : ∀ c ∈ a.toList, Scanner.isSkipped c = true :=
    fun c hc => Scanner.isSkipped_of_mem (ha c hc)
  have hback : ∀ c ∈ b.toList, Scanner.isSkipped c = true :=
    fun c hc => Scanner.isSkipped_of_mem (hb c hc)
  have htext : (a ++ line ++ b).toList = a.toList ++ (line.toList ++ b.toList) := by
    rw [String.toList_append, String.toList_append, List.append_assoc]
  unfold feed
  dsimp only
  rw [htext, LineKind.ofLine_padded hfront hback]
  cases LineKind.ofLine line.toList with
  | blank => exact .inl ⟨_, _, rfl, rfl⟩
  | language name =>
      dsimp only
      split
      · exact .inl ⟨_, _, rfl, rfl⟩
      · exact .inr ⟨_, _, _, rfl, rfl, rfl, rfl, rfl, rfl⟩
  | rule =>
      have hrule := Rule.ofLine_padded hfront hback line.toList
      dsimp only
      generalize Rule.ofLine (a.toList ++ (line.toList ++ b.toList)) = padded at hrule ⊢
      generalize Rule.ofLine line.toList = plain at hrule ⊢
      cases hrule with
      | @ok rule _ h =>
          subst h
          exact .inl ⟨_, _, rfl, rfl⟩
      | error h => exact .inr ⟨_, _, _, rfl, rfl, h, rfl, rfl, rfl⟩

/-- A line that ends inside a quoted text, behind a backslash. -/
def openLine : String := "Text <- $a$, \"b\\"

def javaReader : ProgramReader := ⟨.empty, "java", 4⟩

theorem feed_padded_open :
    (∃ e r', javaReader.feed ("\t " ++ openLine ++ "\x0c\r\n") = (.error e, r') ∧
      e.diagnostic.code = .unterminatedText ∧ r'.program = .empty ∧ r'.language = "java") ∧
    ∃ r', javaReader.feed ("\n" ++ "Leaf<-0" ++ " ") =
      (.ok (some ⟨"java", .node (.ordinary "Leaf" [.empty])⟩), r') := by
  have hopen : javaReader.feed openLine =
      (.error ⟨.scan ⟨.unterminatedText, ⟨13, 16⟩⟩, ⟨13, 16⟩, 5⟩, ⟨.empty, "java", 5⟩) := by
    with_unfolding_all rfl
  have hleaf : (javaReader.feed "Leaf<-0").1 =
      .ok (some ⟨"java", .node (.ordinary "Leaf" [.empty])⟩) := by with_unfolding_all rfl
  constructor
  · rcases feed_padded javaReader openLine "\t " "\x0c\r\n"
      (show ∀ c ∈ ['\t', ' '], c ∈ _ by simp) (show ∀ c ∈ ['\x0c', '\r', '\n'], c ∈ _ by simp) with
      ⟨added, r', -, h⟩ | ⟨e, e', r', hpadded, h, hcode, -, hprogram, hlanguage⟩
    · rw [hopen] at h
      cases h
    · rw [hopen] at h
      cases h
      exact ⟨e, _, hpadded, hcode, hprogram, hlanguage⟩
  · rcases feed_padded javaReader "Leaf<-0" "\n" " " (show ∀ c ∈ ['\n'], c ∈ _ by simp)
      (show ∀ c ∈ [' '], c ∈ _ by simp) with
      ⟨added, r', hpadded, h⟩ | ⟨e, e', r', -, h, -⟩
    · rw [h] at hleaf
      rw [hpadded, ← hleaf]
      exact ⟨r', rfl⟩
    · rw [h] at hleaf
      cases hleaf

end ProgramReader

end NodeRules
