import Mathlib.Tactic.ByContra
import NodeRules.Token.Scanner

namespace NodeRules.Scanner

def kindsAt (offset : Nat) (cs : List Char) : Option (List Token.Kind) :=
  (Scanner.mk offset cs).tokens.toOption.map (List.map Token.kind)

def kinds (cs : List Char) : Option (List Token.Kind) := kindsAt 0 cs

theorem lexeme_rest (o o' : Nat) (c : Char) (cs : List Char) :
    (lexeme o c cs).rest = (lexeme o' c cs).rest := by
  unfold lexeme
  repeat' split
  all_goals rfl

theorem lexeme_result (o o' : Nat) (c : Char) (cs : List Char) :
    (lexeme o c cs).result.toOption = (lexeme o' c cs).result.toOption := by
  unfold lexeme
  repeat' split
  all_goals rfl

/-- A name as the scanner reads it: letters and digits, a letter first. -/
def IsName (cs : List Char) : Prop := cs.head?.any Char.isAlpha ∧ cs.all isNameChar

theorem not_isSkipped_of_isNameChar {c : Char} (h : isNameChar c = true) : isSkipped c = false := by
  by_contra hs
  simp only [isSkipped, Bool.not_eq_false, Bool.or_eq_true, beq_iff_eq] at hs
  rcases hs with (((rfl | rfl) | rfl) | rfl) | rfl <;> revert h <;> decide

theorem isAlpha_iff {c : Char} : c.isAlpha = true ↔
    65 ≤ c.toNat ∧ c.toNat ≤ 90 ∨ 97 ≤ c.toNat ∧ c.toNat ≤ 122 := by
  delta Char.isAlpha Char.isUpper Char.isLower
  simp only [Bool.or_eq_true, Bool.and_eq_true, decide_eq_true_eq, ge_iff_le,
    UInt32.le_iff_toNat_le]
  rfl

theorem isDigit_iff {c : Char} : c.isDigit = true ↔ 48 ≤ c.toNat ∧ c.toNat ≤ 57 := by
  simp only [Char.isDigit, Bool.and_eq_true, decide_eq_true_eq, ge_iff_le, UInt32.le_iff_toNat_le]
  rfl

theorem not_isDigit_of_isAlpha {c : Char} (h : c.isAlpha = true) : c.isDigit = false := by
  rw [isAlpha_iff] at h
  rw [Bool.eq_false_iff, ne_eq, isDigit_iff]
  omega

theorem lexeme_of_isAlpha {c : Char} (h : c.isAlpha = true) (o : Nat) (cs : List Char) :
    lexeme o c cs = ⟨.ok (.name (String.ofList (c :: cs.takeWhile isNameChar))),
      c :: cs.takeWhile isNameChar, cs.dropWhile isNameChar⟩ := by
  have hne (d : Char) (hd : d.isAlpha = false) : (c == d) = false := by
    rw [beq_eq_false_iff_ne]
    rintro rfl
    rw [hd] at h
    cases h
  simp [lexeme, hne '#' rfl, hne '"' rfl, hne '$' rfl, not_isDigit_of_isAlpha h, h]

def Legible : Token.Kind → Prop
  | .name value => IsName value.toList
  | .number n => n < numberLimit
  | .code value => '$' ∉ value.toList
  | .stop => False
  | _ => True

theorem legible_of_hole {digits : List Char} {kind : Token.Kind} (h : hole digits = .ok kind) :
    Legible kind := by
  unfold hole at h
  split at h
  · cases h
  split at h
  · cases h
  split at h <;> cases h
  trivial

theorem legible_of_number {digits : List Char} {kind : Token.Kind}
    (h : number digits = .ok kind) : Legible kind := by
  unfold number at h
  split at h <;> cases h
  assumption

theorem legible_of_symbol? {c : Char} {kind : Token.Kind} (h : symbol? c = some kind) :
    Legible kind := by
  unfold symbol? at h
  split at h <;> cases h <;> trivial

theorem not_mem_of_splitCode? {cs body rest : List Char} (h : splitCode? cs = some (body, rest)) :
    '$' ∉ body := by
  fun_induction splitCode? cs generalizing body rest with
  | case1 => cases h
  | case2 cs =>
      cases h
      simp
  | case3 c cs hc ih =>
      obtain ⟨⟨b, r⟩, hr, he⟩ := Option.map_eq_some_iff.mp h
      cases he
      simpa [ih hr] using fun he : '$' = c => hc he.symm

theorem legible_of_lexeme {o : Nat} {c : Char} {cs : List Char} {kind : Token.Kind}
    (h : (lexeme o c cs).result = .ok kind) : Legible kind := by
  unfold lexeme at h
  split at h
  · exact legible_of_hole h
  split at h
  · split at h <;> cases h
    trivial
  split at h
  · split at h <;> cases h
    rename_i hsplit
    simpa [Legible] using not_mem_of_splitCode? hsplit
  split at h
  · exact legible_of_number h
  split at h
  · rename_i halpha
    cases h
    refine ⟨by simpa using halpha, ?_⟩
    simp only [String.toList_ofList, List.all_cons, Bool.and_eq_true]
    exact ⟨by simp [isNameChar, halpha], List.all_takeWhile⟩
  split at h <;> cases h
  rename_i hsymbol
  exact legible_of_symbol? hsymbol

theorem Legible.ne_stop {kind : Token.Kind} (h : Legible kind) : kind ≠ .stop := by
  rintro rfl
  exact h

theorem tokens_of_error {s s' : Scanner} {e : ScanError} (h : s.next = (.error e, s')) :
    s.tokens = .error e := by
  rw [tokens]
  split
  · rename_i heq
    rw [h] at heq
    cases heq
    rfl
  · rename_i heq
    rw [h] at heq
    cases heq

theorem tokens_of_stop {s s' : Scanner} {t : Token} (h : s.next = (.ok t, s'))
    (ht : t.kind = .stop) : s.tokens = .ok [t] := by
  rw [tokens]
  split
  · rename_i heq
    rw [h] at heq
    cases heq
  · rename_i heq
    rw [h] at heq
    cases heq
    simp [ht]

theorem tokens_of_ok {s s' : Scanner} {t : Token} (h : s.next = (.ok t, s'))
    (ht : t.kind ≠ .stop) : s.tokens = s'.tokens.map (t :: ·) := by
  rw [tokens]
  split
  · rename_i heq
    rw [h] at heq
    cases heq
  · rename_i heq
    rw [h] at heq
    cases heq
    simp only [ht, ↓reduceDIte]
    cases s'.tokens <;> rfl

theorem next_skip {c : Char} (h : isSkipped c = true) (o : Nat) (cs : List Char) :
    (Scanner.mk o (c :: cs)).next = (Scanner.mk (o + c.utf8Size) cs).next := by
  have hskip : (Scanner.mk o (c :: cs)).skip = (Scanner.mk (o + c.utf8Size) cs).skip := by
    simp [skip, h, Text.byteLength, Nat.add_assoc]
  unfold next
  rw [hskip]

theorem tokens_eq_of_next {s s' : Scanner} (h : s.next = s'.next) : s.tokens = s'.tokens := by
  cases hn : s'.next with
  | mk result rest =>
      rw [hn] at h
      cases result with
      | error e => rw [tokens_of_error h, tokens_of_error hn]
      | ok t =>
          by_cases ht : t.kind = .stop
          · rw [tokens_of_stop h ht, tokens_of_stop hn ht]
          · rw [tokens_of_ok h ht, tokens_of_ok hn ht]

theorem kindsAt_nil (o : Nat) : kindsAt o [] = some [.stop] := by
  have hnext : (Scanner.mk o []).next = (.ok ⟨.stop, .ofBytes o o⟩, ⟨o, []⟩) := rfl
  rw [kindsAt, tokens_of_stop hnext rfl]
  rfl

theorem kindsAt_skip {c : Char} (h : isSkipped c = true) (o : Nat) (cs : List Char) :
    kindsAt o (c :: cs) = kindsAt (o + c.utf8Size) cs := by
  unfold kindsAt
  rw [tokens_eq_of_next (next_skip h o cs)]

theorem kindsAt_cons {c : Char} (h : isSkipped c = false) (o : Nat) (cs : List Char) :
    kindsAt o (c :: cs) = (lexeme o c cs).result.toOption.bind fun kind =>
      (kindsAt (o + Text.byteLength (lexeme o c cs).taken) (lexeme o c cs).rest).map
        (kind :: ·) := by
  have hskip : (Scanner.mk o (c :: cs)).skip = ⟨o, c :: cs⟩ := by
    simp [skip, h, Text.byteLength]
  unfold kindsAt
  cases hl : (lexeme o c cs).result with
  | error cause =>
      have hnext : (Scanner.mk o (c :: cs)).next = (.error ⟨cause, cause.bytes o
          (o + Text.byteLength (lexeme o c cs).taken)⟩, ⟨o + Text.byteLength
          (lexeme o c cs).taken, (lexeme o c cs).rest⟩) := by
        simp [next, hskip, hl]
      rw [tokens_of_error hnext]
      rfl
  | ok kind =>
      have hkind : kind ≠ .stop := (legible_of_lexeme hl).ne_stop
      have hnext : (Scanner.mk o (c :: cs)).next = (.ok ⟨kind, Span.ofBytes o
          (o + Text.byteLength (lexeme o c cs).taken)⟩, ⟨o + Text.byteLength
          (lexeme o c cs).taken, (lexeme o c cs).rest⟩) := by
        simp [next, hskip, hl]
      rw [tokens_of_ok hnext hkind]
      cases (Scanner.mk (o + Text.byteLength (lexeme o c cs).taken)
        (lexeme o c cs).rest).tokens <;> rfl

/-- Induction along the lexemes of a text. -/
theorem lexeme_induction {P : List Char → Prop} (nil : P [])
    (skip : ∀ c cs, isSkipped c = true → P cs → P (c :: cs))
    (token : ∀ c cs, isSkipped c = false → P (lexeme 0 c cs).rest → P (c :: cs))
    (cs : List Char) : P cs := by
  suffices h : ∀ n (cs : List Char), cs.length ≤ n → P cs from h cs.length cs (Nat.le_refl _)
  intro n
  induction n with
  | zero =>
      intro cs hn
      obtain rfl := List.eq_nil_of_length_eq_zero (Nat.le_zero.mp hn)
      exact nil
  | succ n ih =>
      intro cs hn
      cases cs with
      | nil => exact nil
      | cons c cs =>
          have hlen : cs.length ≤ n := by simpa using hn
          cases hc : isSkipped c with
          | true => exact skip c cs hc (ih cs hlen)
          | false => exact token c cs hc (ih _ (Nat.le_trans (length_lexeme 0 c cs) hlen))

theorem kindsAt_offset (o o' : Nat) (cs : List Char) : kindsAt o cs = kindsAt o' cs := by
  induction cs using lexeme_induction generalizing o o' with
  | nil => rw [kindsAt_nil, kindsAt_nil]
  | skip c cs hc ih =>
      rw [kindsAt_skip hc, kindsAt_skip hc]
      exact ih _ _
  | token c cs hc ih =>
      rw [kindsAt_cons hc, kindsAt_cons hc, lexeme_result o o', lexeme_rest o 0, lexeme_rest o' 0]
      congr 1
      funext kind
      rw [ih]

theorem kindsAt_eq_kinds (o : Nat) (cs : List Char) : kindsAt o cs = kinds cs :=
  kindsAt_offset o 0 cs

theorem kinds_nil : kinds [] = some [.stop] := kindsAt_nil 0

theorem kinds_skip {c : Char} (h : isSkipped c = true) (cs : List Char) :
    kinds (c :: cs) = kinds cs := by
  rw [kinds, kindsAt_skip h, kindsAt_eq_kinds]

theorem kinds_cons {c : Char} (h : isSkipped c = false) (cs : List Char) :
    kinds (c :: cs) = (lexeme 0 c cs).result.toOption.bind fun kind =>
      (kinds (lexeme 0 c cs).rest).map (kind :: ·) := by
  rw [kinds, kindsAt_cons h]
  simp only [kindsAt_eq_kinds]

theorem kinds_of_tokens {o : Nat} {cs : List Char} {ts : List Token}
    (h : (Scanner.mk o cs).tokens = .ok ts) : kinds cs = some (ts.map Token.kind) := by
  rw [← kindsAt_eq_kinds o, kindsAt, h]
  rfl

theorem tokens_of_kinds {cs : List Char} {ks : List Token.Kind} (h : kinds cs = some ks)
    (o : Nat) : ∃ ts, (Scanner.mk o cs).tokens = .ok ts ∧ ts.map Token.kind = ks := by
  rw [← kindsAt_eq_kinds o, kindsAt] at h
  cases ht : (Scanner.mk o cs).tokens with
  | error e => simp [ht, Except.toOption] at h
  | ok ts => exact ⟨ts, rfl, by simpa [ht, Except.toOption] using h⟩

section Run

variable {p : Char → Bool} {run rest : List Char}

theorem takeWhile_run (hrun : ∀ c ∈ run, p c = true) (hrest : ∀ c ∈ rest.head?, p c = false) :
    (run ++ rest).takeWhile p = run := by
  rw [List.takeWhile_append_of_pos hrun]
  cases rest with
  | nil => simp
  | cons c rest => simp [hrest c rfl]

theorem dropWhile_run (hrun : ∀ c ∈ run, p c = true) (hrest : ∀ c ∈ rest.head?, p c = false) :
    (run ++ rest).dropWhile p = rest := by
  rw [List.dropWhile_append_of_pos hrun]
  cases rest with
  | nil => rfl
  | cons c rest => simp [hrest c rfl]

end Run

theorem kinds_name {name rest : List Char} (hname : IsName name)
    (hrest : ∀ c ∈ rest.head?, isNameChar c = false) :
    kinds (name ++ rest) = (kinds rest).map (.name (String.ofList name) :: ·) := by
  cases name with
  | nil => cases hname.1
  | cons c cs =>
      have halpha : c.isAlpha = true := by simpa using hname.1
      have hall : ∀ d ∈ c :: cs, isNameChar d = true := List.all_eq_true.mp hname.2
      have htail : ∀ d ∈ cs, isNameChar d = true := fun d hd => hall d (List.mem_cons_of_mem c hd)
      rw [List.cons_append, kinds_cons (not_isSkipped_of_isNameChar (hall c List.mem_cons_self)),
        lexeme_of_isAlpha halpha, takeWhile_run htail hrest, dropWhile_run htail hrest]
      rfl

theorem splitCode?_append {body rest : List Char} (h : '$' ∉ body) :
    splitCode? (body ++ '$' :: rest) = some (body, rest) := by
  induction body with
  | nil => rfl
  | cons c cs ih =>
      simp only [List.mem_cons, not_or] at h
      rw [List.cons_append, splitCode?.eq_3 _ _ (fun he => h.1 he.symm), ih h.2]
      rfl

theorem splitCode?_eq_none {body : List Char} (h : '$' ∉ body) : splitCode? body = none := by
  induction body with
  | nil => rfl
  | cons c cs ih =>
      simp only [List.mem_cons, not_or] at h
      rw [splitCode?.eq_3 _ _ (fun he => h.1 he.symm), ih h.2]
      rfl

theorem kinds_code {body rest : List Char} (h : '$' ∉ body) :
    kinds ('$' :: body ++ '$' :: rest) = (kinds rest).map (.code (String.ofList body) :: ·) := by
  have hl : lexeme 0 '$' (body ++ '$' :: rest) =
      ⟨.ok (.code (String.ofList body)), '$' :: body ++ ['$'], rest⟩ := by
    simp [lexeme, splitCode?_append h]
  rw [List.cons_append, kinds_cons rfl, hl]
  rfl

theorem kinds_open_code {body : List Char} (h : '$' ∉ body) : kinds ('$' :: body) = none := by
  have hl : lexeme 0 '$' body = ⟨.error .unterminatedCode, '$' :: body, []⟩ := by
    simp [lexeme, splitCode?_eq_none h]
  rw [kinds_cons rfl, hl]
  rfl

theorem kinds_symbol {c : Char} {kind : Token.Kind} (h : symbol? c = some kind)
    (rest : List Char) : kinds (c :: rest) = (kinds rest).map (kind :: ·) := by
  unfold symbol? at h
  split at h <;> cases h <;> exact kinds_cons rfl rest

theorem kinds_space (rest : List Char) : kinds (' ' :: rest) = kinds rest :=
  kinds_skip rfl rest

theorem kinds_zero : kinds ['0'] = some [.number 0, .stop] := by
  rw [kinds_cons rfl, show (lexeme 0 '0' []).rest = [] from rfl, kinds_nil]
  rfl

/-- The kinds of a text end with the end of the line, and all before can be read. -/
theorem exists_legible {cs : List Char} {ks : List Token.Kind} (h : kinds cs = some ks) :
    ∃ init, ks = init ++ [.stop] ∧ ∀ kind ∈ init, Legible kind := by
  induction cs using lexeme_induction generalizing ks with
  | nil =>
      rw [kinds_nil] at h
      cases h
      exact ⟨[], rfl, by simp⟩
  | skip c cs hc ih =>
      rw [kinds_skip hc] at h
      exact ih h
  | token c cs hc ih =>
      rw [kinds_cons hc] at h
      obtain ⟨kind, hkind, h⟩ := Option.bind_eq_some_iff.mp h
      obtain ⟨more, hmore, rfl⟩ := Option.map_eq_some_iff.mp h
      obtain ⟨init, rfl, hinit⟩ := ih hmore
      refine ⟨kind :: init, rfl, ?_⟩
      cases hl : (lexeme 0 c cs).result with
      | error cause => rw [hl] at hkind; cases hkind
      | ok result =>
          rw [hl] at hkind
          cases hkind
          exact List.forall_mem_cons.mpr ⟨legible_of_lexeme hl, hinit⟩

theorem isName_of_mem_kinds {cs : List Char} {ks : List Token.Kind} {name : String}
    (h : kinds cs = some ks) (hname : .name name ∈ ks) : IsName name.toList := by
  obtain ⟨init, rfl, hinit⟩ := exists_legible h
  simp only [List.mem_append, List.mem_singleton, reduceCtorEq, or_false] at hname
  exact hinit _ hname

end NodeRules.Scanner
