import NodeRules.Proofs.Separated
import NodeRules.Proofs.Token.Kinds

namespace NodeRules.Scanner

/-- Nothing that a name or a number before it would go on with. -/
def Apart (text : List Char) : Prop := ∀ c ∈ text.head?, isNameChar c = false

/-- The kinds of `text` and of what follows it are `ks` and the kinds of what follows, unless that
goes on with a letter or a digit. -/
def Writes (text : List Char) (ks : List Token.Kind) : Prop :=
  ∀ rest : List Char, Apart rest → kinds (text ++ rest) = (kinds rest).map (ks ++ ·)

theorem apart_nil : Apart [] := by simp [Apart]

theorem apart_cons {c : Char} (h : isNameChar c = false) (text : List Char) :
    Apart (c :: text) := by
  simpa [Apart] using h

theorem Apart.append {text rest : List Char} (h : Apart text) (hrest : Apart rest) :
    Apart (text ++ rest) := by
  cases text with
  | nil => exact hrest
  | cons c text => exact apart_cons (h c rfl) _

section Writes

variable {text more : List Char} {ks ks' : List Token.Kind}

theorem Writes.kinds_eq (h : Writes text ks) : kinds text = some (ks ++ [.stop]) := by
  have := h [] apart_nil
  rwa [List.append_nil, kinds_nil] at this

theorem writes_nil : Writes [] [] := by
  intro rest _
  simp

theorem Writes.append (h : Writes text ks) (hmore : Writes more ks') (hapart : Apart more) :
    Writes (text ++ more) (ks ++ ks') := by
  intro rest hrest
  rw [List.append_assoc, h _ (hapart.append hrest), hmore rest hrest]
  simp [Function.comp_def]

theorem Writes.blank {c : Char} (hc : isSkipped c = true) (h : Writes text ks) :
    Writes (c :: text) ks := by
  intro rest hrest
  rw [List.cons_append, kinds_skip hc, h rest hrest]

theorem Writes.symbol {c : Char} {kind : Token.Kind} (hc : symbol? c = some kind)
    (h : Writes text ks) : Writes (c :: text) (kind :: ks) := by
  intro rest hrest
  rw [List.cons_append, kinds_symbol hc, h rest hrest]
  simp [Function.comp_def]

end Writes

theorem writes_name {name : List Char} (h : IsName name) :
    Writes name [.name (String.ofList name)] :=
  fun _ hrest => kinds_name h hrest

theorem writes_code {body : List Char} (h : '$' ∉ body) :
    Writes ('$' :: body ++ ['$']) [.code (String.ofList body)] := by
  intro rest _
  rw [List.append_assoc, List.singleton_append, kinds_code h]
  rfl

section Digits

theorem toList_toString (n : Nat) : (toString n).toList = Nat.toDigits 10 n := by
  rw [Nat.toString_eq_ofList_toDigits, String.toList_ofList]

theorem decimal_toDigits (n : Nat) : decimal (Nat.toDigits 10 n) = n :=
  Nat.ofDigitChars_ten_toDigits

theorem isDigit_of_mem_toDigits {n : Nat} {c : Char} (h : c ∈ Nat.toDigits 10 n) :
    c.isDigit = true :=
  Nat.isDigit_of_mem_toDigits (by decide) (by decide) h

theorem Apart.not_isDigit {rest : List Char} (h : Apart rest) :
    ∀ c ∈ rest.head?, c.isDigit = false := by
  intro c hc
  have := h c hc
  simp only [isNameChar, Bool.or_eq_false_iff] at this
  exact this.2

theorem lexeme_of_isDigit {c : Char} (h : c.isDigit = true) (o : Nat) (cs : List Char) :
    lexeme o c cs = ⟨number (c :: cs.takeWhile Char.isDigit), c :: cs.takeWhile Char.isDigit,
      cs.dropWhile Char.isDigit⟩ := by
  have hne (d : Char) (hd : d.isDigit = false) : (c == d) = false := by
    rw [beq_eq_false_iff_ne]
    rintro rfl
    rw [hd] at h
    cases h
  simp [lexeme, hne '#' rfl, hne '"' rfl, hne '$' rfl, h]

theorem writes_number {n : Nat} (h : n < numberLimit) : Writes (toString n).toList [.number n] := by
  intro rest hrest
  rw [toList_toString]
  obtain ⟨c, cs, hcs⟩ := List.exists_cons_of_ne_nil (Nat.toDigits_ne_nil (n := n) (b := 10))
  have hdigits : ∀ d ∈ c :: cs, d.isDigit = true := by
    rw [← hcs]
    exact fun d => isDigit_of_mem_toDigits
  have hc := hdigits c List.mem_cons_self
  have htail : ∀ d ∈ cs, d.isDigit = true := fun d hd => hdigits d (List.mem_cons_of_mem c hd)
  have hskip : isSkipped c = false := not_isSkipped_of_isNameChar (by simp [isNameChar, hc])
  have hnumber : number (c :: cs) = .ok (.number n) := by
    rw [← hcs, number, decimal_toDigits, if_pos h]
  -- What follows starts with no digit, so the run of digits ends with the number.
  rw [hcs, List.cons_append, kinds_cons hskip, lexeme_of_isDigit hc,
    takeWhile_run htail hrest.not_isDigit, dropWhile_run htail hrest.not_isDigit, hnumber]
  rfl

theorem writes_hole (h : Hole) : Writes h.render.toList [.hole h] := by
  intro rest hrest
  have hdigits : ∀ d ∈ Nat.toDigits 10 h.number, d.isDigit = true :=
    fun d => isDigit_of_mem_toDigits
  have hhole : hole (Nat.toDigits 10 h.number) = .ok (.hole h) := by
    rw [hole, if_neg (by simp [Nat.toDigits_ne_nil]), decimal_toDigits,
      if_neg (Nat.not_le.mpr h.bounded), Hole.ofNumber?, dif_pos ⟨h.positive, h.bounded⟩]
  have hl : lexeme 0 '#' (Nat.toDigits 10 h.number ++ rest) =
      ⟨.ok (.hole h), '#' :: Nat.toDigits 10 h.number, rest⟩ := by
    simp [lexeme, takeWhile_run hdigits hrest.not_isDigit, dropWhile_run hdigits hrest.not_isDigit,
      hhole]
  have hrender : h.render.toList = '#' :: Nat.toDigits 10 h.number := by
    rw [Hole.render, String.toList_append, toList_toString]
    rfl
  rw [hrender, List.cons_append, kinds_cons rfl, hl]
  rfl

end Digits

theorem writes_text (value : String) : Writes (Text.Quoted.render value).toList [.text value] := by
  intro rest _
  have hl : lexeme 0 '"' (Text.Quoted.encode value.toList ++ '"' :: rest) =
      ⟨.ok (.text value), '"' :: Text.Quoted.encode value.toList ++ ['"'], rest⟩ := by
    simp [lexeme, Text.Quoted.split?_encode, Text.Quoted.decode_encode]
  have hrender : (Text.Quoted.render value).toList ++ rest =
      '"' :: (Text.Quoted.encode value.toList ++ '"' :: rest) := by
    simp [Text.Quoted.render]
  rw [hrender, kinds_cons rfl, hl]
  rfl

theorem writes_render {kind : Token.Kind} (h : Legible kind) :
    Writes kind.render.toList [kind] := by
  cases kind with
  | name value => simpa [Token.Kind.render] using writes_name h
  | number n => exact writes_number h
  | hole number => exact writes_hole number
  | text value => exact writes_text value
  | code value =>
      have hcode := writes_code h
      rw [String.ofList_toList] at hcode
      simpa [Token.Kind.render] using hcode
  | stop => exact h.elim
  | comma | atSign | question | star | bar | leftParen | rightParen | leftAngle | rightAngle =>
      exact writes_nil.symbol rfl

section Lists

variable {α : Type} {written : α → List Char} {ks : α → List Token.Kind} {sep : List Char}
  {k : Token.Kind}

theorem kinds_members (hsep : ∀ rest, kinds (sep ++ rest) = (kinds rest).map (k :: ·))
    (hhead : ∀ rest, ∀ c ∈ (sep ++ rest).head?, isNameChar c = false) (members : List α)
    (h : ∀ a ∈ members, Writes (written a) (ks a)) (rest : List Char) :
    kinds ((members.flatMap fun a => written a ++ sep) ++ rest) =
      (kinds rest).map ((members.flatMap fun a => ks a ++ [k]) ++ ·) := by
  induction members with
  | nil => simp
  | cons a members ih =>
      have ha := h a List.mem_cons_self
      rw [List.flatMap_cons, List.append_assoc, List.append_assoc, ha _ (hhead _), hsep,
        ih (fun b hb => h b (List.mem_cons_of_mem a hb))]
      simp [Function.comp_def]

theorem kinds_list (hsep : ∀ rest, kinds (sep ++ rest) = (kinds rest).map (k :: ·))
    (hhead : ∀ rest, ∀ c ∈ (sep ++ rest).head?, isNameChar c = false) (members : List α) (last : α)
    (h : ∀ a ∈ members, Writes (written a) (ks a)) (hlast : Writes (written last) (ks last)) :
    kinds (sep.intercalate ((members ++ [last]).map written)) =
      some ((members.flatMap fun a => ks a ++ [k]) ++ ks last ++ [.stop]) := by
  rw [List.map_append, List.map_singleton, intercalate_append_cons, List.flatMap_map,
    kinds_members hsep hhead members h, List.intercalate_singleton, hlast.kinds_eq]
  simp

end Lists

theorem kinds_commaSpace (rest : List Char) :
    kinds (", ".toList ++ rest) = (kinds rest).map (.comma :: ·) := by
  rw [show ", ".toList ++ rest = ',' :: ' ' :: rest from rfl, kinds_symbol (c := ',') rfl,
    kinds_space]

theorem kinds_spacedBar (rest : List Char) :
    kinds (" | ".toList ++ rest) = (kinds rest).map (.bar :: ·) := by
  rw [show " | ".toList ++ rest = ' ' :: '|' :: ' ' :: rest from rfl, kinds_space,
    kinds_symbol (c := '|') rfl, kinds_space]

end NodeRules.Scanner
