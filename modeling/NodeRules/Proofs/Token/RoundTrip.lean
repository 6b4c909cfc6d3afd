import NodeRules.Proofs.Token.Written

namespace NodeRules.Scanner

section Blanks

variable {blanks : List Char} (h : ∀ c ∈ blanks, isSkipped c = true)

include h

theorem kinds_blanks (rest : List Char) : kinds (blanks ++ rest) = kinds rest := by
  induction blanks with
  | nil => rfl
  | cons c blanks ih =>
      rw [List.cons_append, kinds_skip (h c List.mem_cons_self)]
      exact ih fun d hd => h d (List.mem_cons_of_mem c hd)

theorem apart_blanks (hne : blanks ≠ []) (rest : List Char) : Apart (blanks ++ rest) := by
  obtain ⟨c, blanks, rfl⟩ := List.exists_cons_of_ne_nil hne
  have hc := h c List.mem_cons_self
  refine apart_cons ?_ _
  rw [Bool.eq_false_iff]
  intro hname
  rw [not_isSkipped_of_isNameChar hname] at hc
  cases hc

end Blanks

/-- The written forms of the kinds, with `sep i` between the one at place `i` and the next. -/
def spaced (sep : Nat → String) : List Token.Kind → String
  | [] => ""
  | [kind] => kind.render
  | kind :: next :: more =>
    kind.render ++ sep 0 ++ spaced (fun i => sep (i + 1)) (next :: more)

def Separates (sep : Nat → String) : Prop :=
  ∀ i, sep i ≠ "" ∧ ∀ c ∈ (sep i).toList, c ∈ [' ', '\t', '\r', '\n', '\x0c']

theorem isSkipped_of_mem {c : Char} (h : c ∈ [' ', '\t', '\r', '\n', '\x0c']) :
    isSkipped c = true := by
  simpa [isSkipped, or_assoc] using h

theorem kinds_spaced {sep : Nat → String} (hsep : Separates sep) {ks : List Token.Kind}
    (h : ∀ kind ∈ ks, Legible kind) :
    kinds (spaced sep ks).toList = some (ks ++ [.stop]) := by
  fun_induction spaced sep ks with
  | case1 => exact kinds_nil
  | case2 sep kind => exact (writes_render (h kind List.mem_cons_self)).kinds_eq
  | case3 sep kind next more ih =>
      obtain ⟨hne, hsep₀⟩ := hsep 0
      have hblanks : ∀ c ∈ (sep 0).toList, isSkipped c = true :=
        fun c hc => isSkipped_of_mem (hsep₀ c hc)
      have hmore := ih (fun i => hsep (i + 1)) fun k hk => h k (List.mem_cons_of_mem _ hk)
      rw [String.toList_append, String.toList_append, List.append_assoc,
        writes_render (h kind List.mem_cons_self) _ (apart_blanks hblanks (by simpa using hne) _),
        kinds_blanks hblanks, hmore]
      rfl

/-- The tokens of a text are some that can be written and the end of the line. However blanks are
put between their written forms, the same kinds are read back from them. -/
theorem scan_spaced {source : String} {offset : Nat} {ts : List Token}
    (h : Token.scan source offset = .ok ts) :
    ∃ ks, ts.map Token.kind = ks ++ [.stop] ∧ .stop ∉ ks ∧
      ∀ (sep : Nat → String) (offset' : Nat), Separates sep →
        ∃ ts', Token.scan (spaced sep ks) offset' = .ok ts' ∧
          ts'.map Token.kind = ks ++ [.stop] := by
  obtain ⟨ks, hts, hks⟩ := exists_legible (kinds_of_tokens h)
  refine ⟨ks, hts, fun hstop => (hks _ hstop).ne_stop rfl, ?_⟩
  intro sep offset' hsep
  exact tokens_of_kinds (kinds_spaced hsep hks) offset'

/-- Tokens with little between them: an escape that is none, digits that are not needed, and marks
of text and code within each other. -/
def motley : String := "x9\"\\q\\\"é\\n\"007#07$a\"b$,"

def motleyTokens : List Token :=
  [⟨.name "x9", ⟨0, 2⟩⟩, ⟨.text "q\"é\n", ⟨2, 12⟩⟩, ⟨.number 7, ⟨12, 15⟩⟩,
    ⟨.hole ⟨7, by decide, by decide⟩, ⟨15, 18⟩⟩, ⟨.code "a\"b", ⟨18, 23⟩⟩, ⟨.comma, ⟨23, 24⟩⟩,
    ⟨.stop, ⟨24, 24⟩⟩]

def motleyKinds : List Token.Kind :=
  [.name "x9", .text "q\"é\n", .number 7, .hole ⟨7, by decide, by decide⟩, .code "a\"b", .comma]

def newlines : Nat → String := fun i => if i % 2 = 0 then "\r\n" else "\t"

theorem scan_spaced_motley :
    Token.scan motley 0 = .ok motleyTokens ∧
      motleyTokens.map Token.kind = motleyKinds ++ [.stop] ∧
      spaced newlines motleyKinds = "x9\r\n\"q\\\"é\\n\"\t7\r\n#7\t$a\"b$\r\n," ∧
      ∃ ts, Token.scan (spaced newlines motleyKinds) 0 = .ok ts ∧
        ts.map Token.kind = motleyKinds ++ [.stop] := by
  have htokens : Token.scan motley 0 = .ok motleyTokens := by with_unfolding_all rfl
  have hsep : Separates newlines := by
    intro i
    unfold newlines
    split
    · exact ⟨by decide, show ∀ c ∈ ['\r', '\n'], c ∈ _ by simp⟩
    · exact ⟨by decide, show ∀ c ∈ ['\t'], c ∈ _ by simp⟩
  obtain ⟨ks, hks, -, hscan⟩ := scan_spaced htokens
  obtain rfl : motleyKinds = ks :=
    List.append_cancel_right (show motleyKinds ++ [.stop] = _ from hks)
  exact ⟨htokens, hks, by rfl, hscan newlines 0 hsep⟩

end NodeRules.Scanner
