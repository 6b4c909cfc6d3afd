namespace NodeRules.Text.Quoted

def unescape (c : Char) : Char :=
  match c with
  | 'n' => '\n'
  | 'r' => '\r'
  | 't' => '\t'
  | c => c

def escape (c : Char) : List Char :=
  match c with
  | '\n' => ['\\', 'n']
  | '\r' => ['\\', 'r']
  | '\t' => ['\\', 't']
  | '"' => ['\\', '"']
  | '\\' => ['\\', '\\']
  | c => [c]

/-- Cuts the text behind an opening quote at the closing quote, which is in neither part. There is
no result when the quote is never closed. -/
def split? : List Char → Option (List Char × List Char)
  | [] => none
  | '"' :: cs => some ([], cs)
  | ['\\'] => none
  | '\\' :: c :: cs => (split? cs).map fun (body, rest) => ('\\' :: c :: body, rest)
  | c :: cs => (split? cs).map fun (body, rest) => (c :: body, rest)

def decode : List Char → List Char
  | [] => []
  | ['\\'] => []
  | '\\' :: c :: cs => unescape c :: decode cs
  | c :: cs => c :: decode cs

def encode (cs : List Char) : List Char := cs.flatMap escape

def render (s : String) : String := "\"" ++ String.ofList (encode s.toList) ++ "\""

theorem eq_of_split? {cs body rest : List Char} (h : split? cs = some (body, rest)) :
    cs = body ++ '"' :: rest := by
  fun_induction split? cs generalizing body rest with
  | case1 => simp at h
  | case2 cs => simp at h; simp [h]
  | case3 => simp at h
  | case4 c cs ih =>
    obtain ⟨⟨b, r⟩, hr, he⟩ := Option.map_eq_some_iff.1 h
    cases he
    simp [ih hr]
  | case5 c cs _ _ _ ih =>
    obtain ⟨⟨b, r⟩, hr, he⟩ := Option.map_eq_some_iff.1 h
    cases he
    simp [ih hr]

theorem split?_escape (c : Char) (cs : List Char) :
    split? (escape c ++ cs) = (split? cs).map fun (body, rest) => (escape c ++ body, rest) := by
  fun_cases escape c with
  | case1 | case2 | case3 | case4 | case5 => rfl
  | case6 c _ _ _ hquote hbackslash =>
      have hplain := split?.eq_5 c cs hquote (fun h _ => hbackslash h) fun _ _ h _ => hbackslash h
      rw [List.singleton_append, hplain]
      rfl

theorem split?_encode (cs rest : List Char) :
    split? (encode cs ++ '"' :: rest) = some (encode cs, rest) := by
  induction cs with
  | nil => rfl
  | cons c cs ih =>
      rw [encode, List.flatMap_cons, List.append_assoc, split?_escape, ← encode, ih]
      rfl

theorem decode_escape (c : Char) (cs : List Char) : decode (escape c ++ cs) = c :: decode cs := by
  fun_cases escape c with
  | case1 | case2 | case3 | case4 | case5 => rfl
  | case6 c _ _ _ _ hbackslash =>
      exact decode.eq_4 c cs (fun h _ => hbackslash h) fun _ _ h _ => hbackslash h

theorem decode_encode (cs : List Char) : decode (encode cs) = cs := by
  induction cs with
  | nil => rfl
  | cons c cs ih => rw [encode, List.flatMap_cons, decode_escape, ← encode, ih]

end NodeRules.Text.Quoted
