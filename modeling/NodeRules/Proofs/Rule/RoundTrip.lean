import NodeRules.Proofs.Program.Lines

namespace NodeRules

/-- A piece of a rule's line: it ends and starts with characters that trimming leaves. -/
def IsPiece (l : List Char) : Prop :=
  Text.IsLine l ∧ ∃ c rest, l = c :: rest ∧ Text.isBlank c = false

theorem IsPiece.intercalate {sep : List Char} (hsep : '\n' ∉ sep) {pieces : List (List Char)}
    (hne : pieces ≠ []) (h : ∀ piece ∈ pieces, IsPiece piece) :
    IsPiece (sep.intercalate pieces) := by
  obtain ⟨first, more, rfl⟩ := List.exists_cons_of_ne_nil hne
  induction more generalizing first with
  | nil => simpa [List.intercalate_singleton] using h first (by simp)
  | cons second more ih =>
      obtain ⟨hline, c, rest, rfl, hc⟩ := h first List.mem_cons_self
      have hrest := ih second (by simp) (fun piece hp => h piece (List.mem_cons_of_mem _ hp))
      rw [List.intercalate_cons_cons]
      refine ⟨hrest.1.append ?_, c, _, rfl, hc⟩
      rw [List.mem_append, not_or]
      exact ⟨hline.1, hsep⟩

theorem Scanner.IsName.isPiece {name : List Char} (h : IsName name) : IsPiece name := by
  obtain ⟨c, cs, hcs, -, hc⟩ := h.exists_cons
  refine ⟨⟨h.not_mem rfl, ?_⟩, c, cs, hcs, hc⟩
  rcases List.eq_nil_or_concat name with he | ⟨init, last, he⟩
  · rw [hcs] at he
    cases he
  · rw [List.concat_eq_append] at he
    refine ⟨init, last, he, ?_⟩
    rintro rfl
    exact h.not_mem (c := '\r') rfl (by simp [he])

theorem Child.IsPlain.isPiece {c : Child} (h : c.IsPlain) : IsPiece c.render.toList := by
  obtain ⟨name, m, rfl, hname⟩ := h
  obtain ⟨hline, b, rest, hcons, hb⟩ := hname.2.isPiece
  rw [Child.render, Descriptor.toList_render_plain]
  refine ⟨?_, b, rest ++ m.render.toList, by rw [hcons]; rfl, hb⟩
  cases m with
  | one => simpa [Multiplicity.render] using hline
  | optional => exact Text.IsLine.append ⟨by decide, [], '?', rfl, by decide⟩ hline.1
  | list => exact Text.IsLine.append ⟨by decide, [], '*', rfl, by decide⟩ hline.1

def wrapped (part : String) : List Char := '$' :: part.toList ++ ['$']

theorem isPiece_wrapped {part : String} (h : '\n' ∉ part.toList) : IsPiece (wrapped part) := by
  refine ⟨⟨?_, '$' :: part.toList, '$', rfl, by decide⟩, '$', _, rfl, by decide⟩
  simpa [wrapped] using h

theorem writes_wrapped {part : String} (h : '$' ∉ part.toList) :
    Scanner.Writes (wrapped part) [.code part] := by
  have := Scanner.writes_code h
  rwa [String.ofList_toList] at this

/-- No part of the rule holds a dollar sign or a line feed. -/
def Rule.Clean (rule : Rule) : Prop :=
  ∀ r, rule = .literal r → ∀ part ∈ r.parts, '$' ∉ part.toList ∧ '\n' ∉ part.toList

theorem NodeRule.toList_render_abstract {name : String} {subtypes : List String}
    (h : subtypes ≠ []) : (NodeRule.abstract name subtypes).render.toList =
      arrowLine name (" | ".toList.intercalate (subtypes.map String.toList)) := by
  simp [NodeRule.render, NodeRule.isAbstract, NodeRule.abstract, h, arrowLine,
    String.toList_intercalate]

theorem NodeRule.toList_render_ordinary (name : String) (children : List Child) :
    (NodeRule.ordinary name children).render.toList =
      arrowLine name (", ".toList.intercalate (children.map fun c => c.render.toList)) := by
  simp [NodeRule.render, NodeRule.isAbstract, NodeRule.ordinary, arrowLine,
    String.toList_intercalate, Function.comp_def]

theorem LiteralRule.toList_render (r : LiteralRule) :
    r.render.toList = arrowLine r.name (", ".toList.intercalate (r.parts.map wrapped)) := by
  have hwrapped : (fun part : String => "$".toList ++ part.toList ++ "$".toList) = wrapped := rfl
  simp only [LiteralRule.render, String.toList_append, String.toList_intercalate, List.map_map,
    Function.comp_def, hwrapped, arrowLine]

/-- The rule's line, by what stands behind the arrow, and that it reads back as the rule. -/
structure Rule.Written (rule : Rule) (body : List Char) : Prop where
  render_eq : rule.render.toList = arrowLine rule.name body
  name : Scanner.IsName rule.name.toList
  piece : IsPiece body
  reads : ∃ ks, Scanner.kinds body = some ks ∧ ∀ (span : Span) (ts : List Token),
    ts.map Token.kind = ks → Rule.ofTokens rule.name span ts = .ok rule

namespace Rule

theorem ofTokens_node {name : String} {span : Span} {ts : List Token} {r : NodeRule}
    {k : Token.Kind} {ks : List Token.Kind} (h : ts.map Token.kind = k :: ks)
    (hk : k.isTemplate = false) (hr : NodeRule.ofTokens name span ts = .ok r) :
    ofTokens name span ts = .ok (.node r) := by
  obtain ⟨t, ts, rfl, rfl, -⟩ := List.map_eq_cons_iff.mp h
  simp [ofTokens, hk, hr, Functor.map, Except.map]

theorem ofTokens_template {name : String} {span : Span} {ts : List Token} {k : Token.Kind}
    {ks : List Token.Kind} (h : ts.map Token.kind = k :: ks) (hk : k.isTemplate = true) :
    ofTokens name span ts = .literal <$> LiteralRule.ofTokens name span ts := by
  obtain ⟨t, ts, rfl, rfl, -⟩ := List.map_eq_cons_iff.mp h
  simp [ofTokens, hk]

theorem written_abstract {name : String} {subtypes : List String} (hname : IsTypeName name)
    (htwo : 2 ≤ subtypes.length) (hnodup : subtypes.Nodup)
    (htypes : ∀ subtype ∈ subtypes, IsTypeName subtype) :
    ∃ body, Written (.node (.abstract name subtypes)) body := by
  rcases List.eq_nil_or_concat subtypes with rfl | ⟨members, last, rfl⟩
  · simp at htwo
  rw [List.concat_eq_append] at htwo hnodup htypes ⊢
  have hne : members ≠ [] := by
    rintro rfl
    simp at htwo
  have hwrites : ∀ subtype ∈ members ++ [last],
      Scanner.Writes subtype.toList [.name subtype] := by
    intro subtype hs
    have := Scanner.writes_name (htypes subtype hs).2
    rwa [String.ofList_toList] at this
  refine ⟨_, NodeRule.toList_render_abstract (by simp), hname.2, ?_, _,
    Scanner.kinds_list Scanner.kinds_spacedBar (by simp; rfl) members last
      (fun subtype hs => hwrites subtype (by simp [hs])) (hwrites last (by simp)), ?_⟩
  · refine IsPiece.intercalate (by decide) (by simp) ?_
    intro piece hpiece
    obtain ⟨subtype, hs, rfl⟩ := List.mem_map.mp hpiece
    exact (htypes subtype hs).2.isPiece
  · intro span ts hts
    obtain ⟨first, rest, rfl⟩ := List.exists_cons_of_ne_nil hne
    exact ofTokens_node hts rfl (NodeRule.ofTokens_abstract hname hne htypes hnodup span hts)

theorem written_empty {name : String} (hname : IsTypeName name) :
    ∃ body, Written (.node (.ordinary name [.empty])) body := by
  refine ⟨['0'], NodeRule.toList_render_ordinary name [.empty], hname.2,
    ⟨⟨by decide, [], '0', rfl, by decide⟩, '0', [], rfl, by decide⟩, _, Scanner.kinds_zero, ?_⟩
  intro span ts hts
  have hmembers : ∀ c ∈ ([] : List Child), c = .empty ∨ c.IsPlain := by simp
  refine ofTokens_node hts rfl (NodeRule.ofTokens_ordinary hname hmembers (.inl rfl) ?_ span hts)
  intro children stop hchildren
  obtain ⟨placed, rest, rfl, hplaced, hrest⟩ := List.map_eq_cons_iff.mp hchildren
  obtain rfl := List.map_eq_nil_iff.mp hrest
  simp [NodeRule.childrenError?, NodeRule.childError?, hplaced]

theorem written_ordinary {name : String} {children : List Child} (hname : IsTypeName name)
    (hne : children ≠ []) (hplain : ∀ c ∈ children, c.IsPlain)
    (halone : children.length = 1 ∨ ∀ c ∈ children, c.isList = false) :
    ∃ body, Written (.node (.ordinary name children)) body := by
  have herror : ∀ placed stop, placed.map Child.Placed.child = children →
      NodeRule.childrenError? name placed stop = none := by
    rintro placed stop rfl
    refine NodeRule.childrenError?_plain (by simpa using hne) ?_ ?_
    · exact fun q hq => hplain _ (List.mem_map_of_mem hq)
    · rw [List.length_map] at halone
      exact halone.imp_right (fun h q hq => h _ (List.mem_map_of_mem hq))
  rcases List.eq_nil_or_concat children with rfl | ⟨members, last, rfl⟩
  · exact absurd rfl hne
  rw [List.concat_eq_append] at hplain herror ⊢
  have hmembers : ∀ c ∈ members, c.IsPlain := fun c hc => hplain c (by simp [hc])
  have hlast : last.IsPlain := hplain last (by simp)
  refine ⟨_, NodeRule.toList_render_ordinary name _, hname.2, ?_, _,
    Scanner.kinds_list Scanner.kinds_commaSpace (by simp; rfl) members last
      (fun c hc => (hmembers c hc).writes) hlast.writes, ?_⟩
  · refine IsPiece.intercalate (by decide) (by simp) ?_
    intro piece hpiece
    obtain ⟨c, hc, rfl⟩ := List.mem_map.mp hpiece
    exact (hplain c hc).isPiece
  · intro span ts hts
    have hr := NodeRule.ofTokens_ordinary hname (fun c hc => .inr (hmembers c hc)) (.inr hlast)
      herror span hts
    -- The first kind is the name of the first child.
    obtain ⟨k, ks, hks, hk⟩ : ∃ k ks, ts.map Token.kind = k :: ks ∧ k.isTemplate = false := by
      cases members with
      | nil =>
          obtain ⟨other, m, rfl, -⟩ := hlast
          exact ⟨_, _, hts, rfl⟩
      | cons first members =>
          obtain ⟨other, m, rfl, -⟩ := hmembers first List.mem_cons_self
          exact ⟨_, _, hts, rfl⟩
    exact ofTokens_node hks hk hr

theorem written_literal {r : LiteralRule} (hname : IsTypeName r.name)
    (hclean : ∀ part ∈ r.parts, '$' ∉ part.toList ∧ '\n' ∉ part.toList) :
    ∃ body, Written (.literal r) body := by
  obtain ⟨members, last, hparts, -, hread⟩ := r.exists_parts
  have hwrites : ∀ part ∈ members ++ [last], Scanner.Writes (wrapped part) [.code part] :=
    fun part hpart => writes_wrapped (hclean part (hparts ▸ hpart)).1
  have hpiece : IsPiece (", ".toList.intercalate (r.parts.map wrapped)) := by
    refine IsPiece.intercalate (by decide) (by simp [hparts]) ?_
    intro piece hpiece
    obtain ⟨part, hpart, rfl⟩ := List.mem_map.mp hpiece
    exact isPiece_wrapped (hclean part hpart).2
  have hkinds := Scanner.kinds_list Scanner.kinds_commaSpace (by simp; rfl) members last
    (fun part hpart => hwrites part (by simp [hpart])) (hwrites last (by simp))
  rw [← hparts] at hkinds
  refine ⟨_, r.toList_render, hname.2, hpiece, _, hkinds, ?_⟩
  intro span ts hts
  obtain ⟨k, ks, hks, hk⟩ : ∃ k ks, ts.map Token.kind = k :: ks ∧ k.isTemplate = true := by
    cases members with
    | nil => exact ⟨_, _, hts, rfl⟩
    | cons first members => exact ⟨_, _, hts, rfl⟩
  have hliteral : LiteralRule.ofTokens r.name span ts = .ok r := hread hname hts
  rw [ofTokens_template hks hk, name, hliteral]
  rfl

theorem Readable.written {rule : Rule} (h : rule.Readable) (hclean : rule.Clean) :
    ∃ body, rule.Written body := by
  cases h with
  | node h =>
      cases h with
      | abstract hname htwo hnodup htypes => exact written_abstract hname htwo hnodup htypes
      | empty hname => exact written_empty hname
      | ordinary hname hne hplain halone => exact written_ordinary hname hne hplain halone
  | literal hname => exact written_literal hname (hclean _ rfl)

theorem Written.ofLine {rule : Rule} {body : List Char} (h : rule.Written body) :
    Rule.ofLine rule.render.toList = .ok rule := by
  obtain ⟨ks, hks, hread⟩ := h.reads
  obtain ⟨span, offset, hline⟩ := ofLine_arrowLine h.name body
  rw [← Scanner.kinds_space] at hks
  obtain ⟨ts, hts, hkinds⟩ := Scanner.tokens_of_kinds hks offset
  rw [h.render_eq, hline, hts]
  exact hread span ts hkinds

theorem tokens_of_ofLine {name : String} {body : List Char} {rule : Rule}
    (hname : Scanner.IsName name.toList) (h : Rule.ofLine (arrowLine name body) = .ok rule) :
    ∃ span ts, Scanner.kinds body = some (ts.map Token.kind) ∧
      ofTokens name span ts = .ok rule := by
  obtain ⟨span, offset, hline⟩ := ofLine_arrowLine hname body
  rw [hline] at h
  obtain ⟨ts, hts, hrule⟩ := bind_ok h
  have hkinds := Scanner.kinds_of_tokens (mapError_ok hts)
  rw [Scanner.kinds_space] at hkinds
  exact ⟨span, ts, hkinds, hrule⟩

end Rule

theorem arrowLine_append (name : String) (body more : List Char) :
    arrowLine name body ++ more = arrowLine name (body ++ more) := by
  rw [arrowLine, arrowLine, List.append_assoc]

def codesBefore (members : List String) : List Char :=
  members.flatMap fun part => wrapped part ++ ", ".toList

theorem kinds_codesBefore {members : List String} (h : ∀ part ∈ members, '$' ∉ part.toList)
    (rest : List Char) : Scanner.kinds (codesBefore members ++ rest) =
      (Scanner.kinds rest).map ((members.flatMap fun part => [.code part] ++ [.comma]) ++ ·) :=
  Scanner.kinds_members Scanner.kinds_commaSpace (by simp; rfl) members
    (fun part hpart => writes_wrapped (h part hpart)) rest

theorem newline_not_mem_arrowLine {name : String} (hname : Scanner.IsName name.toList)
    {members : List String} (hmembers : ∀ part ∈ members, '\n' ∉ part.toList) {text : List Char}
    (h : '\n' ∉ text) : '\n' ∉ arrowLine name (codesBefore members ++ '$' :: text) := by
  have hbefore : '\n' ∉ codesBefore members := by
    intro hmem
    obtain ⟨part, hpart, hmem⟩ := List.mem_flatMap.mp hmem
    have := hmembers part hpart
    simp [wrapped, this] at hmem
  have hnames : '\n' ∉ name.toList := hname.not_mem rfl
  simp [arrowLine, hnames, hbefore, h]

theorem LineKind.ofLine_codes {name : String} (hname : Scanner.IsName name.toList)
    (members : List String) (rest : List Char) :
    LineKind.ofLine (arrowLine name (codesBefore members ++ '$' :: rest)) = .rule := by
  cases members with
  | nil => exact LineKind.ofLine_arrowLine hname (by decide) rest
  | cons part members => exact LineKind.ofLine_arrowLine hname (by decide) _

namespace Rule

/-- Code that no dollar sign closes is not read. -/
theorem ofLine_open_code {name : String} (hname : Scanner.IsName name.toList)
    {members : List String} (hmembers : ∀ part ∈ members, '$' ∉ part.toList) {text : List Char}
    (h : '$' ∉ text) (rule : Rule) :
    Rule.ofLine (arrowLine name (codesBefore members ++ '$' :: text)) ≠ .ok rule := by
  intro hread
  obtain ⟨span, ts, hkinds, -⟩ := tokens_of_ofLine hname hread
  rw [kinds_codesBefore hmembers, Scanner.kinds_open_code h] at hkinds
  cases hkinds

theorem parts_of_ofLine {name : String} (hname : Scanner.IsName name.toList)
    {members : List String} (hmembers : ∀ part ∈ members, '$' ∉ part.toList)
    (hlen : members.length < 4) {text : List Char} (h : '$' ∉ text) (rest : List Char)
    {r : LiteralRule} (hread : Rule.ofLine
      (arrowLine name (codesBefore members ++ ('$' :: text ++ '$' :: rest))) = .ok (.literal r)) :
    ∃ more, r.parts = members ++ String.ofList text :: more := by
  obtain ⟨span, ts, hkinds, hrule⟩ := tokens_of_ofLine hname hread
  rw [kinds_codesBefore hmembers, Scanner.kinds_code h, Option.map_map, Option.map_eq_some_iff]
    at hkinds
  obtain ⟨ks, -, hts⟩ := hkinds
  obtain ⟨k, more, hk, htemplate⟩ :
      ∃ k more, ts.map Token.kind = k :: more ∧ k.isTemplate = true := by
    cases members with
    | nil => exact ⟨_, _, hts.symm, rfl⟩
    | cons first members => exact ⟨_, _, hts.symm, rfl⟩
  rw [ofTokens_template hk htemplate] at hrule
  obtain ⟨r', hliteral, he⟩ := map_ok hrule
  cases he
  exact LiteralRule.parts_of_ofTokens hlen hts.symm hliteral

end Rule

theorem exists_first_not {α : Type} {P : α → Prop} {xs : List α} (h : ¬ ∀ x ∈ xs, P x) :
    ∃ before x after, xs = before ++ x :: after ∧ (∀ y ∈ before, P y) ∧ ¬ P x := by
  induction xs with
  | nil => simp at h
  | cons a xs ih =>
      by_cases ha : P a
      · have hxs : ¬ ∀ x ∈ xs, P x := by simpa [ha] using h
        obtain ⟨before, x, after, rfl, hbefore, hx⟩ := ih hxs
        exact ⟨a :: before, x, after, rfl, by simpa [ha] using hbefore, hx⟩
      · exact ⟨[], a, xs, rfl, by simp, ha⟩

namespace LiteralRule

/-- Where the first sign stands that cannot be written within code. -/
theorem exists_unclean {r : LiteralRule} (h : ¬ (Rule.literal r).Clean) :
    ∃ members part others text c rest, r.parts = members ++ part :: others ∧
      (∀ m ∈ members, '$' ∉ m.toList ∧ '\n' ∉ m.toList) ∧ part.toList = text ++ c :: rest ∧
      '$' ∉ text ∧ '\n' ∉ text ∧ (c = '$' ∨ c = '\n') := by
  have hparts : ¬ ∀ part ∈ r.parts, '$' ∉ part.toList ∧ '\n' ∉ part.toList := by
    intro hparts
    refine h ?_
    rintro r' he
    cases he
    exact hparts
  obtain ⟨members, part, others, hsplit, hmembers, hpart⟩ := exists_first_not hparts
  have hchars : ¬ ∀ c ∈ part.toList, c ≠ '$' ∧ c ≠ '\n' := by
    intro hchars
    exact hpart ⟨fun hc => (hchars _ hc).1 rfl, fun hc => (hchars _ hc).2 rfl⟩
  obtain ⟨text, c, rest, htext, hclean, hc⟩ := exists_first_not hchars
  refine ⟨members, part, others, text, c, rest, hsplit, hmembers, htext,
    fun hd => (hclean _ hd).1 rfl, fun hn => (hclean _ hn).2 rfl, ?_⟩
  by_cases hd : c = '$'
  · exact .inl hd
  · exact .inr (by_contra fun hn => hc ⟨hd, hn⟩)

theorem exists_render_append {r : LiteralRule} {members others : List String} {part : String}
    {text rest : List Char} (hparts : r.parts = members ++ part :: others)
    (hpart : part.toList = text ++ rest) :
    ∃ more, r.render.toList =
      arrowLine r.name (codesBefore members ++ '$' :: text) ++ (rest ++ more) := by
  refine ⟨'$' :: (others.map wrapped).flatMap fun a => ", ".toList ++ a, ?_⟩
  rw [toList_render, hparts, List.map_append, List.map_cons, intercalate_append_cons,
    List.flatMap_map, intercalate_cons, wrapped, hpart]
  simp [arrowLine, codesBefore]

theorem length_parts_le (r : LiteralRule) : r.parts.length ≤ 4 := by
  obtain ⟨members, last, hparts, hlen, -⟩ := r.exists_parts
  rw [hparts, List.length_append, List.length_singleton]
  omega

theorem first_line_unclean {r : LiteralRule} (hname : Scanner.IsName r.name.toList)
    (h : ¬ (Rule.literal r).Clean) (tail : List Char) :
    ∃ first others, Text.splitLines (r.render.toList ++ tail) = first :: others ∧
      LineKind.ofLine first = .rule ∧ Rule.ofLine first ≠ .ok (.literal r) := by
  obtain ⟨members, part, others, text, c, rest, hparts, hmembers, hpart, hd, hn, hc⟩ :=
    exists_unclean h
  have hcodes : ∀ m ∈ members, '$' ∉ m.toList := fun m hm => (hmembers m hm).1
  obtain ⟨more, hrender⟩ := exists_render_append hparts hpart
  have hlen : members.length < 4 := by
    have hle := r.length_parts_le
    rw [hparts, List.length_append, List.length_cons] at hle
    omega
  have hline := newline_not_mem_arrowLine hname (fun m hm => (hmembers m hm).2) hn
  rw [hrender, List.append_assoc, List.append_assoc, List.cons_append]
  rcases hc with rfl | rfl
  · -- The dollar sign closes the code early, so that the part that is read is shorter.
    obtain ⟨more', others', hsplit⟩ :=
      Text.splitLines_head (c := '$') (by decide) (by decide) (rest ++ (more ++ tail)) hline
    refine ⟨_, others', hsplit, ?_⟩
    rw [arrowLine_append, List.append_assoc]
    refine ⟨LineKind.ofLine_codes hname members _, ?_⟩
    intro hread
    obtain ⟨others'', hshort⟩ := Rule.parts_of_ofLine hname hcodes hlen hd more' hread
    rw [hparts, List.append_cancel_left_eq] at hshort
    obtain ⟨rfl, -⟩ := List.cons.inj hshort
    simp at hpart
  · -- The line ends within the code.
    refine ⟨_, _, Text.splitLines_newline hline _, ?_⟩
    have hstrip : Text.stripReturn (arrowLine r.name (codesBefore members ++ '$' :: text)) =
        arrowLine r.name (codesBefore members ++ '$' :: Text.stripReturn text) := by
      rw [← arrowLine_append, Text.stripReturn_append_cons (by decide), arrowLine_append]
    rw [hstrip]
    exact ⟨LineKind.ofLine_codes hname members _, Rule.ofLine_open_code hname hcodes
      (fun hmem => hd (Text.stripReturn_subset _ hmem)) _⟩

end LiteralRule

end NodeRules
