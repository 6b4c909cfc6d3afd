import NodeRules.Proofs.Program.Isolation
import NodeRules.Proofs.Token.Names

namespace NodeRules

structure NodeRule.OrdinaryForm (r : NodeRule) : Prop where
  children_ne : r.children ≠ []
  subtypes_eq : r.subtypes = []
  alone : ∀ c ∈ r.children, c = .empty ∨ c.isList = true → r.children = [c]
  bare : ∀ d, .descriptor d ∈ r.children →
    d.tag = none ∧ d.parameters = [] ∧ d.data = none ∧ MatchesTypeName d.typeName

structure NodeRule.AbstractForm (r : NodeRule) : Prop where
  children_eq : r.children = []
  two_le : 2 ≤ r.subtypes.length
  nodup : r.subtypes.Nodup
  names : ∀ name ∈ r.subtypes, MatchesTypeName name

def Rule.WellFormed : Rule → Prop
  | .node r => r.OrdinaryForm ∨ r.AbstractForm
  | .literal _ => True

structure Entry.WellFormed (e : Entry) : Prop where
  language : MatchesName e.language
  name : MatchesTypeName e.name
  rule : e.rule.WellFormed

theorem IsTypeName.matchesTypeName {s : String} (h : IsTypeName s) : MatchesTypeName s := by
  obtain ⟨c, cs, hcs, -, hrest⟩ := Scanner.isName_iff.mp h.2
  have hupper := h.1
  rw [startsCapital, hcs] at hupper
  exact ⟨c, cs, hcs, isCapital_iff.mpr (by simpa using hupper), hrest⟩

theorem Child.IsPlain.ne_empty {c : Child} (h : c.IsPlain) : c ≠ .empty := by
  obtain ⟨name, m, rfl, -⟩ := h
  nofun

theorem NodeRule.Readable.form {r : NodeRule} (h : r.Readable) :
    r.OrdinaryForm ∨ r.AbstractForm := by
  cases h with
  | abstract hname htwo hnodup htypes =>
      exact .inr ⟨rfl, htwo, hnodup, fun name hmem => (htypes name hmem).matchesTypeName⟩
  | empty hname =>
      refine .inl ⟨List.cons_ne_nil _ _, rfl, ?_, ?_⟩
      · intro c hc _
        obtain rfl := List.mem_singleton.mp hc
        rfl
      · intro d hd
        cases List.mem_singleton.mp hd
  | @ordinary name children hname hne hplain halone =>
      refine .inl ⟨hne, rfl, ?_, ?_⟩
      · intro c hc hsole
        have hlist := hsole.resolve_left (hplain c hc).ne_empty
        rcases halone with hone | hnone
        · obtain ⟨only, rfl⟩ := List.length_eq_one_iff.mp hone
          obtain rfl := List.mem_singleton.mp hc
          rfl
        · rw [hnone c hc] at hlist
          cases hlist
      · intro d hd
        obtain ⟨typeName, m, he, htype⟩ := hplain _ hd
        cases he
        exact ⟨rfl, rfl, rfl, htype.matchesTypeName⟩

theorem Rule.Readable.wellFormed {rule : Rule} (h : rule.Readable) : rule.WellFormed := by
  cases h with
  | node hrule => exact hrule.form
  | literal => trivial

theorem Entry.Readable.wellFormed {e : Entry} (h : e.Readable) : e.WellFormed :=
  ⟨Scanner.isName_iff.mp h.language, h.rule.isTypeName.matchesTypeName, h.rule.wellFormed⟩

namespace ProgramReader

theorem Sound.feedOn {r : ProgramReader} (h : r.Sound) (lines : List String) :
    (r.feedOn lines).Sound := by
  induction lines generalizing r with
  | nil => exact h
  | cons line lines ih => exact ih (Sound.feed rfl h)

/-- Whatever lines are read, with errors among them or not, every entry is well formed. -/
theorem feedOn_wellFormed (lines : List String) {e : Entry}
    (he : e ∈ ((ofProgram .empty).feedOn lines).program.entries) : e.WellFormed :=
  ((sound_empty.feedOn lines).program.entries e he).wellFormed

/-- Rules and a language among lines that are rejected. -/
def patchyLines : List String :=
  ["Pass <- 0", "Pass <- 0, Name", "9lives:", "java:", "  // notes", "Stmt <- Pass | Pass",
    "Stmt <- Pass | Name", "Block <- Stmt*, Stmt", "block <- Stmt*", "Block <- Stmt*"]

theorem feedOn_wellFormed_patchy :
    ((ofProgram .empty).feedOn patchyLines).program.entries =
      [⟨"common", .node (.ordinary "Pass" [.empty])⟩,
        ⟨"java", .node (.abstract "Stmt" ["Pass", "Name"])⟩,
        ⟨"java", .node (.ordinary "Block" [.descriptor (.plain "Stmt" .list)])⟩] ∧
    Entry.WellFormed ⟨"java", .node (.abstract "Stmt" ["Pass", "Name"])⟩ ∧
    Entry.WellFormed ⟨"java", .node (.ordinary "Block" [.descriptor (.plain "Stmt" .list)])⟩ := by
  have hentries : ((ofProgram .empty).feedOn patchyLines).program.entries =
      [⟨"common", .node (.ordinary "Pass" [.empty])⟩,
        ⟨"java", .node (.abstract "Stmt" ["Pass", "Name"])⟩,
        ⟨"java", .node (.ordinary "Block" [.descriptor (.plain "Stmt" .list)])⟩] := by
    with_unfolding_all rfl
  refine ⟨hentries, feedOn_wellFormed patchyLines ?_, feedOn_wellFormed patchyLines ?_⟩
  · simp [hentries]
  · simp [hentries]

end ProgramReader

end NodeRules
