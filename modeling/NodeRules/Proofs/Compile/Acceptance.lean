import NodeRules.Proofs.Compile.Groups

namespace NodeRules

theorem Tree.Catalog.declaresChildren_of_ofScope {scope : Scope} {catalog : Catalog}
    (h : ofScope scope = .ok catalog) {rule : Rule} (hrule : rule ∈ scope.rules) :
    scope.DeclaresChildren rule := by
  rintro r rfl hclass
  obtain ⟨types, htypes, -⟩ := bind_ok h
  have hconcrete : concrete? (.node r) = some r := by
    simp [concrete?, Rule.node?, Option.filter, hclass]
  obtain ⟨t, -, ht⟩ := mapM_ok_of_mem htypes (List.mem_filterMap.mpr ⟨_, hrule, hconcrete⟩)
  rw [typeOf] at ht
  split at ht
  · cases ht
  · rename_i hnone
    intro d hd
    simpa using List.find?_eq_none.mp hnone d hd

namespace Program

variable {p : Program} {target : Java.Target}

/-- There are files for a program exactly when there is one for each entry, in the scope of its
language. -/
theorem exists_generate_iff : (∃ out, p.generate target = .ok out) ↔
    ∀ e ∈ p.entries, ∃ scope, Scope.ofProgram p e.language = .ok scope ∧
      ∃ f, Java.generate target scope e = .ok f := by
  constructor
  · rintro ⟨out, h⟩ e he
    obtain ⟨f, -, scope, hscope, hf⟩ := (Program.generate_ok h).2 e he
    exact ⟨scope, hscope, f, hf⟩
  · intro h
    obtain ⟨scopes, hscopes⟩ : ∃ scopes, p.languages.1.mapM (Scope.ofProgram p) = .ok scopes := by
      apply exists_mapM_ok
      intro language hlanguage
      obtain ⟨e, he, rfl⟩ := p.mem_languages.mp hlanguage
      obtain ⟨scope, hscope, -⟩ := h e he
      exact ⟨scope, hscope⟩
    obtain ⟨files, hfiles⟩ : ∃ files,
        scopes.mapM (fun scope => Java.generateAll target scope p) = .ok files := by
      apply exists_mapM_ok
      intro scope hmem
      obtain ⟨language, -, hscope⟩ := exists_of_mem_mapM hscopes hmem
      apply exists_mapM_ok
      intro e he
      simp only [entriesIn, List.mem_filter, beq_iff_eq, (Scope.describes hscope).language_eq] at he
      obtain ⟨scope', hscope', f, hf⟩ := h e he.1
      rw [he.2, hscope] at hscope'
      cases hscope'
      exact ⟨f, hf⟩
    refine ⟨⟨p.languages.1, files.flatten.map .ofSource⟩, ?_⟩
    simp only [generate, hscopes, hfiles, Except.mapError, bind, Except.bind, pure, Except.pure]

theorem exists_catalogs_iff :
    (∀ language ∈ p.languages.1, ∃ catalog, Tree.Catalog.ofProgram p language = .ok catalog) ↔
      ∀ e ∈ p.entries, ∃ scope, Scope.ofProgram p e.language = .ok scope ∧
        scope.DeclaresChildren e.rule := by
  constructor
  · intro h e he
    obtain ⟨catalog, hcatalog⟩ := h e.language (p.mem_languages.mpr ⟨e, he, rfl⟩)
    obtain ⟨scope, hscope, hof⟩ := bind_ok hcatalog
    refine ⟨scope, hscope, Tree.Catalog.declaresChildren_of_ofScope hof ?_⟩
    rw [(Scope.describes hscope).rules_eq]
    exact mem_visibleRules.mpr ⟨e, he, rfl, .inl rfl⟩
  · intro h language hlanguage
    obtain ⟨e, he, rfl⟩ := p.mem_languages.mp hlanguage
    obtain ⟨scope, hscope, -⟩ := h e he
    obtain ⟨catalog, hcatalog⟩ := exists_catalog_of_declared h (Scope.describes hscope)
    exact ⟨catalog, by rw [Tree.Catalog.ofProgram, hscope]; exact hcatalog⟩

end Program

theorem exists_compile_iff {source : String} {p : Program} (h : Program.ofText source = .ok p)
    (settings : Settings) :
    (∃ out, compile source settings = .ok out) ↔ ∃ out, p.generate settings.target = .ok out := by
  rw [compile, h]
  rfl

/-- A text that can be read compiles exactly when every language of it has a catalog, no entry
mentions a reserved type, and the templates of literals have no holes but the first. -/
theorem compile_succeeds_iff {source : String} {p : Program} (h : Program.ofText source = .ok p)
    (settings : Settings) :
    (∃ out, compile source settings = .ok out) ↔
      (∀ language ∈ p.languages.1, ∃ catalog, Tree.Catalog.ofProgram p language = .ok catalog) ∧
      (∀ e ∈ p.entries, ∀ scope, Scope.ofProgram p e.language = .ok scope → ∀ name,
        name = e.name ∨ name ∈ e.rule.references ∨ name ∈ scope.bases e.name →
          name ∉ Java.reservedTypes) ∧
      ∀ e ∈ p.entries, ∀ r, e.rule = .literal r → ∀ template ∈ [r.serializer, r.parser],
        ∀ digits, Template.HasHole template.toList digits →
          digits = [] ∨ Nat.ofDigitChars 10 digits 0 = 1 := by
  rw [exists_compile_iff h, Program.exists_generate_iff, Program.exists_catalogs_iff]
  simp only [Java.exists_generate_iff, Java.mem_mentionedTypes]
  constructor
  · intro hall
    refine ⟨?_, ?_, ?_⟩
    · intro e he
      obtain ⟨scope, hscope, -, hchildren, -⟩ := hall e he
      exact ⟨scope, hscope, hchildren⟩
    · intro e he scope hscope
      obtain ⟨scope', hscope', hnames, -⟩ := hall e he
      obtain rfl := Except.ok.inj (hscope.symm.trans hscope')
      exact hnames
    · intro e he
      obtain ⟨scope, -, -, -, htemplates⟩ := hall e he
      exact htemplates
  · rintro ⟨hscopes, hnames, htemplates⟩ e he
    obtain ⟨scope, hscope, hchildren⟩ := hscopes e he
    exact ⟨scope, hscope, hnames e he scope hscope, hchildren, htemplates e he⟩

/-- The language hides a common type with a literal whose parser asks for a second value. -/
def holedText : String :=
  "Call <- Name, Name?\nName <- 0\njava:\nName <- $int$, $show(#, #01)$, $read(#1, #2)$"

def holed : Program :=
  .unasked
    [⟨"common", .node (.ordinary "Call" [.descriptor (.plain "Name" .one),
        .descriptor (.plain "Name" .optional)])⟩,
      ⟨"common", .node (.ordinary "Name" [.empty])⟩,
      ⟨"java", .literal ⟨"Name", "int", "show(#, #01)", "read(#1, #2)", none⟩⟩]

theorem compile_fails_holed :
    Program.ofText holedText = .ok holed ∧
      (∀ language ∈ holed.languages.1,
        ∃ catalog, Tree.Catalog.ofProgram holed language = .ok catalog) ∧
      ¬ ∃ out, compile holedText {} = .ok out := by
  have hread : Program.ofText holedText = .ok holed := by with_unfolding_all rfl
  refine ⟨hread, ?_, ?_⟩
  · have hlanguages : holed.languages.1 = ["common", "java"] := by decide
    rw [hlanguages]
    simp only [List.forall_mem_cons, List.not_mem_nil, false_imp_iff, forall_const, and_true]
    exact ⟨⟨_, rfl⟩, ⟨_, rfl⟩⟩
  · intro hcompile
    obtain ⟨-, -, hholes⟩ := (compile_succeeds_iff hread {}).mp hcompile
    have hliteral := hholes _ (List.mem_cons_of_mem _ (List.mem_cons_of_mem _ List.mem_cons_self))
      _ rfl "read(#1, #2)" (List.mem_cons_of_mem _ List.mem_cons_self)
    have hsecond := hliteral ['2'] ⟨"read(#1, ".toList, "2)".toList, by decide, by decide⟩
    revert hsecond
    decide

end NodeRules
