import NodeRules.Compile
import NodeRules.Proofs.Program.Languages
import NodeRules.Proofs.Program.Readable
import NodeRules.Proofs.Scope.Outcome

namespace NodeRules

def Output.Holds (out : Output) (p : Program) (target : Java.Target) (e : Entry)
    (f : Java.SourceFile) : Prop :=
  OutputFile.ofSource f ∈ out.files ∧
    ∃ scope, Scope.ofProgram p e.language = .ok scope ∧ Java.generate target scope e = .ok f

theorem Program.generate_ok {p : Program} {target : Java.Target}
    {out : Output} (h : p.generate target = .ok out) :
    (∀ language, language ∈ out.languages ↔ ∃ e ∈ p.entries, e.language = language) ∧
      ∀ e ∈ p.entries, ∃ f, out.Holds p target e f := by
  obtain ⟨scopes, hscopes, h⟩ := bind_ok h
  obtain ⟨files, hfiles, h⟩ := bind_ok h
  cases h
  refine ⟨fun _ => p.mem_languages, ?_⟩
  intro e he
  obtain ⟨scope, hscope, hof⟩ :=
    mapM_ok_of_mem (mapError_ok hscopes) (p.mem_languages.mpr ⟨e, he, rfl⟩)
  obtain ⟨units, hunits, hall⟩ := mapM_ok_of_mem (mapError_ok hfiles) hscope
  have hin : e ∈ p.entriesIn scope.language := by
    rw [(Scope.describes hof).language_eq]
    simp [Program.entriesIn, he]
  obtain ⟨f, hf, hgenerate⟩ := mapM_ok_of_mem hall hin
  exact ⟨f, List.mem_map_of_mem (List.mem_flatten_of_mem hunits hf), scope, hof, hgenerate⟩

theorem Program.exists_entry {p : Program} {target : Java.Target} {out : Output}
    (h : p.generate target = .ok out) {file : OutputFile} (hfile : file ∈ out.files) :
    ∃ e ∈ p.entries, ∃ f, out.Holds p target e f ∧ file = .ofSource f := by
  obtain ⟨scopes, hscopes, h⟩ := bind_ok h
  obtain ⟨files, hfiles, h⟩ := bind_ok h
  cases h
  obtain ⟨f, hf, rfl⟩ := List.mem_map.mp hfile
  obtain ⟨units, hunits, hmem⟩ := List.mem_flatten.mp hf
  obtain ⟨scope, hscope, hall⟩ := exists_of_mem_mapM (mapError_ok hfiles) hunits
  obtain ⟨language, hlanguage, hof⟩ := exists_of_mem_mapM (mapError_ok hscopes) hscope
  obtain ⟨e, he, hgenerate⟩ := exists_of_mem_mapM hall hmem
  simp only [Program.entriesIn, List.mem_filter, beq_iff_eq,
    (Scope.describes hof).language_eq] at he
  exact ⟨e, he.1, f, ⟨hfile, scope, he.2 ▸ hof, hgenerate⟩, rfl⟩

theorem compile_ok {source : String} {settings : Settings} {out : Output}
    (h : compile source settings = .ok out) :
    ∃ p, Program.ofText source = .ok p ∧ p.Readable ∧ p.generate settings.target = .ok out := by
  obtain ⟨p, hp, h⟩ := bind_ok h
  have hread := mapError_ok hp
  exact ⟨p, hread, Program.ofText_readable hread, h⟩

end NodeRules
