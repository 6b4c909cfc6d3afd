import Mathlib.Data.List.Forall2
import NodeRules.Proofs.Compile.Units
import NodeRules.Proofs.Java.Files
import NodeRules.Proofs.Program.Languages
import NodeRules.Proofs.Program.Lines

namespace NodeRules

def Entry.filePath (rootPackage : String) (e : Entry) : String :=
  String.ofList ((rootPackage ++ "." ++ e.language).toList.map fun c =>
    if c = '.' then '/' else c) ++ "/" ++ e.name ++ ".java"

def rootDirectory (rootPackage : String) : List Char :=
  (rootPackage.toList.map fun c => if c = '.' then '/' else c) ++ ['/']

namespace Entry.Readable

variable {d e : Entry}

theorem slash_not_mem_language (h : e.Readable) : '/' ∉ e.language.toList :=
  h.language.not_mem rfl

theorem slash_not_mem_name (h : e.Readable) : '/' ∉ e.name.toList :=
  h.rule.isTypeName.2.not_mem rfl

theorem toList_filePath (h : e.Readable) (rootPackage : String) :
    (e.filePath rootPackage).toList = rootDirectory rootPackage ++
      (e.language.toList ++ '/' :: (e.name.toList ++ ".java".toList)) := by
  have hdots : e.language.toList.map (fun c => if c = '.' then '/' else c) = e.language.toList := by
    refine (List.map_congr_left fun c hc => ?_).trans (List.map_id _)
    rw [if_neg, id]
    rintro rfl
    exact h.language.not_mem rfl hc
  simp [filePath, rootDirectory, hdots]

theorem filePath_inj (hd : d.Readable) (he : e.Readable) {rootPackage : String}
    (h : d.filePath rootPackage = e.filePath rootPackage) :
    d.language = e.language ∧ d.name = e.name := by
  have hlists := congrArg String.toList h
  rw [hd.toList_filePath, he.toList_filePath, List.append_cancel_left_eq,
    List.append_cons_inj_of_notMem hd.slash_not_mem_language
      (by simp [hd.slash_not_mem_name])] at hlists
  obtain ⟨hlanguage, -, hname⟩ := hlists
  have hname := List.append_cancel_right hname
  exact ⟨String.toList_injective hlanguage, String.toList_injective hname⟩

end Entry.Readable

theorem Java.FileOf.path_eq {target : Java.Target} {scope : Scope} {e : Entry} {f : Java.SourceFile}
    (h : Java.FileOf target scope e f) : f.path = e.filePath target.rootPackage := by
  rw [Java.SourceFile.path, h.package_eq, h.typeName_eq]
  rfl

def OutputFile.IsFileOf (file : OutputFile) (p : Program) (target : Java.Target) (e : Entry) :
    Prop :=
  ∃ scope f, Scope.ofProgram p e.language = .ok scope ∧ Java.generate target scope e = .ok f ∧
    file = .ofSource f

theorem OutputFile.IsFileOf.path_eq {file : OutputFile} {p : Program} {target : Java.Target}
    {e : Entry} (h : file.IsFileOf p target e) : file.path = e.filePath target.rootPackage := by
  obtain ⟨scope, f, -, hf, rfl⟩ := h
  exact (Java.generate_ok hf).1.path_eq

namespace Program

variable {p : Program} {target : Java.Target} {out : Output}

/-- The entries in the order of their files. -/
def byLanguage (p : Program) (languages : List String) : List Entry :=
  languages.flatMap p.entriesIn

theorem languages_of_generate (h : p.generate target = .ok out) :
    out.languages = p.languages.1 := by
  obtain ⟨scopes, -, h⟩ := bind_ok h
  obtain ⟨files, -, h⟩ := bind_ok h
  cases h
  rfl

theorem forall₂_generateAll {language : String} {scope : Scope} {units : List Java.SourceFile}
    (hscope : Scope.ofProgram p language = .ok scope)
    (h : Java.generateAll target scope p = .ok units) :
    List.Forall₂ (fun e f => OutputFile.IsFileOf (.ofSource f) p target e) (p.entriesIn language)
      units := by
  rw [Java.generateAll, (Scope.describes hscope).language_eq] at h
  have hlanguage : ∀ e ∈ p.entriesIn language, e.language = language := by
    intro e he
    simpa using (List.mem_filter.mp he).2
  apply ((List.forall₂_and_left _ _).mpr ⟨hlanguage, forall₂_of_mapM h⟩).imp
  rintro e f ⟨rfl, hf⟩
  exact ⟨scope, f, hscope, hf, rfl⟩

theorem forall₂_files (h : p.generate target = .ok out) :
    List.Forall₂ (fun e file => OutputFile.IsFileOf file p target e) (p.byLanguage out.languages)
      out.files := by
  obtain ⟨scopes, hscopes, h⟩ := bind_ok h
  obtain ⟨files, hfiles, h⟩ := bind_ok h
  cases h
  rw [List.forall₂_map_right_iff]
  apply forall₂_flatten
  refine forall₂_trans ?_ (forall₂_of_mapM (mapError_ok hscopes))
    (forall₂_of_mapM (mapError_ok hfiles))
  intro language scope units hscope hunits
  exact forall₂_generateAll hscope hunits

theorem byLanguage_perm_filter (p : Program) {languages : List String} (h : languages.Nodup) :
    (p.byLanguage languages).Perm (p.entries.filter fun e => e.language ∈ languages) := by
  induction languages with
  | nil => simp [byLanguage]
  | cons language languages ih =>
      obtain ⟨hfresh, hnodup⟩ := List.nodup_cons.mp h
      have hown : (p.entries.filter fun e => e.language ∈ language :: languages).filter
          (fun e => e.language == language) = p.entriesIn language := by
        rw [List.filter_filter, entriesIn]
        apply List.filter_congr
        intro e _
        by_cases hl : e.language = language <;> simp [hl]
      have hothers : (p.entries.filter fun e => e.language ∈ language :: languages).filter
          (fun e => !(e.language == language)) =
            p.entries.filter fun e => e.language ∈ languages := by
        rw [List.filter_filter]
        apply List.filter_congr
        intro e _
        by_cases hl : e.language = language <;> simp [hl, hfresh]
      have hsplit := List.filter_append_perm (fun e : Entry => e.language == language)
        (p.entries.filter fun e => e.language ∈ language :: languages)
      rw [hown, hothers] at hsplit
      exact ((ih hnodup).append_left _).trans hsplit

theorem byLanguage_perm (h : p.generate target = .ok out) :
    (p.byLanguage out.languages).Perm p.entries := by
  rw [languages_of_generate h]
  refine (p.byLanguage_perm_filter ?_).trans (List.Perm.of_eq ?_)
  · rw [languages_eq]
    exact Text.nodup_sortedSet _
  · rw [List.filter_eq_self]
    intro e he
    simpa using p.mem_languages.mpr ⟨e, he, rfl⟩

/-- No language declares a type twice, as the scope of each has been accepted. -/
theorem pairwise_entries (h : p.generate target = .ok out) :
    p.entries.Pairwise fun d e => d.language = e.language → d.name ≠ e.name := by
  rw [List.pairwise_iff_forall_sublist]
  intro d e hsub hl
  have he : e ∈ p.entries := hsub.subset (by simp)
  obtain ⟨f, -, scope, hscope, -⟩ := (Program.generate_ok h).2 e he
  obtain ⟨hno, -⟩ := Scope.ofProgram_ok_iff.mp ⟨scope, hscope⟩
  exact List.pairwise_iff_forall_sublist.mp (not_repeats_iff.mp hno) hsub (.inl rfl) hl

theorem map_files {α : Type} (g : String → α) (h : p.generate target = .ok out) :
    (out.files.map fun f => g f.path) =
      (p.byLanguage out.languages).map fun e => g (e.filePath target.rootPackage) := by
  rw [← List.forall₂_eq_eq_eq, List.forall₂_map_left_iff, List.forall₂_map_right_iff]
  exact (forall₂_files h).flip.imp fun _ _ hfile => congrArg g (OutputFile.IsFileOf.path_eq hfile)

theorem Readable.nodup_files (hp : p.Readable) (h : p.generate target = .ok out) {α : Type}
    {g : String → α} (hg : ∀ d e : Entry, d.Readable → e.Readable →
      g (d.filePath target.rootPackage) = g (e.filePath target.rootPackage) →
        d.language = e.language ∧ d.name = e.name) :
    (out.files.map fun f => g f.path).Nodup := by
  have hperm := Program.byLanguage_perm h
  have hpairs : (p.byLanguage out.languages).Pairwise fun d e =>
      d.language = e.language → d.name ≠ e.name := by
    rw [hperm.pairwise_iff]
    · exact pairwise_entries h
    · intro d e hne hl hname
      exact hne hl.symm hname.symm
  rw [map_files g h]
  refine List.pairwise_map.mpr (hpairs.imp_of_mem ?_)
  intro d e hd he hne hsame
  obtain ⟨hl, hname⟩ := hg d e (hp.entries d (hperm.mem_iff.mp hd))
    (hp.entries e (hperm.mem_iff.mp he)) hsame
  exact hne hl hname

end Program

/-- A run that succeeds makes one file for each entry, language after language in the order of
their names, and no two of them at the same path. -/
theorem compile_emits_once {source : String} {settings : Settings} {out : Output}
    (h : compile source settings = .ok out) :
    ∃ p, Program.ofText source = .ok p ∧
      out.languages.Pairwise (· < ·) ∧
      (∀ language, language ∈ out.languages ↔ ∃ e ∈ p.entries, e.language = language) ∧
      (out.languages.flatMap p.entriesIn).Perm p.entries ∧
      List.Forall₂ (fun e file => OutputFile.IsFileOf file p settings.target e ∧
        file.path = e.filePath settings.rootPackage) (out.languages.flatMap p.entriesIn) out.files ∧
      (out.files.map OutputFile.path).Nodup := by
  obtain ⟨p, hread, hp, hgenerate⟩ := compile_ok h
  refine ⟨p, hread, ?_, (Program.generate_ok hgenerate).1, Program.byLanguage_perm hgenerate, ?_,
    ?_⟩
  · rw [Program.languages_of_generate hgenerate, Program.languages_eq]
    exact Text.pairwise_sortedSet _
  · exact (Program.forall₂_files hgenerate).imp fun _ _ hfile => ⟨hfile, hfile.path_eq⟩
  · exact hp.nodup_files (g := id) hgenerate fun _ _ hd he => hd.filePath_inj he

/-- The rules of two languages in turns, with one name in both. -/
def alternatingText : String := "java:\nName <- 0\ngo:\nName <- 0\njava:\nPass <- Name"

def alternating : Program :=
  .unasked
    [⟨"java", .node (.ordinary "Name" [.empty])⟩, ⟨"go", .node (.ordinary "Name" [.empty])⟩,
      ⟨"java", .node (.ordinary "Pass" [.descriptor (.plain "Name" .one)])⟩]

theorem compile_emits_once_alternating :
    ∃ out, compile alternatingText { rootPackage := "org.tree" } = .ok out ∧
      out.languages = ["go", "java"] ∧
      out.files.map OutputFile.path =
        ["org/tree/go/Name.java", "org/tree/java/Name.java", "org/tree/java/Pass.java"] ∧
      (out.files.map OutputFile.path).Nodup := by
  have hread : Program.ofText alternatingText = .ok alternating := by with_unfolding_all rfl
  obtain ⟨out, hcompile, hlanguages, hpaths⟩ :
      ∃ out, compile alternatingText { rootPackage := "org.tree" } = .ok out ∧
        out.languages = ["go", "java"] ∧ out.files.map OutputFile.path =
          ["org/tree/go/Name.java", "org/tree/java/Name.java", "org/tree/java/Pass.java"] := by
    rw [compile, hread]
    exact ⟨_, rfl, by decide, by decide⟩
  obtain ⟨-, -, -, -, -, -, hnodup⟩ := compile_emits_once hcompile
  exact ⟨out, hcompile, hlanguages, hpaths, hnodup⟩

end NodeRules
