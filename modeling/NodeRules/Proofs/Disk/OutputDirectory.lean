import Mathlib.Logic.Basic
import NodeRules.Proofs.Disk.Run

namespace NodeRules

namespace Path

def names (path : String) : List String := (parts path).filter fun part => part != "" && part != "."

/-- The path goes on behind the directory and never goes up again. -/
def Below (directory path : String) : Prop :=
  isAbsolute path = isAbsolute directory ∧
    ∃ rest, rest ≠ [] ∧ ".." ∉ rest ∧ names path = names directory ++ rest

theorem parts_slash (front back : String) :
    parts (front ++ "/" ++ back) = parts front ++ parts back := by
  have hlist : (front ++ "/" ++ back).toList = front.toList ++ '/' :: back.toList := by simp
  rw [parts, hlist, split_slash, List.map_append, parts, parts]

theorem names_slash (front back : String) :
    names (front ++ "/" ++ back) = names front ++ names back := by
  rw [names, parts_slash, List.filter_append, names, names]

theorem names_empty : names "" = [] := by decide

section Join

variable {path : String} (h : isAbsolute path = false) (directory : String)

include h

theorem names_join : names (join directory path) = names directory ++ names path := by
  rw [join, h, Bool.false_or]
  split
  · rename_i hempty
    rw [beq_iff_eq.mp hempty, names_empty, List.nil_append]
  split
  · rename_i hslash
    obtain ⟨front, hfront⟩ : ∃ front, directory = front ++ "/" := by
      obtain ⟨cs, hcs⟩ := List.getLast?_eq_some_iff.mp (beq_iff_eq.mp hslash)
      exact ⟨String.ofList cs, String.toList_injective (by simpa using hcs)⟩
    have hself : names (front ++ "/") = names front := by
      have hnames := names_slash front ""
      rwa [String.append_empty, names_empty, List.append_nil] at hnames
    rw [hfront, names_slash, hself]
  · exact names_slash directory path

theorem isAbsolute_join : isAbsolute (join directory path) = isAbsolute directory := by
  rw [join, h, Bool.false_or]
  split
  · rename_i hempty
    rw [h, beq_iff_eq.mp hempty]
    decide
  · rename_i hne
    have hdirectory : directory ≠ "" := fun he => hne (beq_iff_eq.mpr he)
    split
    · exact isAbsolute_append hdirectory path
    · rw [String.append_assoc]
      exact isAbsolute_append hdirectory _

end Join

theorem join_of_isAbsolute {path : String} (h : isAbsolute path = true) (directory : String) :
    join directory path = path := by
  rw [join, h, Bool.true_or, if_pos rfl]

theorem mem_of_mem_split {cs part : List Char} (h : part ∈ split cs) {c : Char} (hc : c ∈ part) :
    c ∈ cs := by
  induction cs generalizing part with
  | nil =>
      rw [split, List.mem_singleton] at h
      rwa [h] at hc
  | cons d cs ih =>
      rw [split] at h
      split at h
      · rcases List.mem_cons.mp h with rfl | h
        · cases hc
        · exact List.mem_cons_of_mem d (ih h hc)
      · obtain ⟨first, parts, hparts⟩ := List.exists_cons_of_ne_nil (split_ne_nil cs)
        rw [hparts] at h ih
        rcases List.mem_cons.mp h with rfl | h
        · rcases List.mem_cons.mp hc with rfl | hc
          · exact List.mem_cons_self
          · exact List.mem_cons_of_mem d (ih List.mem_cons_self hc)
        · exact List.mem_cons_of_mem d (ih (List.mem_cons_of_mem _ h) hc)

end Path

namespace Disk

theorem foldl_enter_names (l : Location) (parts : List String) :
    (parts.filter fun part => part != "" && part != ".").foldl Location.enter l =
      parts.foldl Location.enter l := by
  induction parts generalizing l with
  | nil => rfl
  | cons part parts ih =>
      by_cases hstay : part = "" ∨ part = "."
      · have henter : l.enter part = l := if_pos hstay
        rw [List.foldl_cons, henter, ← ih l, List.filter_cons_of_neg]
        simpa [or_iff_not_imp_left] using hstay
      · rw [List.filter_cons_of_pos (by simpa using hstay), List.foldl_cons, List.foldl_cons, ih]

theorem prefix_foldl_enter {parts : List String} (h : ".." ∉ parts) (l : Location) :
    l <+: parts.foldl Location.enter l := by
  induction parts generalizing l with
  | nil => exact List.prefix_rfl
  | cons part parts ih =>
      simp only [List.mem_cons, not_or] at h
      refine List.IsPrefix.trans ?_ (ih h.2 (l.enter part))
      rw [Location.enter]
      split
      · exact List.prefix_rfl
      · rw [if_neg fun he => h.1 he.symm]
        exact List.prefix_append l [part]

theorem prefix_place {directory path : String} (h : Path.Below directory path) (d : Disk) :
    d.place directory <+: d.place path := by
  obtain ⟨habsolute, rest, -, hup, hnames⟩ := h
  have hplace (path : String) :
      d.place path = (Path.names path).foldl Location.enter (d.start path) :=
    (foldl_enter_names _ _).symm
  rw [hplace directory, hplace path, hnames, List.foldl_append, start, start, habsolute]
  exact prefix_foldl_enter hup _

end Disk

/-- Nothing stands in front of the first dot or slash of the package. -/
def IsRooted (rootPackage : String) : Prop := ∀ c ∈ rootPackage.toList.head?, c = '.' ∨ c = '/'

namespace Entry.Readable

variable {e : Entry} (h : e.Readable) (rootPackage : String)

include h

theorem isAbsolute_filePath :
    Path.isAbsolute (e.filePath rootPackage) = true ↔ IsRooted rootPackage := by
  rw [Path.isAbsolute, h.toList_filePath, rootDirectory, IsRooted, beq_iff_eq]
  cases rootPackage.toList with
  | nil => simp
  | cons c cs => by_cases hc : c = '.' <;> simp [hc]

theorem parts_filePath : Path.parts (e.filePath rootPackage) =
    (Path.split (rootPackage.toList.map fun c => if c = '.' then '/' else c)).map String.ofList ++
      [e.language, e.name ++ ".java"] := by
  have hjava : '/' ∉ e.name.toList ++ ".java".toList := by simp [h.slash_not_mem_name]
  rw [Path.parts, h.toList_filePath, rootDirectory, List.append_assoc, List.singleton_append,
    Path.split_slash, Path.split_slash, Path.split_name h.slash_not_mem_language,
    Path.split_name hjava]
  simp

theorem up_not_mem_parts : ".." ∉ Path.parts (e.filePath rootPackage) := by
  rw [h.parts_filePath, List.mem_append, not_or]
  constructor
  · intro hmem
    obtain ⟨part, hpart, hup⟩ := List.mem_map.mp hmem
    have hdot : '.' ∈ part := by
      rw [← String.toList_ofList (l := part), hup]
      simp
    obtain ⟨c, -, hc⟩ := List.mem_map.mp (Path.mem_of_mem_split hpart hdot)
    split at hc
    · cases hc
    · rename_i hne
      exact hne hc
  · have hlanguage := h.language_ne
    have hname := append_java_ne e.name
    simp only [List.mem_cons, List.not_mem_nil, or_false, not_or] at hlanguage hname ⊢
    exact ⟨Ne.symm hlanguage.2.2, Ne.symm hname.2.2⟩

theorem java_mem_names : e.name ++ ".java" ∈ Path.names (e.filePath rootPackage) := by
  have hname := append_java_ne e.name
  simp only [List.mem_cons, List.not_mem_nil, or_false, not_or] at hname
  rw [Path.names, List.mem_filter, h.parts_filePath]
  simp [hname]

theorem below_filePath (hrooted : ¬ IsRooted rootPackage) (output : String) :
    Path.Below output (Path.join output (e.filePath rootPackage)) := by
  have hrelative : Path.isAbsolute (e.filePath rootPackage) = false := by
    rw [Bool.eq_false_iff, ne_eq, h.isAbsolute_filePath]
    exact hrooted
  have hup : ".." ∉ Path.names (e.filePath rootPackage) := by
    rw [Path.names, List.mem_filter, not_and]
    intro hmem
    exact absurd hmem (h.up_not_mem_parts rootPackage)
  have hne := List.ne_nil_of_mem (h.java_mem_names rootPackage)
  rw [Path.Below]
  exact ⟨Path.isAbsolute_join hrelative output, _, hne, hup, Path.names_join hrelative output⟩

end Entry.Readable

theorem exists_entry_of_compile {source : String} {settings : Settings} {out : Output}
    (h : compile source settings = .ok out) {f : OutputFile} (hf : f ∈ out.files) :
    ∃ e : Entry, e.Readable ∧ f.path = e.filePath settings.rootPackage := by
  obtain ⟨p, -, hp, hgenerate⟩ := compile_ok h
  have hpath : f.path ∈ out.files.map fun f => id f.path := List.mem_map_of_mem hf
  rw [Program.map_files id hgenerate] at hpath
  obtain ⟨e, he, hsame⟩ := List.mem_map.mp hpath
  exact ⟨e, hp.entries e ((Program.byLanguage_perm hgenerate).mem_iff.mp he), hsame.symm⟩

section Stateful

variable {σ : Type} (files : FileAccess (StateM σ))

theorem readSettings_ok {o : Options} {s s' : σ} {settings : Settings}
    (h : (readSettings files o).run s = (.ok settings, s')) :
    settings.rootPackage = o.settings.rootPackage := by
  rw [readSettings] at h
  cases hlicense : o.licenseFile with
  | none =>
      rw [hlicense] at h
      cases h
      rfl
  | some path =>
      rw [hlicense] at h
      dsimp only at h
      rcases hread : (files.read path).run s with ⟨result, s₁⟩
      rw [run_bind_of hread] at h
      cases result with
      | error fault => cases h
      | ok license =>
          cases h
          rfl

/-- What is written comes from rules, with the package that the run is asked for. -/
theorem prepare_ok {o : Options} {s s' : σ} {out : Output}
    (h : (prepare files o).run s = (.ok out, s')) :
    ∃ source settings, settings.rootPackage = o.settings.rootPackage ∧
      compile source settings = .ok out := by
  rw [prepare] at h
  rcases hread : (files.read o.input).run s with ⟨result, s₁⟩
  rw [run_bind_of hread] at h
  cases result with
  | error fault => cases h
  | ok source =>
      dsimp only at h
      rcases hsettings : (readSettings files o).run s₁ with ⟨result, s₂⟩
      rw [run_bind_of hsettings] at h
      cases result with
      | error e => cases h
      | ok settings =>
          refine ⟨source, settings, readSettings_ok files hsettings, ?_⟩
          exact mapError_ok (congrArg Prod.fst h)

theorem exists_entry_of_prepare {o : Options} {s s' : σ} {out : Output}
    (h : (prepare files o).run s = (.ok out, s')) {f : OutputFile} (hf : f ∈ out.files) :
    ∃ e : Entry, e.Readable ∧ f.path = e.filePath o.settings.rootPackage := by
  obtain ⟨source, settings, hpackage, hcompile⟩ := prepare_ok files h
  rw [← hpackage]
  exact exists_entry_of_compile hcompile hf

theorem writeFiles_congr {fs : List OutputFile} (h : ∀ f ∈ fs, Path.isAbsolute f.path = true)
    (output output' : String) : writeFiles files output fs = writeFiles files output' fs := by
  induction fs with
  | nil => rfl
  | cons f fs ih =>
      obtain ⟨hf, hfs⟩ := List.forall_mem_cons.mp h
      rw [writeFiles, writeFiles, Path.join_of_isAbsolute hf, Path.join_of_isAbsolute hf, ih hfs]

/-- The output directory has no part in a run for a package at the root. -/
theorem run_congr {o : Options} (h : IsRooted o.settings.rootPackage) (output : String) :
    run files { o with output } = run files o := by
  rw [run_eq, run_eq]
  funext s
  change (prepare files o >>= deliver files output).run s =
    (prepare files o >>= deliver files o.output).run s
  rcases hprepare : (prepare files o).run s with ⟨result, s'⟩
  rw [run_bind_of hprepare, run_bind_of hprepare]
  cases result with
  | error e => rfl
  | ok out =>
      have habsolute : ∀ f ∈ out.files, Path.isAbsolute f.path = true := by
        intro f hf
        obtain ⟨e, he, hpath⟩ := exists_entry_of_prepare files hprepare hf
        rw [hpath, he.isAbsolute_filePath]
        exact h
      rw [deliver, deliver, writeFiles_congr files habsolute output o.output]

namespace FileAccess

def logged : FileAccess (StateM (σ × List String)) where
  read path := fun (s, log) => ((files.read path s).1, (files.read path s).2, log)
  write path content := fun (s, log) =>
    ((files.write path content s).1, (files.write path content s).2, log ++ [path])

end FileAccess

/-- The second computation does what the first does and lists paths, all with the property `P`. -/
def Lists {α : Type} (P : String → Prop) (x : StateM σ α) (y : StateM (σ × List String) α) : Prop :=
  ∀ s log, ∃ more, (∀ path ∈ more, P path) ∧
    y.run (s, log) = ((x.run s).1, (x.run s).2, log ++ more)

namespace Lists

variable {α β : Type} {P : String → Prop}

theorem pure (a : α) : Lists P (pure a : StateM σ α) (Pure.pure a) :=
  fun _ _ => ⟨[], by simp, by rw [List.append_nil]; rfl⟩

theorem bind {x : StateM σ α} {y : StateM (σ × List String) α} (h : Lists P x y)
    {next : α → StateM σ β} {next' : α → StateM (σ × List String) β}
    (hnext : ∀ s a s', x.run s = (a, s') → Lists P (next a) (next' a)) :
    Lists P (x >>= next) (y >>= next') := by
  intro s log
  obtain ⟨first, hfirst, hy⟩ := h s log
  rcases hx : x.run s with ⟨a, s'⟩
  rw [hx] at hy
  obtain ⟨second, hsecond, hz⟩ := hnext s a s' hx s' (log ++ first)
  refine ⟨first ++ second, List.forall_mem_append.mpr ⟨hfirst, hsecond⟩, ?_⟩
  rw [run_bind_of hy, hz, run_bind_of hx, List.append_assoc]

theorem read (path : String) : Lists P (files.read path) (files.logged.read path) :=
  fun _ _ => ⟨[], by simp, by rw [List.append_nil]; rfl⟩

theorem write {path : String} (h : P path) (content : String) :
    Lists P (files.write path content) (files.logged.write path content) :=
  fun _ _ => ⟨[path], by simpa using h, rfl⟩

theorem writeFiles {output : String} {fs : List OutputFile}
    (h : ∀ f ∈ fs, P (Path.join output f.path)) :
    Lists P (writeFiles files output fs) (NodeRules.writeFiles files.logged output fs) := by
  induction fs with
  | nil => exact .pure _
  | cons f fs ih =>
      obtain ⟨hf, hfs⟩ := List.forall_mem_cons.mp h
      refine (write files hf f.content).bind fun s result s' _ => ?_
      cases result with
      | error fault => exact .pure _
      | ok _ => exact ih hfs

theorem readSettings (o : Options) :
    Lists P (readSettings files o) (NodeRules.readSettings files.logged o) := by
  rw [NodeRules.readSettings, NodeRules.readSettings]
  cases o.licenseFile with
  | none => exact .pure _
  | some path =>
      refine (read files path).bind fun s result s' _ => ?_
      cases result with
      | error fault => exact .pure _
      | ok license => exact .pure _

theorem prepare (o : Options) : Lists P (prepare files o) (NodeRules.prepare files.logged o) := by
  refine (read files o.input).bind fun s result s' _ => ?_
  cases result with
  | error fault => exact .pure _
  | ok source =>
      refine (readSettings files o).bind fun s result s' _ => ?_
      cases result with
      | error e => exact .pure _
      | ok settings => exact .pure _

theorem run (o : Options) :
    Lists (fun path => ∃ e : Entry, e.Readable ∧
        path = Path.join o.output (e.filePath o.settings.rootPackage))
      (run files o) (NodeRules.run files.logged o) := by
  rw [run_eq, run_eq]
  refine (prepare files o).bind fun s result s' hprepare => ?_
  cases result with
  | error e => exact .pure _
  | ok out =>
      refine (writeFiles files ?_).bind fun s result s' _ => ?_
      · intro f hf
        obtain ⟨e, he, hpath⟩ := exists_entry_of_prepare files hprepare hf
        exact ⟨e, he, by rw [hpath]⟩
      · cases result with
        | error e => exact .pure _
        | ok _ => exact .pure _

end Lists

def Options.written (o : Options) (s : σ) : List String := ((run files.logged o).run (s, [])).2.2

theorem run_logged (o : Options) (s : σ) :
    (run files.logged o).run (s, []) =
      (((run files o).run s).1, ((run files o).run s).2, o.written files s) ∧
    ∀ path ∈ o.written files s, ∃ e : Entry, e.Readable ∧
      path = Path.join o.output (e.filePath o.settings.rootPackage) := by
  obtain ⟨more, hmore, hrun⟩ := Lists.run files o s []
  have hwritten : o.written files s = more := by rw [Options.written, hrun]; rfl
  rw [hwritten]
  exact ⟨hrun, hmore⟩

end Stateful

theorem Options.Compiles.exists_entry {o : Options} {d : Disk} {out : Output}
    (h : o.Compiles d out) {f : OutputFile} (hf : f ∈ out.files) :
    ∃ e : Entry, e.Readable ∧ f.path = e.filePath o.settings.rootPackage := by
  obtain ⟨source, settings, -, hsettles, hcompile⟩ := h
  have hpackage : settings.rootPackage = o.settings.rootPackage := by
    rw [Options.Settles] at hsettles
    split at hsettles
    · rw [hsettles]
    · obtain ⟨license, -, rfl⟩ := hsettles
      rfl
  rw [← hpackage]
  exact exists_entry_of_compile hcompile hf

/-- Of all files on a disk, only those below the output directory change. -/
theorem run_changes_below {o : Options} (h : ¬ IsRooted o.settings.rootPackage) (d : Disk)
    {l : Disk.Location}
    (hl : ((run Disk.access o).run d).2.contentAt? l ≠ d.contentAt? l) :
    d.place o.output <+: l := by
  -- Whether the run has ended early or not, it has written files of the output and nothing else.
  have hchange {out : Output} {files : List OutputFile} {d' : Disk} (hout : o.Compiles d out)
      (hfiles : ∀ f ∈ files, f ∈ out.files) (hgains : d.Gains o.output files d')
      (hl : d'.contentAt? l ≠ d.contentAt? l) : d.place o.output <+: l := by
    by_contra hbelow
    refine hl (hgains.others l fun f hf hplace => hbelow ?_)
    obtain ⟨e, he, hpath⟩ := hout.exists_entry (hfiles f hf)
    rw [hplace, hpath]
    exact Disk.prefix_place (he.below_filePath _ h o.output) d
  obtain ⟨result, d', hrun, hends⟩ := run_ends o d
  rw [hrun] at hl
  cases hends with
  | unread => exact absurd rfl hl
  | rejected => exact absurd rfl hl
  | stopped hout hfiles _ hgains =>
      refine hchange hout (fun f hf => ?_) hgains hl
      rw [hfiles]
      exact List.mem_append_left _ hf
  | finished hout hgains => exact hchange hout (fun f hf => hf) hgains hl

/-- A run writes below the output directory, and changes no file elsewhere, if the package has a
name in front of its first dot or slash. If not, every path that it writes to starts at the root,
and the run is the same for all output directories. -/
theorem run_keeps_to_output (o : Options) {σ : Type} (files : FileAccess (StateM σ)) (s : σ) :
    (run files.logged o).run (s, []) =
      (((run files o).run s).1, ((run files o).run s).2, o.written files s) ∧
    (∀ source out, compile source o.settings = .ok out → ∀ f ∈ out.files,
      (Path.isAbsolute f.path = true ↔ IsRooted o.settings.rootPackage)) ∧
    (¬ IsRooted o.settings.rootPackage →
      (∀ path ∈ o.written files s, Path.Below o.output path) ∧
      ∀ (d : Disk) (l : Disk.Location),
        ((run Disk.access o).run d).2.contentAt? l ≠ d.contentAt? l → d.place o.output <+: l) ∧
    (IsRooted o.settings.rootPackage →
      (∀ path ∈ o.written files s, Path.isAbsolute path = true) ∧
      ∀ output, run files { o with output } = run files o) := by
  obtain ⟨hrun, hwritten⟩ := run_logged files o s
  refine ⟨hrun, ?_, ?_, ?_⟩
  · intro source out hcompile f hf
    obtain ⟨e, he, hpath⟩ := exists_entry_of_compile hcompile hf
    rw [hpath]
    exact he.isAbsolute_filePath _
  · intro hrooted
    refine ⟨?_, fun d l => run_changes_below hrooted d⟩
    intro path hpath
    obtain ⟨e, he, hjoin⟩ := hwritten path hpath
    rw [hjoin]
    exact he.below_filePath _ hrooted o.output
  · intro hrooted
    refine ⟨?_, run_congr files hrooted⟩
    intro path hpath
    obtain ⟨e, he, hjoin⟩ := hwritten path hpath
    have habsolute := (he.isAbsolute_filePath _).mpr hrooted
    rw [hjoin, Path.join_of_isAbsolute habsolute]
    exact habsolute

def nameEntry : Entry := ⟨"common", .node (.ordinary "Name" [.empty])⟩

theorem compile_name (rootPackage : String) :
    ∃ content, compile "Name <- 0" (outOptions rootPackage).settings =
      .ok ⟨["common"], [⟨nameEntry.filePath rootPackage, content⟩]⟩ := by
  have hread : Program.ofText "Name <- 0" = .ok (.unasked [nameEntry]) := by with_unfolding_all rfl
  rw [compile, hread]
  exact ⟨_, rfl⟩

def nameFiles : FileAccess (StateM Unit) where
  read _ := pure (.ok "Name <- 0")
  write _ _ := pure (.ok ())

theorem written_name (rootPackage : String) :
    (outOptions rootPackage).written nameFiles () =
      [Path.join "out" (nameEntry.filePath rootPackage)] := by
  obtain ⟨content, hcompile⟩ := compile_name rootPackage
  have hprepare : (prepare nameFiles.logged (outOptions rootPackage)).run ((), []) =
      (.ok ⟨["common"], [⟨nameEntry.filePath rootPackage, content⟩]⟩, (), []) := by
    change ((compile "Name <- 0" (outOptions rootPackage).settings).mapError _, _) = _
    rw [hcompile]
    rfl
  rw [Options.written, run_eq, run_bind_of hprepare]
  rfl

theorem run_keeps_to_output_name :
    ((outOptions "org.tree").written nameFiles () = ["out/org/tree/common/Name.java"] ∧
      Path.Below "out" "out/org/tree/common/Name.java") ∧
    (outOptions "").written nameFiles () = ["/common/Name.java"] ∧
      run nameFiles { outOptions "" with output := "in" } = run nameFiles (outOptions "") := by
  have hwritten :
      (outOptions "org.tree").written nameFiles () = ["out/org/tree/common/Name.java"] :=
    (written_name "org.tree").trans (by decide)
  have hrooted : ¬ IsRooted "org.tree" := by simp [IsRooted]
  obtain ⟨-, -, hbelow, -⟩ := run_keeps_to_output (outOptions "org.tree") nameFiles ()
  obtain ⟨-, -, -, hsame⟩ := run_keeps_to_output (outOptions "") nameFiles ()
  refine ⟨⟨hwritten, (hbelow hrooted).1 _ ?_⟩, (written_name "").trans (by decide), ?_⟩
  · rw [hwritten]
    exact List.mem_cons_self
  · exact (hsame (by simp [IsRooted, outOptions])).2 "in"

def ruleDisk : Disk :=
  ⟨["work"], [(["work"], .directory), (["work", "rules.dsl"], .file "Name <- 0".toUTF8.data)]⟩

/-- With an empty package, the output directory `out` is left for the root. -/
theorem run_leaves_output :
    Options.ofArguments ["rules.dsl", "--package=", "--output=out"] = .ok (outOptions "") ∧
      ∃ (content : String) (d' : Disk),
        (run Disk.access (outOptions "")).run ruleDisk = (.ok 1, d') ∧
        ruleDisk.contentAt? ["common", "Name.java"] = none ∧
        d'.contentAt? ["common", "Name.java"] = some content.toUTF8.data ∧
        ¬ ruleDisk.place "out" <+: ["common", "Name.java"] := by
  obtain ⟨content, hcompile⟩ := compile_name ""
  have hout : (outOptions "").Compiles ruleDisk
      ⟨["common"], [⟨nameEntry.filePath "", content⟩]⟩ :=
    ⟨"Name <- 0", _, by with_unfolding_all rfl, rfl, hcompile⟩
  have hpath : Path.join "out" (nameEntry.filePath "") = "/common/Name.java" := by decide
  obtain ⟨d', hwrite, hcontent⟩ : ∃ d',
      ruleDisk.write (Path.join "out" (nameEntry.filePath "")) content = (.ok (), d') ∧
        d'.contentAt? ["common", "Name.java"] = some content.toUTF8.data := by
    rw [hpath]
    exact ⟨(ruleDisk.write "/common/Name.java" content).2, Prod.ext rfl rfl, rfl⟩
  have hfiles : (writeFiles Disk.access "out" [⟨nameEntry.filePath "", content⟩]).run ruleDisk =
      (.ok (), d') :=
    writeFiles_cons_ok (f := ⟨nameEntry.filePath "", content⟩) hwrite []
  exact ⟨rfl, content, d', hout.run hfiles, rfl, hcontent, by decide⟩

end NodeRules
