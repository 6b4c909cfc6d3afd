import NodeRules.CommandLine
import NodeRules.Proofs.Compile.Paths
import NodeRules.Proofs.Disk.Changes

namespace NodeRules

namespace Options

def Settles (o : Options) (d : Disk) (settings : Settings) : Prop :=
  match o.licenseFile with
  | none => settings = o.settings
  | some path => ∃ license, d.read path = .ok license ∧ settings = { o.settings with license }

def Compiles (o : Options) (d : Disk) (out : Output) : Prop :=
  ∃ source settings, d.read o.input = .ok source ∧ o.Settles d settings ∧
    compile source settings = .ok out

end Options

namespace Disk

/-- The files can be read below the output directory, no other file has changed, and no directory
is lost. -/
structure Gains (d : Disk) (output : String) (files : List OutputFile) (d' : Disk) : Prop where
  keeps : d.Keeps d'
  present : ∀ f ∈ files, d'.read (Path.join output f.path) = .ok f.content
  others : ∀ l, (∀ f ∈ files, l ≠ d.place (Path.join output f.path)) →
    d'.contentAt? l = d.contentAt? l

variable {d d' d'' : Disk} {output : String}

theorem Grows.gains (h : d.Grows d') : d.Gains output [] d' :=
  ⟨h.keeps, by simp, fun l _ => h.contentAt?_eq l⟩

theorem Writes.gains {f : OutputFile}
    (h : d.Writes (Path.join output f.path) f.content (.ok ()) d') : d.Gains output [f] d' := by
  cases h with
  | @written mid hgrows hlocate hfree =>
      have hput : mid.Keeps
          (mid.put (mid.place (Path.join output f.path)) (.file f.content.toUTF8.data)) :=
        keeps_put hfree _
      refine ⟨hgrows.keeps.trans hput, ?_, ?_⟩
      · simp only [List.forall_mem_singleton]
        rw [read_ok_iff, hput.place_eq]
        exact ⟨hput.locate hlocate, by rw [contentAt?_put hfree, if_pos rfl]⟩
      · intro l hl
        rw [contentAt?_put hfree, hgrows.keeps.place_eq, if_neg (hl f List.mem_cons_self)]
        exact hgrows.contentAt?_eq l

/-- Files that are written behind others leave them alone, unless they lead to the same place. -/
theorem Gains.append {files more : List OutputFile} (h : d.Gains output files d')
    (h' : d'.Gains output more d'')
    (hapart : ∀ f ∈ files, ∀ g ∈ more,
      d.place (Path.join output f.path) ≠ d.place (Path.join output g.path)) :
    d.Gains output (files ++ more) d'' := by
  have hplace := h.keeps.place_eq
  refine ⟨h.keeps.trans h'.keeps, ?_, ?_⟩
  · intro f hf
    rcases List.mem_append.mp hf with hf | hf
    · refine h'.keeps.read (h'.others _ ?_) (h.present f hf)
      intro g hg
      rw [hplace, hplace]
      exact hapart f hf g hg
    · exact h'.present f hf
  · intro l hl
    rw [h'.others l, h.others l fun f hf => hl f (List.mem_append_left _ hf)]
    intro g hg
    rw [hplace]
    exact hl g (List.mem_append_right _ hg)

end Disk

theorem run_bind_of {σ α β : Type} {s s' : σ} {m : StateM σ α} {a : α} (h : m.run s = (a, s'))
    (next : α → StateM σ β) : (m >>= next).run s = (next a).run s' := by
  rw [StateT.run_bind, h]
  rfl

theorem Disk.run_read {d : Disk} {path : String} {result : Except FileFault String}
    (h : d.read path = result) : (Disk.access.read path).run d = (result, d) := by
  rw [← h]
  rfl

theorem Disk.run_write {d d' : Disk} {path content : String} {result : Except FileFault Unit}
    (h : d.write path content = (result, d')) :
    (Disk.access.write path content).run d = (result, d') := by
  simpa only [Disk.access, StateT.run] using h

section WriteFiles

variable {d d' : Disk} {output : String} {f : OutputFile} {fault : FileFault}

theorem writeFiles_cons_error
    (h : d.write (Path.join output f.path) f.content = (.error fault, d'))
    (files : List OutputFile) :
    (writeFiles Disk.access output (f :: files)).run d =
      (.error (.write (Path.join output f.path) fault), d') := by
  rw [writeFiles, run_bind_of (Disk.run_write h)]
  rfl

theorem writeFiles_cons_ok (h : d.write (Path.join output f.path) f.content = (.ok (), d'))
    (files : List OutputFile) :
    (writeFiles Disk.access output (f :: files)).run d =
      (writeFiles Disk.access output files).run d' := by
  rw [writeFiles, run_bind_of (Disk.run_write h)]

end WriteFiles

theorem writeFiles_cases (output : String) (files : List OutputFile) (d : Disk)
    (hnodup : (files.map fun f => d.place (Path.join output f.path)).Nodup) :
    (∃ d', (writeFiles Disk.access output files).run d = (.ok (), d') ∧
      d.Gains output files d') ∨
    (∃ d' done f rest fault, files = done ++ f :: rest ∧
      (writeFiles Disk.access output files).run d =
        (.error (.write (Path.join output f.path) fault), d') ∧ d.Gains output done d') := by
  induction files generalizing d with
  | nil => exact .inl ⟨d, rfl, (Disk.Grows.refl d).gains⟩
  | cons f files ih =>
      obtain ⟨hfresh, hnodup⟩ := List.nodup_cons.mp hnodup
      rcases hwrite : d.write (Path.join output f.path) f.content with ⟨result, mid⟩
      have hstep := Disk.write_writes hwrite
      cases result with
      | error fault =>
          cases hstep with
          | failed hgrows =>
              exact .inr ⟨mid, [], f, files, fault, rfl, writeFiles_cons_error hwrite files,
                hgrows.gains⟩
      | ok _ =>
          have hfirst : d.Gains output [f] mid := hstep.gains
          have hapart (g : OutputFile) (hg : g ∈ files) :
              d.place (Path.join output f.path) ≠ d.place (Path.join output g.path) := by
            intro he
            exact hfresh (List.mem_map.mpr ⟨g, hg, he.symm⟩)
          rw [writeFiles_cons_ok hwrite]
          rcases ih mid (by simpa only [hfirst.keeps.place_eq] using hnodup) with
            ⟨d', hrun, hgains⟩ | ⟨d', done, g, rest, fault, rfl, hrun, hgains⟩
          · refine .inl ⟨d', hrun, hfirst.append hgains ?_⟩
            simpa only [List.forall_mem_singleton] using hapart
          · refine .inr ⟨d', f :: done, g, rest, fault, rfl, hrun, hfirst.append hgains ?_⟩
            simp only [List.forall_mem_singleton]
            intro g' hg'
            exact hapart g' (List.mem_append_left _ hg')

theorem Entry.Readable.filePath_eq {e : Entry} (h : e.Readable) (rootPackage : String) :
    e.filePath rootPackage = String.ofList (rootDirectory rootPackage) ++
      (e.language ++ "/" ++ (e.name ++ ".java")) := by
  apply String.toList_injective
  rw [h.toList_filePath]
  simp

theorem Entry.Readable.language_ne {e : Entry} (h : e.Readable) :
    e.language ∉ ["", ".", ".."] := by
  have hdot : '.' ∉ e.language.toList := h.language.not_mem rfl
  have hne := h.language.ne_empty
  simp only [List.mem_cons, List.not_mem_nil, or_false, not_or]
  refine ⟨hne, ?_, ?_⟩
  · intro he
    simp [he] at hdot
  · intro he
    simp [he] at hdot

theorem append_java_ne (name : String) : name ++ ".java" ∉ ["", ".", ".."] := by
  have hlength : 5 ≤ (name ++ ".java").toList.length := by simp
  intro hmem
  simp only [List.mem_cons, List.not_mem_nil, or_false] at hmem
  rcases hmem with he | he | he <;> simp [he] at hlength

/-- Generated files lead to places of their own, whatever the output directory and the package. -/
theorem Program.Readable.nodup_places {p : Program} {target : Java.Target} {out : Output}
    (hp : p.Readable) (h : p.generate target = .ok out) (d : Disk) (output : String) :
    (out.files.map fun f => d.place (Path.join output f.path)).Nodup := by
  apply hp.nodup_files (g := fun path => d.place (Path.join output path)) h
  intro e e' he he' hsame
  obtain ⟨base, hbase⟩ := d.exists_place_join output
    (String.toList_ofList (l := rootDirectory target.rootPackage))
  have hslash {e : Entry} (he : e.Readable) : '/' ∉ (e.name ++ ".java").toList := by
    simp [he.slash_not_mem_name]
  rw [he.filePath_eq, he'.filePath_eq,
    hbase _ _ he.slash_not_mem_language (hslash he) he.language_ne (append_java_ne _),
    hbase _ _ he'.slash_not_mem_language (hslash he') he'.language_ne (append_java_ne _)] at hsame
  simp only [List.append_cancel_left_eq, List.cons.injEq, and_true] at hsame
  exact ⟨hsame.1, (String.append_left_inj _).mp hsame.2⟩

section Run

variable {m : Type → Type} [Monad m]

def prepare (files : FileAccess m) (o : Options) : m (Except CommandError Output) := do
  match ← files.read o.input with
  | .error fault => pure (.error (.read o.input fault))
  | .ok source =>
    match ← readSettings files o with
    | .error e => pure (.error e)
    | .ok settings => pure ((compile source settings).mapError .compile)

def deliver (files : FileAccess m) (output : String) :
    Except CommandError Output → m (Except CommandError Nat)
  | .error e => pure (.error e)
  | .ok out => do
    match ← writeFiles files output out.files with
    | .error e => pure (.error e)
    | .ok () => pure (.ok out.files.length)

variable [LawfulMonad m]

theorem run_eq (files : FileAccess m) (o : Options) :
    run files o = prepare files o >>= deliver files o.output := by
  rw [run, prepare, bind_assoc]
  congr 1
  funext source
  cases source with
  | error fault => rw [pure_bind, deliver]
  | ok source =>
      dsimp only
      rw [bind_assoc]
      congr 1
      funext settings
      cases settings with
      | error e => rw [pure_bind, deliver]
      | ok settings =>
          dsimp only
          rw [pure_bind]
          cases compile source settings with
          | error e => rfl
          | ok out => rfl

end Run

namespace Options

variable {o : Options} {d d' : Disk} {settings : Settings} {out out' : Output}

theorem Settles.run (h : o.Settles d settings) :
    (readSettings Disk.access o).run d = (.ok settings, d) := by
  rw [Settles] at h
  rw [readSettings]
  cases hlicense : o.licenseFile with
  | none =>
      rw [hlicense] at h
      rw [h]
      rfl
  | some path =>
      rw [hlicense] at h
      obtain ⟨license, hread, rfl⟩ := h
      dsimp only
      rw [run_bind_of (Disk.run_read hread)]
      rfl

theorem Compiles.prepare (h : o.Compiles d out) :
    (prepare Disk.access o).run d = (.ok out, d) := by
  obtain ⟨source, settings, hread, hsettles, hcompile⟩ := h
  rw [NodeRules.prepare, run_bind_of (Disk.run_read hread)]
  dsimp only
  rw [run_bind_of hsettles.run]
  dsimp only
  rw [hcompile]
  rfl

theorem Compiles.unique (h : o.Compiles d out) (h' : o.Compiles d out') : out = out' := by
  have hsame := h.prepare.symm.trans h'.prepare
  cases hsame
  rfl

theorem Compiles.run {result : Except CommandError Unit} (h : o.Compiles d out)
    (hwrite : (writeFiles Disk.access o.output out.files).run d = (result, d')) :
    (run Disk.access o).run d = (result.map fun _ => out.files.length, d') := by
  rw [run_eq, run_bind_of h.prepare, deliver, run_bind_of hwrite]
  cases result with
  | error e => rfl
  | ok _ => rfl

end Options

theorem readSettings_cases (o : Options) (d : Disk) :
    (∃ path fault, (readSettings Disk.access o).run d = (.error (.read path fault), d)) ∨
    ∃ settings, o.Settles d settings := by
  rw [readSettings]
  cases hlicense : o.licenseFile with
  | none => exact .inr ⟨o.settings, by rw [Options.Settles, hlicense]⟩
  | some path =>
      dsimp only
      cases hread : d.read path with
      | error fault =>
          refine .inl ⟨path, fault, ?_⟩
          rw [run_bind_of (Disk.run_read hread)]
          rfl
      | ok license =>
          refine .inr ⟨{ o.settings with license }, ?_⟩
          rw [Options.Settles, hlicense]
          exact ⟨license, hread, rfl⟩

theorem prepare_cases (o : Options) (d : Disk) :
    (∃ path fault, (prepare Disk.access o).run d = (.error (.read path fault), d)) ∨
    (∃ e, (prepare Disk.access o).run d = (.error (.compile e), d)) ∨
    ∃ out, o.Compiles d out := by
  rw [prepare]
  cases hread : d.read o.input with
  | error fault =>
      rw [run_bind_of (Disk.run_read hread)]
      exact .inl ⟨_, _, rfl⟩
  | ok source =>
      rw [run_bind_of (Disk.run_read hread)]
      dsimp only
      rcases readSettings_cases o d with ⟨path, fault, hsettings⟩ | ⟨settings, hsettles⟩
      · rw [run_bind_of hsettings]
        exact .inl ⟨path, fault, rfl⟩
      · rw [run_bind_of hsettles.run]
        dsimp only
        cases hcompile : compile source settings with
        | error e => exact .inr (.inl ⟨e, rfl⟩)
        | ok out => exact .inr (.inr ⟨out, source, settings, hread, hsettles, hcompile⟩)

/-- How a run can end. -/
inductive Options.Ends (o : Options) (d : Disk) : Except CommandError Nat → Disk → Prop
  | unread {path : String} {fault : FileFault} : Ends o d (.error (.read path fault)) d
  | rejected {e : CompileError} : Ends o d (.error (.compile e)) d
  | stopped {out : Output} {done rest : List OutputFile} {f : OutputFile} {fault : FileFault}
      {d' : Disk} (hout : o.Compiles d out) (hfiles : out.files = done ++ f :: rest)
      (hnodup : (out.files.map fun f => d.place (Path.join o.output f.path)).Nodup)
      (hgains : d.Gains o.output done d') :
      Ends o d (.error (.write (Path.join o.output f.path) fault)) d'
  | finished {out : Output} {d' : Disk} (hout : o.Compiles d out)
      (hgains : d.Gains o.output out.files d') : Ends o d (.ok out.files.length) d'

theorem run_ends (o : Options) (d : Disk) :
    ∃ result d', (run Disk.access o).run d = (result, d') ∧ o.Ends d result d' := by
  rcases prepare_cases o d with ⟨path, fault, hprepare⟩ | ⟨e, hprepare⟩ | ⟨out, hout⟩
  · rw [run_eq, run_bind_of hprepare]
    exact ⟨_, _, rfl, .unread⟩
  · rw [run_eq, run_bind_of hprepare]
    exact ⟨_, _, rfl, .rejected⟩
  · have hnodup : (out.files.map fun f => d.place (Path.join o.output f.path)).Nodup := by
      obtain ⟨source, settings, -, -, hcompile⟩ := hout
      obtain ⟨p, -, hp, hgenerate⟩ := compile_ok hcompile
      exact hp.nodup_places hgenerate d o.output
    rcases writeFiles_cases o.output out.files d hnodup with
      ⟨d', hwrite, hgains⟩ | ⟨d', done, f, rest, fault, hfiles, hwrite, hgains⟩
    · exact ⟨_, d', hout.run hwrite, .finished hout hgains⟩
    · exact ⟨_, d', hout.run hwrite, .stopped hout hfiles hnodup hgains⟩

/-- A run that cannot read its files or compile them leaves the disk as it was. One that cannot
write a file has written those in front of it in the output, and one that succeeds all of them,
and no other file has changed. -/
theorem run_all_or_prefix (o : Options) (d : Disk) :
    (∀ path fault d', (run Disk.access o).run d = (.error (.read path fault), d') → d' = d) ∧
    (∀ e d', (run Disk.access o).run d = (.error (.compile e), d') → d' = d) ∧
    (∀ path fault d', (run Disk.access o).run d = (.error (.write path fault), d') →
      ∃ out done f rest, o.Compiles d out ∧ out.files = done ++ f :: rest ∧
        path = Path.join o.output f.path ∧ d.Gains o.output done d' ∧
        ∀ g ∈ f :: rest, d'.contentAt? (d.place (Path.join o.output g.path)) =
          d.contentAt? (d.place (Path.join o.output g.path))) ∧
    ∀ n d', (run Disk.access o).run d = (.ok n, d') →
      ∃ out, o.Compiles d out ∧ n = out.files.length ∧ d.Gains o.output out.files d' := by
  obtain ⟨result, left, hrun, hends⟩ := run_ends o d
  rw [hrun]
  refine ⟨?_, ?_, ?_, ?_⟩
  · intro path fault d' h
    cases h
    cases hends
    rfl
  · intro e d' h
    cases h
    cases hends
    rfl
  · intro path fault d' h
    cases h
    cases hends with
    | @stopped out done rest f _ _ hout hfiles hnodup hgains =>
        refine ⟨out, done, f, rest, hout, hfiles, rfl, hgains, ?_⟩
        intro g hg
        -- The places of the files are all different, so none of those behind is among the others.
        apply hgains.others
        intro g' hg' hsame
        rw [hfiles, List.map_append, List.nodup_append] at hnodup
        exact hnodup.2.2 _ (List.mem_map_of_mem hg') _ (List.mem_map_of_mem hg) hsame.symm
  · intro n d' h
    cases h
    cases hends with
    | finished hout hgains => exact ⟨_, hout, rfl, hgains⟩

def outOptions (rootPackage : String) : Options :=
  { Options.initial "rules.dsl" with
    output := "out", settings := { filePath := "rules.dsl", rootPackage } }

def pairText : String := "Name <- 0\nWord <- 0"

def pairFiles (name word : String) : List OutputFile :=
  [⟨"tree/common/Name.java", name⟩, ⟨"tree/common/Word.java", word⟩]

theorem compile_pair : ∃ name word, compile pairText (outOptions "tree").settings =
    .ok ⟨["common"], pairFiles name word⟩ := by
  have hread : Program.ofText pairText = .ok (.unasked
      [⟨"common", .node (.ordinary "Name" [.empty])⟩,
        ⟨"common", .node (.ordinary "Word" [.empty])⟩]) := by with_unfolding_all rfl
  rw [compile, hread]
  exact ⟨_, _, rfl⟩

def pairDisk (more : List (Disk.Location × Disk.Item)) : Disk :=
  ⟨["work"], (["work"], .directory) ::
    (["work", "rules.dsl"], .file pairText.toUTF8.data) :: more⟩

/-- A directory stands where the second file should go. -/
def blockedDisk : Disk :=
  pairDisk [(["work", "out"], .directory), (["work", "out", "tree"], .directory),
    (["work", "out", "tree", "common"], .directory),
    (["work", "out", "tree", "common", "Word.java"], .directory)]

theorem pairPaths :
    Path.join "out" "tree/common/Name.java" = "out/tree/common/Name.java" ∧
      Path.join "out" "tree/common/Word.java" = "out/tree/common/Word.java" := by decide

theorem compiles_pairDisk {name word : String}
    (h : compile pairText (outOptions "tree").settings = .ok ⟨["common"], pairFiles name word⟩)
    (more : List (Disk.Location × Disk.Item)) :
    (outOptions "tree").Compiles (pairDisk more) ⟨["common"], pairFiles name word⟩ :=
  ⟨pairText, _, by with_unfolding_all rfl, rfl, h⟩

theorem write_pairDisk (name word : String) :
    ∃ d', (writeFiles Disk.access "out" (pairFiles name word)).run (pairDisk []) =
      (.ok (), d') := by
  obtain ⟨mid, d', hname, hword⟩ : ∃ mid d',
      (pairDisk []).write "out/tree/common/Name.java" name = (.ok (), mid) ∧
        mid.write "out/tree/common/Word.java" word = (.ok (), d') := ⟨_, _, rfl, rfl⟩
  rw [← pairPaths.1] at hname
  rw [← pairPaths.2] at hword
  refine ⟨d', ?_⟩
  rw [pairFiles, writeFiles_cons_ok (f := ⟨"tree/common/Name.java", name⟩) hname]
  exact writeFiles_cons_ok (f := ⟨"tree/common/Word.java", word⟩) hword []

theorem write_blockedDisk (name word : String) :
    ∃ d', (writeFiles Disk.access "out" (pairFiles name word)).run blockedDisk =
      (.error (.write "out/tree/common/Word.java" .isDirectory), d') := by
  obtain ⟨mid, hname, hword⟩ : ∃ mid,
      blockedDisk.write "out/tree/common/Name.java" name = (.ok (), mid) ∧
        mid.write "out/tree/common/Word.java" word = (.error .isDirectory, mid) := ⟨_, rfl, rfl⟩
  rw [← pairPaths.1] at hname
  rw [← pairPaths.2] at hword ⊢
  refine ⟨mid, ?_⟩
  rw [pairFiles, writeFiles_cons_ok (f := ⟨"tree/common/Name.java", name⟩) hname]
  exact writeFiles_cons_error (f := ⟨"tree/common/Word.java", word⟩) hword []

theorem run_all_or_prefix_blocked :
    ∃ name word, compile pairText (outOptions "tree").settings =
        .ok ⟨["common"], pairFiles name word⟩ ∧
      (∃ d', (run Disk.access (outOptions "tree")).run (pairDisk []) = (.ok 2, d') ∧
        d'.read "out/tree/common/Name.java" = .ok name ∧
        d'.read "out/tree/common/Word.java" = .ok word ∧
        d'.contentAt? ["work", "rules.dsl"] = some pairText.toUTF8.data) ∧
      ∃ d', (run Disk.access (outOptions "tree")).run blockedDisk =
          (.error (.write "out/tree/common/Word.java" .isDirectory), d') ∧
        d'.read "out/tree/common/Name.java" = .ok name ∧
        d'.contentAt? ["work", "out", "tree", "common", "Word.java"] = none ∧
        d'.contentAt? ["work", "rules.dsl"] = some pairText.toUTF8.data := by
  obtain ⟨name, word, hcompile⟩ := compile_pair
  have hout := compiles_pairDisk hcompile
  obtain ⟨hname, hword⟩ := pairPaths
  refine ⟨name, word, hcompile, ?_, ?_⟩
  · obtain ⟨d', hwrite⟩ := write_pairDisk name word
    have hrun : (run Disk.access (outOptions "tree")).run (pairDisk []) = (.ok 2, d') :=
      (hout []).run hwrite
    obtain ⟨-, -, -, hok⟩ := run_all_or_prefix (outOptions "tree") (pairDisk [])
    obtain ⟨out, hcompiles, -, hgains⟩ := hok 2 d' hrun
    obtain rfl := hcompiles.unique (hout [])
    have hread := hgains.present
    simp only [pairFiles, List.forall_mem_cons, outOptions, hname, hword] at hread
    refine ⟨d', hrun, hread.1, hread.2.1, hgains.others _ ?_⟩
    simp only [pairFiles, List.forall_mem_cons, outOptions, hname, hword]
    exact ⟨by decide, by decide, by simp⟩
  · obtain ⟨d', hwrite⟩ := write_blockedDisk name word
    have hrun : (run Disk.access (outOptions "tree")).run blockedDisk =
        (.error (.write "out/tree/common/Word.java" .isDirectory), d') :=
      (hout _).run hwrite
    obtain ⟨-, -, hstop, -⟩ := run_all_or_prefix (outOptions "tree") blockedDisk
    obtain ⟨out, done, f, rest, hcompiles, hfiles, hpath, hgains, hbehind⟩ := hstop _ _ d' hrun
    obtain rfl := hcompiles.unique (hout _)
    obtain ⟨rfl, rfl⟩ : done = [⟨"tree/common/Name.java", name⟩] ∧
        f = ⟨"tree/common/Word.java", word⟩ := by
      rcases done with - | ⟨first, - | ⟨second, done⟩⟩
      · cases hfiles
        exact absurd (hpath.trans hname) (by decide)
      · cases hfiles
        exact ⟨rfl, rfl⟩
      · simp [pairFiles] at hfiles
    have hread := hgains.present
    simp only [List.forall_mem_singleton, outOptions, hname] at hread
    have hkept := hbehind _ List.mem_cons_self
    simp only [outOptions, hword] at hkept
    refine ⟨d', hrun, hread, hkept, hgains.others _ ?_⟩
    simp only [List.forall_mem_singleton, outOptions, hname]
    decide

end NodeRules
