import JackLang.Proofs.Excerpt
import JackLang.Proofs.Files.Outputs
import Mathlib.Data.List.Nodup

/-! What a run of a job does to a workspace (`CommandLine.runJob_isolated`): each unit is compiled
alone, from the text it had before the run; what compiles is written to files of its own, and
nothing else changes. A unit whose error is too far to the right to be shown ends the run, before
any later unit is written. -/

namespace JackLang
open CommandLine

/-- A unit of a job: where its text is, and what the names of its files start with. -/
structure SourceUnit where
  path : String
  stem : String

/-- A unit compiled alone, from the text it has in a workspace. -/
def SourceUnit.compilation (w : Workspace) (traced : Bool) (u : SourceUnit) : Compilation :=
  match w.read u.path with
  | .ok source => .ofText u.stem source traced
  | .error fault => .failed u.stem (.io u.path fault.reason)

/-- A unit has an error that is too far to the right for a caret to be set under it. -/
def SourceUnit.TooFar (w : Workspace) (traced : Bool) (u : SourceUnit) : Prop :=
  ∃ source error span, w.read u.path = .ok source ∧
    (Compilation.ofText u.stem source traced).outcome = .error error ∧
      error.span? = some span ∧ maxWidth + 1 < span.column

/-- The units of an input: the file that it is, or the sources in the directory that it is, in the
order of their paths. -/
inductive Workspace.Units (w : Workspace) (input : String) : List SourceUnit → Prop
  | file {bytes : ByteArray} {stem : String} (hnode : w.node input = .ok (.file bytes))
      (hstem : Path.stem? input = some stem) : Units w input [⟨input, stem⟩]
  | directory {entries : List (String × Node)} {units : List SourceUnit}
      (hnode : w.node input = .ok (.directory entries))
      (hmem : ∀ u, u ∈ units ↔ u.stem ≠ "" ∧ u.stem ++ ".jack" ∈ entries.map (·.1) ∧
        u.path = Path.join input (u.stem ++ ".jack"))
      (hsorted : units.Pairwise (·.path < ·.path)) : Units w input units
  | missing {fault : PathFault} (hnode : w.node input = .error fault) : Units w input []

/-- Where the files of a job go: the directory asked for, or else the one that its input is or is
in. -/
def CommandLine.Job.directory (job : Job) (w : Workspace) : String :=
  job.output?.getD <|
    match w.node job.input with
    | .ok (.file _) => Path.parent job.input
    | _ => job.input

/-- How the names of the files of a unit end. -/
def CommandLine.Job.endings (job : Job) : List String :=
  if job.traced then [".vm", ".xml"] else [".vm"]

variable {w w' : Workspace} {u : SourceUnit} {units : List SourceUnit} {traced : Bool}
  {name directory suffix path : String} {names : List String} {output : Output} {job : Job}

/-! ### Reading units -/

namespace SourceUnit

@[simp] theorem compilation_name : (u.compilation w traced).name = u.stem := by
  rw [compilation]
  split <;> rfl

theorem compilation_outcome :
    (u.compilation w traced).outcome = .ok output ↔
      ∃ source, w.read u.path = .ok source ∧
        (Compilation.ofText u.stem source traced).outcome = .ok output := by
  rw [compilation]
  split
  · next source h => simp [h]
  · next fault h => simp [h, Compilation.failed]

theorem isShown_eq_false_iff : (u.compilation w traced).isShown = false ↔ u.TooFar w traced := by
  rw [Compilation.isShown_eq_false_iff, TooFar, compilation]
  cases hread : w.read u.path with
  | error fault => simp [Compilation.failed]
  | ok source =>
    constructor
    · rintro ⟨error, span, text, herror, hspan, -, -, hcolumn⟩
      exact ⟨source, error, span, rfl, herror, hspan, hcolumn⟩
    · rintro ⟨_, error, span, heq, herror, hspan, hcolumn⟩
      cases heq
      have hne : source ≠ "" := by
        rintro rfl
        have hempty : ∀ traced, (Compilation.ofText "" "" traced).outcome =
            .error (.syntactic ⟨1, 1⟩ "keyword 'class'" "end of input") := by
          decide +kernel
        cases (hempty traced).symm.trans herror
        cases hspan
        exact absurd hcolumn (by decide)
      obtain ⟨text, hstands⟩ := Compilation.exists_standsIn herror hspan hne
      exact ⟨error, span, text, herror, hspan, hne, hstands.sourceLine?, hcolumn⟩

/-- Only a unit that compiles has files. -/
theorem exists_of_mem_files {file : String × String} {suffix : String}
    (h : file ∈ (u.compilation w job.traced).files suffix) :
    (∃ output, (u.compilation w job.traced).outcome = .ok output) ∧
      ∃ ending ∈ job.endings, file.1 = u.stem ++ suffix ++ ending := by
  cases hout : (u.compilation w job.traced).outcome with
  | error error => simp [Compilation.files, hout] at h
  | ok output =>
    refine ⟨⟨output, rfl⟩, ?_⟩
    obtain ⟨source, -, htext⟩ := compilation_outcome.mp hout
    have htraced := Compilation.isSome_trace? htext
    rw [Compilation.files_eq hout, compilation_name, Output.files, List.mem_cons] at h
    obtain rfl | hxml := h
    · exact ⟨".vm", by rw [Job.endings]; split <;> simp, rfl⟩
    · obtain ⟨trace, htrace, rfl⟩ : ∃ trace, output.trace? = some trace ∧ _ = file := by
        simpa using hxml
      rw [htrace, Option.isSome_some] at htraced
      exact ⟨".xml", by simp [Job.endings, ← htraced], rfl⟩

theorem run_compileFile (u : SourceUnit) (hstem : Path.stem? u.path = some u.stem) :
    (compileFile u.path traced : StateM Workspace Compilation).run w =
      (u.compilation w traced, w) := by
  simp only [compileFile, hstem, Option.getD_some, FileAccess.read, compilation]
  cases h : w.read u.path <;> simp [h, Except.mapError] <;> rfl

end SourceUnit

/-! ### The units of a directory -/

/-- The sources among the names in a directory, as units. -/
def directoryUnits (directory : String) (names : List String) : List SourceUnit :=
  (sourceNames names).map fun name => ⟨Path.join directory name, (Path.splitExtension name).1⟩

theorem mem_sourceNames (hname : Path.IsName name) :
    name ∈ sourceNames names ↔
      name ∈ names ∧ ∃ stem, stem ≠ "" ∧ name = stem ++ ".jack" := by
  have hjack (stem : String) : stem ++ "." ++ sourceExtension = stem ++ ".jack" := by
    rw [String.append_assoc]; rfl
  rw [sourceNames, List.mem_mergeSort, List.mem_filter, beq_iff_eq,
    Path.extension?_eq_some_iff hname (by decide)]
  simp only [hjack]

theorem sourceNames_pairwise (h : names.Nodup) : (sourceNames names).Pairwise (· < ·) := by
  have hle (l : List String) : (l.mergeSort fun a b => !decide (b < a)).Pairwise (· ≤ ·) := by
    refine (List.pairwise_mergeSort (fun a b c hab hbc => ?_) (fun a b => ?_) l).imp fun h => ?_
    all_goals simp only [Bool.or_eq_true, Bool.not_eq_true', decide_eq_false_iff_not,
      String.not_lt] at *
    · exact String.le_trans hab hbc
    · exact String.le_total a b
    · exact h
  have hne : (sourceNames names).Nodup := (List.mergeSort_perm _ _).nodup_iff.mpr (h.filter _)
  exact ((hle _).and hne).imp fun hab => Std.lt_of_le_of_ne hab.1 hab.2

theorem splitExtension_jack {stem : String} (hstem : stem ≠ "") :
    Path.splitExtension (stem ++ ".jack") = (stem, some "jack") := by
  rw [← Path.splitExtension_append hstem (by decide), String.append_assoc]
  rfl

theorem mem_directoryUnits (hnames : ∀ name ∈ names, Path.IsName name) :
    u ∈ directoryUnits directory names ↔
      u.stem ≠ "" ∧ u.stem ++ ".jack" ∈ names ∧
        u.path = Path.join directory (u.stem ++ ".jack") := by
  constructor
  · intro hu
    obtain ⟨name, hname, rfl⟩ := List.mem_map.mp hu
    have hmem : name ∈ names := List.mem_of_mem_filter ((List.mergeSort_perm _ _).mem_iff.mp hname)
    obtain ⟨-, stem, hstem, rfl⟩ := (mem_sourceNames (hnames _ hmem)).mp hname
    rw [splitExtension_jack hstem]
    exact ⟨hstem, hmem, rfl⟩
  · rintro ⟨hstem, hmem, hpath⟩
    have hname := hnames _ hmem
    refine List.mem_map.mpr ⟨_, (mem_sourceNames hname).mpr ⟨hmem, _, hstem, rfl⟩, ?_⟩
    rw [splitExtension_jack hstem, ← hpath]

theorem directoryUnits_pairwise (h : names.Nodup) :
    (directoryUnits directory names).Pairwise (·.path < ·.path) :=
  List.pairwise_map.mpr ((sourceNames_pairwise h).imp Path.join_lt_join)

/-- The units of a directory have different stems. -/
theorem nodup_stems (directory : String) (hnames : ∀ name ∈ names, Path.IsName name)
    (h : names.Nodup) :
    ((directoryUnits directory names).map (·.stem)).Nodup := by
  refine List.pairwise_map.mpr ((directoryUnits_pairwise h).imp_of_mem ?_)
  intro u u' hu hu' hlt heq
  have hpath := ((mem_directoryUnits hnames).mp hu).2.2
  rw [hpath, heq, ← ((mem_directoryUnits hnames).mp hu').2.2] at hlt
  exact String.lt_irrefl _ hlt

theorem slash_notMem_of_mem_directoryUnits (hnames : ∀ name ∈ names, Path.IsName name)
    (h : u ∈ directoryUnits directory names) : '/' ∉ u.stem.toList := by
  have hname := hnames _ ((mem_directoryUnits hnames).mp h).2.1
  simpa using hname.slash_notMem

/-! ### Runs -/

theorem run_mapM {α β σ : Type} {f : α → StateM σ β} {g : α → β} {l : List α} {s : σ}
    (h : ∀ a ∈ l, (f a).run s = (g a, s)) : (l.mapM f).run s = (l.map g, s) := by
  induction l with
  | nil => rfl
  | cons a l ih =>
    rw [List.forall_mem_cons] at h
    rw [List.mapM_cons, StateT.run_bind, h.1]
    change StateT.run (l.mapM f >>= fun bs => pure (g a :: bs)) s = _
    rw [StateT.run_bind, ih h.2]
    rfl

theorem stem?_of_mem_directoryUnits (hnames : ∀ name ∈ names, Path.IsName name)
    (h : u ∈ directoryUnits directory names) : Path.stem? u.path = some u.stem := by
  obtain ⟨hstem, hmem, hpath⟩ := (mem_directoryUnits hnames).mp h
  rw [hpath, Path.stem?, Path.fileName?_join (hnames _ hmem), Option.map_some,
    splitExtension_jack hstem]

theorem run_compileDirectory {entries : List (String × Node)}
    (hnode : w.node path = .ok (.directory entries))
    (hnames : ∀ name ∈ entries.map (·.1), Path.IsName name) :
    (compileDirectory path traced : StateM Workspace (List Compilation)).run w =
      ((directoryUnits path (entries.map (·.1))).map (·.compilation w traced), w) := by
  have hentries : w.entries path = .ok (entries.map (·.1)) := by
    simp [Workspace.entries, hnode, bind, Except.bind, pure, Except.pure]
  have hrun : ∀ name ∈ sourceNames (entries.map (·.1)),
      (compileFile (Path.join path name) traced : StateM Workspace Compilation).run w =
        (SourceUnit.compilation w traced ⟨Path.join path name, (Path.splitExtension name).1⟩,
          w) := by
    intro name hname
    let u : SourceUnit := ⟨Path.join path name, (Path.splitExtension name).1⟩
    have hu : u ∈ directoryUnits path (entries.map (·.1)) := List.mem_map.mpr ⟨name, hname, rfl⟩
    exact u.run_compileFile (stem?_of_mem_directoryUnits hnames hu)
  have hlist : (FileAccess.entries path : StateM Workspace _).run w =
      (.ok (entries.map (·.1)), w) := by
    simp only [FileAccess.entries, StateT.run_bind, StateT.run_get, pure_bind, hentries,
      StateT.run_pure]
    rfl
  rw [compileDirectory, StateT.run_bind, hlist, directoryUnits, List.map_map]
  exact run_mapM hrun

theorem run_isFile {node : Node} (h : w.node path = .ok node) :
    (FileAccess.isFile path : StateM Workspace Bool).run w = (node.isFile, w) := by
  simp only [FileAccess.isFile, StateT.run_bind, StateT.run_get, pure_bind, h, StateT.run_pure]
  rfl

theorem run_isDirectory {node : Node} (h : w.node path = .ok node) :
    (FileAccess.isDirectory path : StateM Workspace Bool).run w = (!node.isFile, w) := by
  simp only [FileAccess.isDirectory, StateT.run_bind, StateT.run_get, pure_bind, h, StateT.run_pure]
  rfl

/-- What a run of a job leaves behind, in a workspace that was `w`. -/
structure Isolated (w : Workspace) (job : Job) (units : List SourceUnit) (r : Report)
    (w' : Workspace) : Prop where
  /-- Without units, nothing is written. -/
  nothing (hunits : units = []) : r.exitCode = 2 ∧ w' = w
  success (hunits : units ≠ [])
    (hall : ∀ u ∈ units,
      (u.compilation w job.traced).Written w (job.directory w) job.suffix) : r.exitCode = 0
  failure (hex : ∃ u ∈ units,
      ¬ (u.compilation w job.traced).Written w (job.directory w) job.suffix)
    (hshown : ∀ u ∈ units, ¬ u.TooFar w job.traced) : r.exitCode = 1
  aborted (hex : ∃ u ∈ units, u.TooFar w job.traced) : r.exitCode = 101
  /-- The code of a unit that compiles and can be written is that of its own text, unless a unit
  before it aborts the run. -/
  code {before behind : List SourceUnit} {u : SourceUnit} {source : String} {output : Output}
    (hunits : units = before ++ u :: behind) (hshown : ∀ v ∈ before, ¬ v.TooFar w job.traced)
    (hread : w.read u.path = .ok source)
    (hout : (Compilation.ofText u.stem source job.traced).outcome = .ok output)
    (hwritten : (u.compilation w job.traced).Written w (job.directory w) job.suffix) :
    w'.node (Path.join (job.directory w) (u.stem ++ job.suffix ++ ".vm")) =
      .ok (.file output.code.toUTF8)
  trace {before behind : List SourceUnit} {u : SourceUnit} {source : String} {output : Output}
    (hunits : units = before ++ u :: behind) (hshown : ∀ v ∈ before, ¬ v.TooFar w job.traced)
    (hread : w.read u.path = .ok source)
    (hout : (Compilation.ofText u.stem source job.traced).outcome = .ok output)
    (hwritten : (u.compilation w job.traced).Written w (job.directory w) job.suffix)
    (htraced : job.traced) :
    ∃ trace, output.trace? = some trace ∧
      w'.node (Path.join (job.directory w) (u.stem ++ job.suffix ++ ".xml")) =
        .ok (.file trace.toUTF8)
  /-- What is no file of a unit that compiles stays as it was. -/
  kept {names : List String}
    (hnames : ∀ u ∈ units, (∃ output, (u.compilation w job.traced).outcome = .ok output) →
      ∀ ending ∈ job.endings,
        w.resolve (Path.join (job.directory w) (u.stem ++ job.suffix ++ ending)) ≠ .ok names) :
    w'.root.content? names = w.root.content? names
  /-- Older files of a unit that does not compile, or behind one that aborts the run, stay as they
  were. -/
  stale {before behind : List SourceUnit} {u : SourceUnit} {ending : String} {names : List String}
    (hunits : units = before ++ u :: behind)
    (hno : (∃ error, (u.compilation w job.traced).outcome = .error error) ∨
      ∃ v ∈ before, v.TooFar w job.traced)
    (hending : ending ∈ [".vm", ".xml"])
    (hresolve : w.resolve (Path.join (job.directory w) (u.stem ++ job.suffix ++ ending)) =
      .ok names) :
    w'.root.content? names = w.root.content? names
  /-- Sources stay as they were. -/
  sources {names : List String} {name : String} (hlast : names.getLast? = some name)
    (hjack : ".jack".toList <:+ name.toList) : w'.root.content? names = w.root.content? names

section Finished
variable {r : Report} {files : List (String × String)} {file : String × String}
  {before behind : List SourceUnit}

/-- The units that a run finishes. -/
def SourceUnit.reached (w : Workspace) (traced : Bool) (units : List SourceUnit) :
    List SourceUnit :=
  units.takeWhile fun u => (u.compilation w traced).isShown

theorem SourceUnit.reached_eq (h : ∀ u ∈ units, ¬ u.TooFar w traced) :
    reached w traced units = units := by
  refine List.takeWhile_eq_self_iff.mpr fun u hu => ?_
  exact Bool.eq_true_of_not_eq_false fun hno => h u hu (isShown_eq_false_iff.mp hno)

theorem SourceUnit.mem_reached (hshown : ∀ v ∈ before, ¬ v.TooFar w traced)
    (hout : (u.compilation w traced).outcome = .ok output) :
    u ∈ reached w traced (before ++ u :: behind) := by
  have hbefore : ∀ v ∈ before, (v.compilation w traced).isShown := fun v hv =>
    Bool.eq_true_of_not_eq_false fun hno => hshown v hv (isShown_eq_false_iff.mp hno)
  rw [reached, List.takeWhile_append_of_pos hbefore]
  simp [Compilation.isShown_of_ok hout]

/-- A run finishes no unit behind one that is not shown. -/
theorem SourceUnit.reached_subset (hex : ∃ v ∈ before, v.TooFar w traced) :
    reached w traced (before ++ behind) ⊆ before := by
  obtain ⟨v, hv, hfar⟩ := hex
  rw [reached, List.takeWhile_append, if_neg]
  · exact (List.takeWhile_prefix _).subset
  · intro hlength
    have hall := (List.takeWhile_prefix _).eq_of_length hlength
    have hshown := List.takeWhile_eq_self_iff.mp hall v hv
    exact absurd (isShown_eq_false_iff.mpr hfar) (by simpa using hshown)

theorem Finished.exists_source
    (h : Finished w directory suffix (units.map (·.compilation w traced)) files r w')
    (hfile : file ∈ files) : ∃ u ∈ units, file ∈ (u.compilation w traced).files suffix := by
  simpa using h.exists_unit hfile

theorem Finished.files_subset {source : String}
    (h : Finished w directory suffix (units.map (·.compilation w traced)) files r w')
    (hu : u ∈ units) (hread : w.read u.path = .ok source)
    (hout : (Compilation.ofText u.stem source traced).outcome = .ok output)
    (hwritten : (u.compilation w traced).Written w directory suffix) :
    output.files u.stem suffix ⊆ files := by
  have hsub := h.written (List.mem_map_of_mem hu) hwritten
  rwa [Compilation.files_eq (SourceUnit.compilation_outcome.mpr ⟨source, hread, hout⟩),
    SourceUnit.compilation_name] at hsub

/-- Finishing the units as far as they are shown isolates them. -/
theorem Finished.isolated
    (h : Finished w (job.directory w) job.suffix
      ((SourceUnit.reached w job.traced units).map (·.compilation w job.traced)) files r w')
    (hunits : units ≠ []) (hstems : ∀ u ∈ units, '/' ∉ u.stem.toList)
    (hsuffix : '/' ∉ job.suffix.toList) (hnodup : (units.map (·.stem)).Nodup) :
    Isolated w job units
      (if (units.map (·.compilation w job.traced)).all (·.isShown) then r else r.abort) w' where
  nothing hnil := absurd hnil hunits
  success _ hall := by
    have hok : ∀ u ∈ units, ∃ output, (u.compilation w job.traced).outcome = .ok output :=
      fun u hu => (hall u hu).1
    have hshown : ∀ u ∈ units, (u.compilation w job.traced).isShown :=
      fun u hu => Compilation.isShown_of_ok (hok u hu).choose_spec
    rw [if_pos (by simpa using hshown)]
    refine h.success (List.forall_mem_map.mpr fun u hu => hall u ?_)
    exact (List.takeWhile_prefix _).subset hu
  failure hex hshown := by
    rw [SourceUnit.reached_eq hshown] at h
    have hall : ∀ u ∈ units, (u.compilation w job.traced).isShown := fun u hu =>
      Bool.eq_true_of_not_eq_false fun hno => hshown u hu (SourceUnit.isShown_eq_false_iff.mp hno)
    rw [if_pos (by simpa using hall)]
    exact h.failure (by simpa using hex)
  aborted hex := by
    obtain ⟨u, hu, hfar⟩ := hex
    rw [if_neg]
    · rfl
    · simpa using ⟨u, hu, SourceUnit.isShown_eq_false_iff.mpr hfar⟩
  code {before behind u _ _} heq hshown hread hout hwritten := by
    have hok := SourceUnit.compilation_outcome.mpr ⟨_, hread, hout⟩
    have hu : u ∈ SourceUnit.reached w job.traced units := heq ▸ SourceUnit.mem_reached hshown hok
    exact h.overwritten.written (h.files_subset hu hread hout hwritten List.mem_cons_self)
  trace {before behind u _ _} heq hshown hread hout hwritten htraced := by
    have hok := SourceUnit.compilation_outcome.mpr ⟨_, hread, hout⟩
    have hu : u ∈ SourceUnit.reached w job.traced units := heq ▸ SourceUnit.mem_reached hshown hok
    obtain ⟨trace, htrace⟩ :=
      Option.isSome_iff_exists.mp ((Compilation.isSome_trace? hout).trans htraced)
    refine ⟨trace, htrace, h.overwritten.written (h.files_subset hu hread hout hwritten ?_)⟩
    simp [Output.files, htrace]
  kept hnames := by
    refine h.overwritten.kept fun file hfile => ?_
    obtain ⟨u, hu, hfile⟩ := h.exists_source hfile
    obtain ⟨hout, ending, hending, heq⟩ := SourceUnit.exists_of_mem_files hfile
    exact heq ▸ hnames u ((List.takeWhile_prefix _).subset hu) hout ending hending
  stale {before behind u _ _} heq hno hending hresolve := by
    have hu : u ∈ units := by simp [heq]
    have hname := Compilation.isName_append (hstems u hu) hsuffix hending
    obtain ⟨place, rfl, -⟩ := Workspace.exists_of_resolve_join hname hresolve
    refine h.overwritten.kept_of_getLast? (List.getLast?_concat) fun hmem => ?_
    obtain ⟨file, hfile, hfileName⟩ := List.mem_map.mp hmem
    obtain ⟨u', hu', hfile'⟩ := h.exists_source hfile
    obtain ⟨ending', hending', hending''⟩ := Compilation.exists_of_mem_files hfile'
    rw [hending'', SourceUnit.compilation_name] at hfileName
    -- Files of units with different stems have different names.
    obtain rfl : u' = u :=
      List.inj_on_of_nodup_map hnodup ((List.takeWhile_prefix _).subset hu') hu
        (Compilation.eq_of_append_ending hending' hending hfileName)
    obtain ⟨error, herror⟩ | hex := hno
    · simp [Compilation.files, herror] at hfile'
    · have hbefore := SourceUnit.reached_subset hex (heq ▸ hu')
      have hnodup' := heq ▸ hnodup.of_map
      exact (List.nodup_append.mp hnodup').2.2 u' hbefore u' List.mem_cons_self rfl
  sources hlast hjack := by
    refine h.overwritten.kept_of_getLast? hlast fun hmem => ?_
    obtain ⟨file, hfile, rfl⟩ := List.mem_map.mp hmem
    obtain ⟨u, hu, hfile⟩ := h.exists_source hfile
    exact Compilation.not_jack_of_mem_files hfile hjack

end Finished

theorem run_runJob_missing {fault : PathFault} (hnode : w.node job.input = .error fault) :
    (runJob job : StateM Workspace Report).run w =
      (.refuse s!"Error: Input not found: {job.input}\n", w) := by
  simp [runJob, FileAccess.isFile, FileAccess.isDirectory, hnode]
  rfl

theorem run_runJob_file {bytes : ByteArray} {stem : String}
    (hnode : w.node job.input = .ok (.file bytes)) (hstem : Path.stem? job.input = some stem) :
    (runJob job : StateM Workspace Report).run w =
      (finishAll (job.directory w) job.suffix {}
        [SourceUnit.compilation w job.traced ⟨job.input, stem⟩] :
          StateM Workspace Report).run w := by
  rw [runJob, StateT.run_bind, run_isFile hnode, Job.directory, hnode]
  change StateT.run (compileFile job.input job.traced >>= _) w = _
  rw [StateT.run_bind, SourceUnit.run_compileFile ⟨job.input, stem⟩ hstem]
  rfl

theorem run_runJob_directory {entries : List (String × Node)}
    (hnode : w.node job.input = .ok (.directory entries))
    (hnames : ∀ name ∈ entries.map (·.1), Path.IsName name) :
    (runJob job : StateM Workspace Report).run w =
      (match directoryUnits job.input (entries.map (·.1)) with
      | [] => pure (.refuse s!"Error: No .jack files found in {job.input}\n")
      | units => finishAll (job.directory w) job.suffix {}
        (units.map (·.compilation w job.traced)) : StateM Workspace Report).run w := by
  rw [runJob, StateT.run_bind, run_isFile hnode, Job.directory, hnode]
  change StateT.run (FileAccess.isDirectory job.input >>= _) w = _
  rw [StateT.run_bind, run_isDirectory hnode]
  change StateT.run (compileDirectory job.input job.traced >>= _) w = _
  rw [StateT.run_bind, run_compileDirectory hnode hnames]
  cases directoryUnits job.input (entries.map (·.1)) <;> rfl

theorem isolated_nil {text : String} : Isolated w job [] (.refuse text) w where
  nothing _ := ⟨rfl, rfl⟩
  success h := absurd rfl h
  failure h := by simp at h
  aborted h := by simp at h
  code h := by simp at h
  trace h := by simp at h
  kept _ := rfl
  stale h := by simp at h
  sources _ _ := rfl

/-- Finishing the units of a job, all of different stems, isolates them. -/
theorem isolated_finishAll (w : Workspace) (job : Job) (hunits : units ≠ [])
    (hstems : ∀ u ∈ units, '/' ∉ u.stem.toList) (hsuffix : '/' ∉ job.suffix.toList)
    (hnodup : (units.map (·.stem)).Nodup) :
    ∃ r w', (finishAll (job.directory w) job.suffix {} (units.map (·.compilation w job.traced)) :
      StateM Workspace Report).run w = (r, w') ∧ Isolated w job units r w' := by
  obtain ⟨r, w', files, hrun, h⟩ := Finished.nil.finishAll
    (units.map (·.compilation w job.traced)) (by simpa using hstems) hsuffix
    (by simpa [Function.comp_def] using hnodup)
  rw [List.nil_append, List.takeWhile_map] at h
  exact ⟨_, w', hrun, Finished.isolated h hunits hstems hsuffix hnodup⟩

/-- **Runs.** A run isolates the units of its input, whatever the input, the directory for the files
and the suffix. -/
theorem CommandLine.runJob_isolated (hproper : w.root.Proper) (hsuffix : '/' ∉ job.suffix.toList) :
    ∃ units r w', w.Units job.input units ∧
      (runJob job : StateM Workspace Report).run w = (r, w') ∧ Isolated w job units r w' := by
  cases hnode : w.node job.input with
  | error fault => exact ⟨[], _, w, .missing hnode, run_runJob_missing hnode, isolated_nil⟩
  | ok node =>
    cases node with
    | file bytes =>
      obtain ⟨before, name, hparts, hname⟩ := Workspace.exists_isName_of_node hnode
      have hstem : Path.stem? job.input = some (Path.splitExtension name).1 := by
        rw [Path.stem?, Path.fileName?_of_parts hname hparts, Option.map_some]
      have hslash := Path.slash_notMem_stem hname.slash_notMem
      have hrun := run_runJob_file hnode hstem
      obtain ⟨r, w', hfinish, h⟩ := isolated_finishAll w job
        (List.cons_ne_nil ⟨job.input, (Path.splitExtension name).1⟩ []) (by simpa using hslash)
        hsuffix (by simp)
      exact ⟨_, r, w', .file hnode hstem, hrun.trans hfinish, h⟩
    | directory entries =>
      obtain ⟨names, -, hget⟩ := Workspace.node_eq_ok_iff.mp hnode
      have hnames : ∀ name ∈ entries.map (·.1), Path.IsName name := fun _ => hproper.isName hget
      have hnodup : (entries.map (·.1)).Nodup := hproper.nodup hget
      have hunits : w.Units job.input (directoryUnits job.input (entries.map (·.1))) :=
        .directory hnode (fun _ => mem_directoryUnits hnames) (directoryUnits_pairwise hnodup)
      have hslash : ∀ u ∈ directoryUnits job.input (entries.map (·.1)), '/' ∉ u.stem.toList :=
        fun _ => slash_notMem_of_mem_directoryUnits hnames
      have hstems := nodup_stems job.input hnames hnodup
      have hrun := run_runJob_directory hnode hnames
      generalize directoryUnits job.input (entries.map (·.1)) = units at *
      cases units with
      | nil => exact ⟨[], _, w, hunits, hrun, isolated_nil⟩
      | cons u units =>
        obtain ⟨r, w', hfinish, h⟩ :=
          isolated_finishAll w job (List.cons_ne_nil u units) hslash hsuffix hstems
        exact ⟨u :: units, r, w', hunits, hrun.trans hfinish, h⟩

/-- A directory with two sources, one of which is cut short, and an older file of that one. -/
def Workspace.pair : Workspace where
  root := .directory [("in", .directory [
    ("Main.jack", .file "class Main \x7b function void f() \x7b return; \x7d \x7d".toUTF8),
    ("Bad.jack", .file "class Bad \x7b".toUTF8), ("Bad.vm", .file "return\n".toUTF8)])]
  current := []

theorem Workspace.pair_proper : pair.root.Proper := by
  refine Node.proper_directory (by decide) ?_ ?_
  · simpa using .of_mem (c := 'i') (by decide) (by decide) (by decide)
  · simp only [List.forall_mem_cons]
    refine ⟨Node.proper_directory (by decide) ?_ ?_, by simp⟩
    · simp only [List.map_cons, List.map_nil, List.forall_mem_cons]
      exact ⟨.of_mem (c := 'j') (by decide) (by decide) (by decide),
        .of_mem (c := 'j') (by decide) (by decide) (by decide),
        .of_mem (c := 'v') (by decide) (by decide) (by decide), by simp⟩
    · simp [Node.proper_file]

theorem Workspace.mem_units_pair (hunits : pair.Units "in" units) :
    ∀ u, u ∈ units ↔ u = ⟨"in/Main.jack", "Main"⟩ ∨ u = ⟨"in/Bad.jack", "Bad"⟩ := by
  rintro ⟨path, stem⟩
  have hnode : pair.node "in" = .ok (.directory [
    ("Main.jack", .file "class Main \x7b function void f() \x7b return; \x7d \x7d".toUTF8),
    ("Bad.jack", .file "class Bad \x7b".toUTF8), ("Bad.vm", .file "return\n".toUTF8)]) := rfl
  cases hunits with
  | file hfile => cases hnode.symm.trans hfile
  | missing herror => cases hnode.symm.trans herror
  | directory hdir hmem =>
    cases hnode.symm.trans hdir
    rw [hmem]
    constructor
    · rintro ⟨-, hname, hpath⟩
      have hvm : stem ++ ".jack" ≠ "Bad.vm" := fun heq => by
        simpa using congrArg (·.toList.getLast?) heq
      obtain hmain | hbad : stem ++ ".jack" = "Main" ++ ".jack" ∨
          stem ++ ".jack" = "Bad" ++ ".jack" := by
        simpa [hvm] using hname
      · obtain rfl := (String.append_left_inj _).mp hmain
        exact .inl (congrArg (SourceUnit.mk · _) hpath)
      · obtain rfl := (String.append_left_inj _).mp hbad
        exact .inr (congrArg (SourceUnit.mk · _) hpath)
    · rintro (heq | heq) <;> cases heq
      · exact ⟨by decide, .head _, rfl⟩
      · exact ⟨by decide, .tail _ (.head _), rfl⟩

/-- The source that is cut short keeps neither the other from being written nor its older file from
staying as it was. -/
theorem CommandLine.runJob_isolated_pair : ∃ r w',
    (runJob ⟨"in", none, "", false⟩ : StateM Workspace Report).run .pair = (r, w') ∧
      r.exitCode = 1 ∧
      w'.node "in/Main.vm" =
        .ok (.file "function Main.f 0\npush constant 0\nreturn\n".toUTF8) ∧
      w'.root.content? ["in", "Bad.vm"] = some (.file "return\n".toUTF8) := by
  obtain ⟨units, r, w', hunits, hrun, h⟩ :=
    @runJob_isolated _ ⟨"in", none, "", false⟩ Workspace.pair_proper (by decide)
  have hmem := Workspace.mem_units_pair hunits
  have hcompiled : (Compilation.ofText "Main"
      "class Main \x7b function void f() \x7b return; \x7d \x7d" false).outcome =
        .ok ⟨"function Main.f 0\npush constant 0\nreturn\n", none⟩ := by
    decide +kernel
  have hout : (SourceUnit.compilation .pair false ⟨"in/Main.jack", "Main"⟩).outcome = _ :=
    SourceUnit.compilation_outcome.mpr ⟨_, rfl, hcompiled⟩
  have hwritable : ∀ file ∈ (SourceUnit.compilation .pair false ⟨"in/Main.jack", "Main"⟩).files "",
      Workspace.pair.Writable (Path.join "in" file.1) := by
    rw [Compilation.files_eq hout]
    simpa [Output.files] using ⟨"", _, rfl⟩
  have hbroken : (Compilation.ofText "Bad" "class Bad \x7b" false).outcome =
      .error (.syntactic ⟨1, 12⟩ "'\x7d'" "end of input") := by
    decide +kernel
  have herror : (SourceUnit.compilation .pair false ⟨"in/Bad.jack", "Bad"⟩).outcome = _ := hbroken
  have hresolve : Workspace.pair.resolve (Path.join "in" "Bad.vm") = .ok ["in", "Bad.vm"] := by
    decide +kernel
  have hending : ".vm" ∈ [".vm", ".xml"] := by simp
  have hshown : ∀ u ∈ units, ¬ u.TooFar .pair false := by
    rintro u hu ⟨source, error, span, hread, hfails, hspan, hcolumn⟩
    obtain rfl | rfl := (hmem u).mp hu
    · cases hread
      cases hcompiled.symm.trans hfails
    · cases hread
      cases hbroken.symm.trans hfails
      cases hspan
      exact absurd hcolumn (by decide)
  obtain ⟨before, behind, hmain⟩ := List.append_of_mem ((hmem _).mpr (.inl rfl))
  have hcode := h.code hmain (fun v hv => hshown v (by simp [hmain, hv])) rfl hcompiled
    ⟨⟨_, hout⟩, hwritable⟩
  have hbad := (hmem _).mpr (.inr rfl)
  obtain ⟨before', behind', heq⟩ := List.append_of_mem hbad
  have hkept := h.stale heq (.inl ⟨_, herror⟩) hending hresolve
  refine ⟨r, w', hrun, h.failure ⟨_, hbad, ?_⟩ hshown, hcode, hkept⟩
  rintro ⟨⟨output, hok⟩, -⟩
  cases hok.symm.trans herror

end JackLang
