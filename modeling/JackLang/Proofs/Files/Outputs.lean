import JackLang.CommandLine
import JackLang.Proofs.Caret
import JackLang.Proofs.Engine.Class
import JackLang.Proofs.Files.Writes

/-! What finishing some units leaves behind, on a workspace. `Finished` says what is written and
what the exit code is; finishing one more unit keeps it (`Finished.finish`), so a run of units does,
as far as their diagnostics can be laid out (`Finished.finishAll`). -/

namespace JackLang

/-- The files that hold an output, by name, with their texts. -/
def Output.files (output : Output) (stem suffix : String) : List (String × String) :=
  (stem ++ suffix ++ ".vm", output.code) ::
    (output.trace?.map (stem ++ suffix ++ ".xml", ·)).toList

/-- The files that hold what a unit compiles to. -/
def Compilation.files (c : Compilation) (suffix : String) : List (String × String) :=
  match c.outcome with
  | .error _ => []
  | .ok output => output.files c.name suffix

/-- A unit compiles, and each of its files can be written. -/
def Compilation.Written (c : Compilation) (w : Workspace) (directory suffix : String) : Prop :=
  (∃ output, c.outcome = .ok output) ∧
    ∀ file ∈ c.files suffix, w.Writable (Path.join directory file.1)

variable {w w' w'' : Workspace} {directory suffix name text path : String} {c c' : Compilation}
  {output : Output} {files : List (String × String)} {file file' : String × String}
  {r : CommandLine.Report}

/-! ### Names of files -/

namespace Compilation

theorem files_eq (h : c.outcome = .ok output) : c.files suffix = output.files c.name suffix := by
  rw [files, h]

/-- A unit that compiles has a trace just if it is asked for. -/
theorem isSome_trace? {source : String} {traced : Bool}
    (h : (ofText name source traced).outcome = .ok output) : output.trace?.isSome = traced := by
  simp only [ofText, ofLines, compile_eq] at h
  cases hparse : parse (Line.ofText source) with
  | error fault => simp [hparse, bind, Except.bind] at h
  | ok cls =>
    obtain rfl : _ = output := by simpa [hparse, bind, Except.bind, pure, Except.pure] using h
    cases traced <;> rfl

theorem exists_of_mem_files (h : file ∈ c.files suffix) :
    ∃ ending ∈ [".vm", ".xml"], file.1 = c.name ++ suffix ++ ending := by
  rw [files] at h
  split at h
  · simp at h
  · next output _ =>
    obtain rfl | hxml := List.mem_cons.mp h
    · exact ⟨".vm", by simp, rfl⟩
    · obtain ⟨trace, -, rfl⟩ : ∃ trace, output.trace? = some trace ∧ _ = file := by
        simpa using hxml
      exact ⟨".xml", by simp, rfl⟩

theorem isName_append {ending : String} (hname : '/' ∉ name.toList)
    (hsuffix : '/' ∉ suffix.toList) (hending : ending ∈ [".vm", ".xml"]) :
    Path.IsName (name ++ suffix ++ ending) := by
  have hm : ∀ ending ∈ [".vm", ".xml"], 'm' ∈ ending.toList ∧ '/' ∉ ending.toList := by decide
  refine .of_mem (c := 'm') ?_ (by decide) ?_ <;> simp [hname, hsuffix, hm ending hending]

theorem isName_of_mem_files (hname : '/' ∉ c.name.toList) (hsuffix : '/' ∉ suffix.toList)
    (h : file ∈ c.files suffix) : Path.IsName file.1 := by
  obtain ⟨ending, hending, heq⟩ := exists_of_mem_files h
  exact heq ▸ isName_append hname hsuffix hending

/-- The name of a file determines the name of the unit. -/
theorem eq_of_append_ending {ending ending' : String} (hending : ending ∈ [".vm", ".xml"])
    (hending' : ending' ∈ [".vm", ".xml"])
    (h : name ++ suffix ++ ending = text ++ suffix ++ ending') : name = text := by
  have hlast : (name ++ suffix ++ ending).toList.getLast? =
      (text ++ suffix ++ ending').toList.getLast? := by rw [h]
  simp only [List.mem_cons, List.not_mem_nil, or_false] at hending hending'
  obtain rfl | rfl := hending <;> obtain rfl | rfl := hending'
  · simpa using h
  · simp at hlast
  · simp at hlast
  · simpa using h

/-- Files of units with different names have different names. -/
theorem files_ne (hne : c.name ≠ c'.name) (h : file ∈ c.files suffix)
    (h' : file' ∈ c'.files suffix) : file.1 ≠ file'.1 := by
  obtain ⟨ending, hending, heq⟩ := exists_of_mem_files h
  obtain ⟨ending', hending', heq'⟩ := exists_of_mem_files h'
  rw [heq, heq']
  exact fun hfile => hne (eq_of_append_ending hending hending' hfile)

/-- No file of a unit is a source. -/
theorem not_jack_of_mem_files (h : file ∈ c.files suffix) : ¬ ".jack".toList <:+ file.1.toList := by
  obtain ⟨ending, hending, heq⟩ := exists_of_mem_files h
  rintro ⟨before, hjack⟩
  have hlast := congrArg List.getLast? hjack
  simp only [List.mem_cons, List.not_mem_nil, or_false] at hending
  obtain rfl | rfl := hending <;> simp [heq] at hlast

theorem files_nodup : ((c.files suffix).map (·.1)).Nodup := by
  rw [files]
  split
  · simp
  · next output _ =>
    cases h : output.trace? <;> simp [Output.files, h]

/-! ### Writing a unit -/

theorem run_writeText (hw : w.Overwritten directory files w') (hname : Path.IsName name)
    (hnew : name ∉ files.map (·.1)) (text : String) :
    (∃ w'', (writeText directory name text : StateM Workspace (Except Error Unit)).run w' =
        (.ok (), w'') ∧ w.Writable (Path.join directory name) ∧
        w.Overwritten directory (files ++ [(name, text)]) w'') ∨
      ∃ error, (writeText directory name text : StateM Workspace (Except Error Unit)).run w' =
        (.error error, w') ∧ ¬ w.Writable (Path.join directory name) := by
  cases h : w'.write (Path.join directory name) text with
  | ok w'' =>
    refine .inl ⟨w'', ?_, hw.writable_iff.mpr ⟨text, w'', h⟩, hw.write hname hnew h⟩
    simp [writeText, FileAccess.write, h, Except.mapError]
    rfl
  | error fault =>
    refine .inr ⟨.io (Path.join directory name) fault.reason, ?_, fun hwritable => ?_⟩
    · simp [writeText, FileAccess.write, h, Except.mapError]
      rfl
    · obtain ⟨names, hresolve, hne⟩ := Workspace.writable_iff.mp (hw.writable_iff.mp hwritable)
      cases h.symm.trans (Workspace.write_eq_ok_iff.mpr ⟨names, hresolve, hne, rfl⟩)

/-- Writes texts to files of a directory until one cannot be written. -/
def writeAll {m : Type → Type} [Monad m] [FileAccess m] (directory : String) :
    List (String × String) → m (Except Error Unit)
  | [] => return .ok ()
  | (name, text) :: files => do
    match ← writeText directory name text with
    | .ok () => writeAll directory files
    | .error error => return .error error

theorem write_eq_writeAll {m : Type → Type} [Monad m] [LawfulMonad m] [FileAccess m]
    (hout : c.outcome = .ok output) :
    (c.write directory suffix : m (Except Error Unit)) = writeAll directory (c.files suffix) := by
  simp only [Compilation.write, files, hout, Output.files, writeAll]
  refine bind_congr fun result => ?_
  cases result with
  | error error => rfl
  | ok =>
    cases h : output.trace? with
    | none => rfl
    | some trace =>
      simp only [Option.map_some, Option.toList_some, writeAll]
      rw [← bind_pure (writeText _ _ _)]
      refine bind_congr fun result => ?_
      cases result <;> rfl

/-- All texts are written, or some first ones up to one that cannot be. -/
theorem run_writeAll {rest : List (String × String)} (hw : w.Overwritten directory files w')
    (hname : ∀ file ∈ rest, Path.IsName file.1) (hnodup : (rest.map (·.1)).Nodup)
    (hnew : ∀ file ∈ rest, file.1 ∉ files.map (·.1)) :
    ∃ result w'' written,
      (writeAll directory rest : StateM Workspace (Except Error Unit)).run w' = (result, w'') ∧
      written <+: rest ∧ w.Overwritten directory (files ++ written) w'' ∧
      ((∀ file ∈ rest, w.Writable (Path.join directory file.1)) ∧ result = .ok () ∧
          written = rest ∨
        (¬ ∀ file ∈ rest, w.Writable (Path.join directory file.1)) ∧
          ∃ error, result = .error error) := by
  induction rest generalizing files w' with
  | nil => exact ⟨_, w', [], rfl, List.nil_prefix, by simpa using hw, .inl ⟨by simp, rfl, rfl⟩⟩
  | cons file rest ih =>
    obtain ⟨name, text⟩ := file
    simp only [List.forall_mem_cons, List.map_cons, List.nodup_cons] at hname hnodup hnew ⊢
    obtain ⟨w₁, hrun, hwritable, hw₁⟩ | ⟨error, hrun, hwritable⟩ :=
      run_writeText hw hname.1 hnew.1 text
    · have hnew₁ : ∀ file ∈ rest, file.1 ∉ (files ++ [(name, text)]).map (·.1) := by
        intro file hfile hmem
        obtain hold | rfl : file.1 ∈ files.map (·.1) ∨ file.1 = name := by simpa using hmem
        · exact hnew.2 file hfile hold
        · exact hnodup.1 (List.mem_map_of_mem hfile)
      obtain ⟨result, w'', written, hrest, hprefix, hw'', hcases⟩ := ih hw₁ hname.2 hnodup.2 hnew₁
      refine ⟨result, w'', (name, text) :: written, ?_, by simpa using hprefix,
        by simpa using hw'', by simpa [hwritable] using hcases⟩
      rw [writeAll, StateT.run_bind, hrun]
      exact hrest
    · refine ⟨.error error, w', [], ?_, List.nil_prefix, by simpa using hw,
        .inr ⟨fun hall => hwritable hall.1, error, rfl⟩⟩
      rw [writeAll, StateT.run_bind, hrun]
      rfl

/-- Writing a unit writes its files, or some first ones of them if it fails. -/
theorem run_write (hw : w.Overwritten directory files w') (hout : c.outcome = .ok output)
    (hname : '/' ∉ c.name.toList) (hsuffix : '/' ∉ suffix.toList)
    (hnew : ∀ file ∈ c.files suffix, file.1 ∉ files.map (·.1)) :
    ∃ result w'' written,
      (c.write directory suffix : StateM Workspace (Except Error Unit)).run w' = (result, w'') ∧
      written <+: c.files suffix ∧ w.Overwritten directory (files ++ written) w'' ∧
      (c.Written w directory suffix ∧ result = .ok () ∧ written = c.files suffix ∨
        ¬ c.Written w directory suffix ∧ ∃ error, result = .error error) := by
  have hwritten : c.Written w directory suffix ↔
      ∀ file ∈ c.files suffix, w.Writable (Path.join directory file.1) :=
    and_iff_right ⟨output, hout⟩
  rw [write_eq_writeAll hout, hwritten]
  exact run_writeAll hw (fun _ => isName_of_mem_files hname hsuffix) files_nodup hnew

end Compilation

/-! ### Units that are shown -/

namespace Compilation

/-- The diagnostic of the unit, if it has one, can be laid out. -/
def isShown (c : Compilation) : Bool := c.diagnostic?.all (·.toOption.isSome)

theorem isShown_iff : c.isShown ↔ ∀ fault, c.diagnostic? ≠ some (.error fault) := by
  rw [isShown]
  rcases c.diagnostic? with _ | _ | _ <;> simp [Except.toOption]

theorem isShown_of_ok (h : c.outcome = .ok output) : c.isShown := by
  simp [isShown, diagnostic?, h]

/-- What cannot be laid out is the caret far to the right in a line of the source. -/
theorem isShown_eq_false_iff : c.isShown = false ↔ ∃ error span text, c.outcome = .error error ∧
    error.span? = some span ∧ c.source ≠ "" ∧ Error.sourceLine? c.source span.line = some text ∧
      maxWidth + 1 < span.column := by
  cases hout : c.outcome with
  | ok output => simp [isShown_of_ok hout]
  | error error =>
    rw [isShown, diagnostic?, hout, Option.all_some]
    cases hspan : error.span? with
    | none => simp [Error.diagnostic, hspan, pure, Except.pure, Except.toOption]
    | some span =>
      by_cases hempty : c.source = ""
      · simp [Error.diagnostic, hspan, hempty, pure, Except.pure, Except.toOption]
      · cases hline : Error.sourceLine? c.source span.line with
        | none => simp [Error.diagnostic, hspan, hempty, hline, pure, Except.pure, Except.toOption]
        | some text =>
          rw [if_neg (mt String.isEmpty_iff.1 hempty)]
          obtain hcolumn | hcolumn := (Nat.lt_or_ge (maxWidth + 1) span.column).symm
          · obtain ⟨shown, hshown, -⟩ :=
              @Error.exists_diagnostic _ _ (some c.name) _ _ hspan hline hcolumn
            simp [hshown, hspan, hline, Nat.not_lt.2 hcolumn, Except.toOption]
          · rw [Error.diagnostic_eq_error hspan hline hcolumn]
            simp [hspan, hline, hempty, hcolumn, Except.toOption]

end Compilation

/-! ### Finishing units -/

/-- A workspace `w` and a report once some units have been finished: each file written is one of
a unit, those of every unit that compiles and can be written are, and the exit code tells whether
that was every unit. -/
structure Finished (w : Workspace) (directory suffix : String) (units : List Compilation)
    (files : List (String × String)) (r : CommandLine.Report) (w' : Workspace) : Prop where
  overwritten : w.Overwritten directory files w'
  exists_unit {file : String × String} (h : file ∈ files) : ∃ c ∈ units, file ∈ c.files suffix
  written {c : Compilation} (h : c ∈ units) (hwritten : c.Written w directory suffix) :
    c.files suffix ⊆ files
  success (h : ∀ c ∈ units, c.Written w directory suffix) : r.exitCode = 0
  failure (h : ∃ c ∈ units, ¬ c.Written w directory suffix) : r.exitCode = 1

namespace Finished
variable {units : List Compilation}

theorem nil : Finished w directory suffix [] [] {} w where
  overwritten := Workspace.overwritten_nil
  exists_unit h := absurd h List.not_mem_nil
  written h := absurd h List.not_mem_nil
  success _ := rfl
  failure h := by simp at h

theorem append {r' : CommandLine.Report} {written : List (String × String)}
    (h : Finished w directory suffix units files r w')
    (hw'' : w.Overwritten directory (files ++ written) w'') (hsubset : written ⊆ c.files suffix)
    (hcases : c.Written w directory suffix ∧ written = c.files suffix ∧ r'.exitCode = r.exitCode ∨
      ¬ c.Written w directory suffix ∧ r'.exitCode = 1) :
    Finished w directory suffix (units ++ [c]) (files ++ written) r' w'' where
  overwritten := hw''
  exists_unit {file} hfile := by
    obtain hold | hnew := List.mem_append.mp hfile
    · obtain ⟨c', hc', hfile'⟩ := h.exists_unit hold
      exact ⟨c', by simp [hc'], hfile'⟩
    · exact ⟨c, by simp, hsubset hnew⟩
  written {c'} hc' hwritten := by
    obtain hold | rfl : c' ∈ units ∨ c' = c := by simpa using hc'
    · intro file hfile
      exact List.mem_append_left _ (h.written hold hwritten hfile)
    · obtain ⟨-, rfl, -⟩ := hcases.resolve_right fun hno => hno.1 hwritten
      exact List.subset_append_right _ _
  success hall := by
    obtain ⟨-, -, hr'⟩ := hcases.resolve_right fun hno => hno.1 (hall c (by simp))
    rw [hr', h.success fun c' hc' => hall c' (by simp [hc'])]
  failure hex := by
    obtain ⟨hwritten, -, hr'⟩ | ⟨-, hr'⟩ := hcases
    · obtain ⟨c', hc', hno⟩ := hex
      obtain hold | rfl : c' ∈ units ∨ c' = c := by simpa using hc'
      · rw [hr', h.failure ⟨c', hold, hno⟩]
      · exact absurd hwritten hno
    · exact hr'

/-- Finishing a unit that compiles is writing it and telling how that went. -/
theorem run_finish {result : Except Error Unit} (hout : c.outcome = .ok output)
    (hrun : (c.write directory suffix : StateM Workspace (Except Error Unit)).run w' =
      (result, w'')) :
    ∃ r', (CommandLine.finish directory suffix r c :
        StateM Workspace (ForInStep CommandLine.Report)).run w' = (.yield r', w'') ∧
      (result = .ok () ∧ r'.exitCode = r.exitCode ∨
        (∃ error, result = .error error) ∧ r'.exitCode = 1) := by
  have hnone : c.diagnostic? = none := by simp [Compilation.diagnostic?, hout]
  simp only [CommandLine.finish, hnone]
  rw [StateT.run_bind, hrun]
  cases result with
  | ok => exact ⟨_, rfl, .inl ⟨rfl, rfl⟩⟩
  | error error => exact ⟨_, rfl, .inr ⟨⟨error, rfl⟩, rfl⟩⟩

/-- Finishing one more unit, of another name, writes files of that unit alone. -/
theorem finish (h : Finished w directory suffix units files r w') (hname : '/' ∉ c.name.toList)
    (hsuffix : '/' ∉ suffix.toList) (hnew : c.name ∉ units.map (·.name)) (hshown : c.isShown) :
    ∃ r' w'' files',
      (CommandLine.finish directory suffix r c :
        StateM Workspace (ForInStep CommandLine.Report)).run w' = (.yield r', w'') ∧
      Finished w directory suffix (units ++ [c]) files' r' w'' := by
  cases hout : c.outcome with
  | error error =>
    have hno : ¬ c.Written w directory suffix := by
      rintro ⟨⟨output, hok⟩, -⟩
      simp [hout] at hok
    obtain ⟨text, htext⟩ : ∃ text, c.diagnostic? = some (.ok text) := by
      have hsome : c.diagnostic? ≠ none := by simp [Compilation.diagnostic?, hout]
      obtain ⟨shown, hshown'⟩ := Option.ne_none_iff_exists'.mp hsome
      cases shown with
      | ok text => exact ⟨text, hshown'⟩
      | error fault => exact absurd hshown' (Compilation.isShown_iff.mp hshown fault)
    refine ⟨r.complain text, w', files ++ [], ?_,
      h.append (by simpa using h.overwritten) (List.nil_subset _) (.inr ⟨hno, rfl⟩)⟩
    simp only [CommandLine.finish, htext]
    rfl
  | ok output =>
    have hfiles : ∀ file ∈ c.files suffix, file.1 ∉ files.map (·.1) := by
      intro file hfile hmem
      obtain ⟨file', hfile', heq⟩ := List.mem_map.mp hmem
      obtain ⟨c', hc', hfile'⟩ := h.exists_unit hfile'
      have hne : c.name ≠ c'.name := fun heq => hnew (heq ▸ List.mem_map_of_mem hc')
      exact Compilation.files_ne hne hfile hfile' heq.symm
    obtain ⟨result, w'', written, hrun, hprefix, hw'', hcases⟩ :=
      Compilation.run_write h.overwritten hout hname hsuffix hfiles
    obtain ⟨r', hfinish, hr'⟩ := run_finish (r := r) hout hrun
    refine ⟨r', w'', files ++ written, hfinish, h.append hw'' hprefix.subset ?_⟩
    obtain ⟨hwritten, rfl, hall⟩ | ⟨hno, error, rfl⟩ := hcases
    · exact .inl ⟨hwritten, hall, by simpa using hr'⟩
    · exact .inr ⟨hno, by simpa using hr'⟩

/-- Finishing units one by one, all of different names, up to the first that is not shown. -/
theorem finishAll (h : Finished w directory suffix units files r w') (rest : List Compilation)
    (hname : ∀ c ∈ rest, '/' ∉ c.name.toList) (hsuffix : '/' ∉ suffix.toList)
    (hnodup : ((units ++ rest).map (·.name)).Nodup) :
    ∃ r' w'' files',
      (CommandLine.finishAll directory suffix r rest : StateM Workspace CommandLine.Report).run w' =
        (if rest.all (·.isShown) then r' else r'.abort, w'') ∧
      Finished w directory suffix (units ++ rest.takeWhile (·.isShown)) files' r' w'' := by
  induction rest generalizing units files r w' with
  | nil => exact ⟨r, w', files, rfl, by simpa using h⟩
  | cons c rest ih =>
    rw [List.forall_mem_cons] at hname
    rw [CommandLine.finishAll, StateT.run_bind]
    cases hshown : c.isShown with
    | false =>
      refine ⟨r, w', files, ?_, by simpa [hshown] using h⟩
      obtain ⟨fault, hfault⟩ : ∃ fault, c.diagnostic? = some (.error fault) := by
        by_contra hno
        exact absurd (Compilation.isShown_iff.mpr (not_exists.mp hno)) (by simp [hshown])
      simp only [CommandLine.finish, hfault, List.all_cons, hshown, Bool.false_and]
      rfl
    | true =>
      have hnew : c.name ∉ units.map (·.name) := by
        rw [List.map_append, List.map_cons, List.nodup_append] at hnodup
        exact fun hmem => hnodup.2.2 _ hmem _ List.mem_cons_self rfl
      obtain ⟨r₁, w₁, files₁, hrun, h₁⟩ := h.finish hname.1 hsuffix hnew hshown
      obtain ⟨r', w'', files', hrest, h'⟩ := ih h₁ hname.2 (by simpa using hnodup)
      refine ⟨r', w'', files', ?_, by simpa [hshown] using h'⟩
      rw [hrun, List.all_cons, hshown, Bool.true_and]
      exact hrest

end Finished
end JackLang
