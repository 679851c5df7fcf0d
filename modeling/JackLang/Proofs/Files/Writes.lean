import JackLang.Proofs.Files.Tree
import Mathlib.Data.List.Basic

/-! Where paths lead and what writing does. Where a path leads is decided by the directories alone
(`resolve_congr`), and writing makes and removes none: whatever was written to some files of a
directory, paths lead where they did, the files have their texts and the rest is as it was
(`Overwritten`). -/

namespace JackLang
namespace Workspace
open Node JackLang.Path

variable {root root' : Node} {here names place : List String} {part name text path : String}
  {parts parts' : List String} {w w' w'' : Workspace} {directory : String}
  {files : List (String × String)} {bytes : ByteArray}

/-! ### Where paths lead -/

/-- Where a part of a path leads from a directory. -/
def enter (here : List String) (part : String) : List String :=
  if part = "" ∨ part = "." then here
  else if part = ".." then here.dropLast
  else here ++ [part]

theorem enter_of_isName (h : IsName name) : enter here name = here ++ [name] := by
  simp [enter, h.ne_empty, h.ne_dot, h.ne_dots]

/-- Other parts than names lead from a directory to a directory. -/
theorem content?_enter (hdir : root.content? here = some .directory) (hslash : '/' ∉ part.toList)
    (hpart : ¬ IsName part) : root.content? (enter here part) = some .directory := by
  rw [enter]
  split
  · exact hdir
  · next hempty =>
    split
    · obtain rfl | ⟨above, name, rfl⟩ := here.eq_nil_or_concat'
      · exact hdir
      · obtain ⟨entries, hget⟩ := content?_eq_directory_iff.mp hdir
        have hsome : root.get? (above ++ name :: []) ≠ none := by simp [hget]
        rw [List.dropLast_concat]
        exact content?_of_append_cons hsome
    · next hdots =>
      exact absurd ⟨fun h => hempty (.inl h), fun h => hempty (.inr h), hdots, hslash⟩ hpart

theorem follow_cons_eq_ok_iff :
    follow root here (part :: parts) = .ok names ↔
      root.content? here = some .directory ∧ part.utf8ByteSize ≤ maxName ∧
        follow root (enter here part) parts = .ok names := by
  rw [follow, content?_eq_directory_iff]
  cases h : root.get? here with
  | none => simp
  | some node =>
    cases node with
    | file => simp
    | directory entries =>
      simp only [enter]
      split
      · next hpart =>
        have : part.utf8ByteSize ≤ maxName := by obtain rfl | rfl := hpart <;> decide
        simp [this]
      · split
        · next hpart =>
          have : part.utf8ByteSize ≤ maxName := by subst hpart; decide
          simp [this]
        · split <;> simp <;> omega

theorem follow_append_eq_ok_iff :
    follow root here (parts ++ parts') = .ok names ↔
      ∃ place, follow root here parts = .ok place ∧ follow root place parts' = .ok names := by
  induction parts generalizing here with
  | nil => simp [follow]
  | cons part parts ih => simp only [List.cons_append, follow_cons_eq_ok_iff, ih]; grind

theorem follow_congr
    (h : ∀ names, root.content? names = some .directory ↔ root'.content? names = some .directory) :
    follow root here parts = .ok names ↔ follow root' here parts = .ok names := by
  induction parts generalizing here with
  | nil => simp [follow]
  | cons part parts ih => rw [follow_cons_eq_ok_iff, follow_cons_eq_ok_iff, h, ih]

theorem resolve_eq_ok_iff :
    w.resolve path = .ok names ↔
      '\x00' ∉ path.toList ∧ path ≠ "" ∧ path.utf8ByteSize < maxPath ∧
        follow w.root (if isAbsolute path then [] else w.current) (Path.parts path) =
          .ok names := by
  rw [resolve]
  grind

/-- Where a path leads is decided by the directories alone. -/
theorem resolve_congr (hcurrent : w.current = w'.current)
    (h : ∀ names, w.root.content? names = some .directory ↔
      w'.root.content? names = some .directory) :
    w.resolve path = .ok names ↔ w'.resolve path = .ok names := by
  rw [resolve_eq_ok_iff, resolve_eq_ok_iff, hcurrent, follow_congr h]

/-- A name joined to a path leads to the entry of a directory with that name. -/
theorem exists_of_resolve_join (hname : IsName name)
    (h : w.resolve (join directory name) = .ok names) :
    ∃ place, names = place ++ [name] ∧ w.root.content? place = some .directory := by
  obtain ⟨before, hparts⟩ := parts_join hname.slash_notMem directory
  obtain ⟨-, -, -, hfollow⟩ := resolve_eq_ok_iff.mp h
  rw [hparts, follow_append_eq_ok_iff] at hfollow
  obtain ⟨place, -, hlast⟩ := hfollow
  obtain ⟨hdir, -, hend⟩ := follow_cons_eq_ok_iff.mp hlast
  exact ⟨place, by simpa [follow, enter_of_isName hname, eq_comm] using hend, hdir⟩

theorem node_eq_ok_iff {node : Node} :
    w.node path = .ok node ↔
      ∃ names, w.resolve path = .ok names ∧ w.root.get? names = some node := by
  cases h : w.resolve path with
  | error fault => simp [Workspace.node, h, Bind.bind, Except.bind]
  | ok names =>
    cases hget : w.root.get? names <;>
      simp [Workspace.node, h, hget, Bind.bind, Except.bind, pure, Except.pure]

theorem node_eq_file_iff :
    w.node path = .ok (.file bytes) ↔
      ∃ names, w.resolve path = .ok names ∧ w.root.content? names = some (.file bytes) := by
  simp only [node_eq_ok_iff, content?_eq_file_iff]

/-- A path that leads to a file ends in the name of the file. -/
theorem exists_isName_of_node (h : w.node path = .ok (.file bytes)) :
    ∃ before name, Path.parts path = before ++ [name] ∧ IsName name := by
  obtain ⟨names, hresolve, hfile⟩ := node_eq_file_iff.mp h
  obtain ⟨-, -, -, hfollow⟩ := resolve_eq_ok_iff.mp hresolve
  obtain ⟨before, name, hparts⟩ :=
    (List.eq_nil_or_concat' _).resolve_left parts_ne_nil
  rw [hparts, follow_append_eq_ok_iff] at hfollow
  obtain ⟨place, -, hlast⟩ := hfollow
  obtain ⟨hdir, -, hend⟩ := follow_cons_eq_ok_iff.mp hlast
  obtain rfl : enter place name = names := by simpa [follow] using hend
  refine ⟨before, name, hparts, by_contra fun hname => ?_⟩
  have hmem : name ∈ Path.parts path := by simp [hparts]
  simp [content?_enter hdir (slash_notMem_of_mem_parts hmem) hname] at hfile

/-! ### Writing -/

/-- A text can be written to a path. -/
def Writable (w : Workspace) (path : String) : Prop := ∃ text w', w.write path text = .ok w'

theorem write_eq_ok_iff :
    w.write path text = .ok w' ↔
      ∃ names, w.resolve path = .ok names ∧ w.root.content? names ≠ some .directory ∧
        w' = { w with root := w.root.set names (.file text.toUTF8) } := by
  simp only [ne_eq, content?_eq_directory_iff]
  cases h : w.resolve path with
  | error fault => simp [Workspace.write, h, Bind.bind, Except.bind]
  | ok names =>
    cases hget : w.root.get? names with
    | none => simp [Workspace.write, h, hget, Bind.bind, Except.bind, pure, Except.pure, eq_comm]
    | some node =>
      cases node <;>
        simp [Workspace.write, h, hget, Bind.bind, Except.bind, pure, Except.pure, eq_comm]

/-- Writing is possible where a path leads to a file or to a new entry of a directory. -/
theorem writable_iff :
    w.Writable path ↔
      ∃ names, w.resolve path = .ok names ∧ w.root.content? names ≠ some .directory := by
  simp [Writable, write_eq_ok_iff]

/-- A workspace `w` once some texts have been written to files of a directory. -/
structure Overwritten (w : Workspace) (directory : String) (files : List (String × String))
    (w' : Workspace) : Prop where
  isName {file : String × String} (h : file ∈ files) : IsName file.1
  current : w.current = w'.current
  directories (names : List String) :
    w.root.content? names = some .directory ↔ w'.root.content? names = some .directory
  written {name text : String} (h : (name, text) ∈ files) :
    w'.node (join directory name) = .ok (.file text.toUTF8)
  kept {names : List String} (h : ∀ file ∈ files, w.resolve (join directory file.1) ≠ .ok names) :
    w'.root.content? names = w.root.content? names

theorem overwritten_nil : w.Overwritten directory [] w where
  isName h := absurd h List.not_mem_nil
  current := rfl
  directories _ := .rfl
  written h := absurd h List.not_mem_nil
  kept _ := rfl

namespace Overwritten

theorem resolve_iff (h : w.Overwritten directory files w') :
    w.resolve path = .ok names ↔ w'.resolve path = .ok names :=
  resolve_congr h.current h.directories

/-- No writing makes another possible or impossible. -/
theorem writable_iff (h : w.Overwritten directory files w') :
    w.Writable path ↔ w'.Writable path := by
  simp only [Workspace.writable_iff, h.resolve_iff, ne_eq, h.directories]

theorem write (h : w.Overwritten directory files w') (hname : IsName name)
    (hnew : name ∉ files.map (·.1)) (hwrite : w'.write (join directory name) text = .ok w'') :
    w.Overwritten directory (files ++ [(name, text)]) w'' := by
  obtain ⟨names, hresolve, hne, hw''⟩ := write_eq_ok_iff.mp hwrite
  obtain ⟨place, rfl, hdir⟩ := exists_of_resolve_join hname hresolve
  have hcontent (names : List String) : w''.root.content? names =
      if names = place ++ [name] then some (.file text.toUTF8) else w'.root.content? names :=
    hw'' ▸ content?_set_file hdir hne names
  have hcurrent : w'.current = w''.current := hw'' ▸ rfl
  have hdirs (names : List String) :
      w'.root.content? names = some .directory ↔ w''.root.content? names = some .directory := by
    rw [hcontent]
    split
    · next heq => simp [heq, hne]
    · rfl
  have hresolve'' {path : String} {names : List String} :
      w'.resolve path = .ok names ↔ w''.resolve path = .ok names :=
    resolve_congr hcurrent hdirs
  refine ⟨?_, h.current.trans hcurrent, fun names => (h.directories names).trans (hdirs names), ?_,
    fun {names} hnames => ?_⟩
  · simpa [or_imp, forall_and] using And.intro (fun _ _ => h.isName) hname
  · intro name' text' hmem
    obtain hold | hlast := List.mem_append.mp hmem
    · -- The file written before has another name, so it is in another place.
      obtain ⟨names, hnames, hfile⟩ := node_eq_file_iff.mp (h.written hold)
      obtain ⟨place', rfl, -⟩ := exists_of_resolve_join (h.isName hold) hnames
      have hne' : place' ++ [name'] ≠ place ++ [name] := by
        intro heq
        obtain rfl : name' = name := by simpa using (List.append_inj' heq rfl).2
        exact hnew (List.mem_map_of_mem hold)
      refine node_eq_file_iff.mpr ⟨_, hresolve''.mp hnames, ?_⟩
      rw [hcontent, if_neg hne', hfile]
    · obtain ⟨rfl, rfl⟩ : name' = name ∧ text' = text := by simpa using hlast
      refine node_eq_file_iff.mpr ⟨_, hresolve''.mp hresolve, ?_⟩
      rw [hcontent, if_pos rfl]
  · have hne' : names ≠ place ++ [name] := by
      rintro rfl
      exact hnames (name, text) (by simp) (h.resolve_iff.mpr hresolve)
    rw [hcontent, if_neg hne', h.kept fun file hfile => hnames file (by simp [hfile])]

/-- A place whose name is not that of a file written is as it was. -/
theorem kept_of_getLast? (h : w.Overwritten directory files w') (hlast : names.getLast? = some name)
    (hname : name ∉ files.map (·.1)) : w'.root.content? names = w.root.content? names := by
  refine h.kept fun file hfile hresolve => hname ?_
  obtain ⟨place, rfl, -⟩ := exists_of_resolve_join (h.isName hfile) hresolve
  obtain rfl : file.1 = name := by simpa using hlast
  exact List.mem_map_of_mem hfile

end Overwritten
end Workspace
end JackLang
