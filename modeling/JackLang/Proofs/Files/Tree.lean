import JackLang.Files
import JackLang.Proofs.Files.Paths

/-! What stands at each place of a tree of directories and files. Putting a file in a directory
changes what stands at that place and nowhere else (`content?_set_file`). -/

namespace JackLang
namespace Node

/-- What a node is by itself: a file with its bytes or a directory, whatever it holds. -/
inductive Content
  | file (bytes : ByteArray)
  | directory

def content : Node → Content
  | file bytes => .file bytes
  | directory _ => .directory

/-- What stands where the names lead. -/
def content? (root : Node) (names : List String) : Option Content := (root.get? names).map content

/-- A tree as file systems have them: each directory has its entries under distinct names, and
paths can have every name. -/
structure Proper (root : Node) : Prop where
  nodup {names : List String} {entries : List (String × Node)}
    (h : root.get? names = some (.directory entries)) : (entries.map (·.1)).Nodup
  isName {names : List String} {entries : List (String × Node)} {name : String}
    (h : root.get? names = some (.directory entries)) (hname : name ∈ entries.map (·.1)) :
    Path.IsName name

variable {root node : Node} {names names' place : List String} {name name' : String}
  {entries : List (String × Node)} {bytes : ByteArray}

/-! ### Lookup -/

@[simp] theorem get?_nil : root.get? [] = some root := by cases root <;> rfl

@[simp] theorem get?_file_cons : (file bytes).get? (name :: names) = none := rfl

@[simp] theorem get?_directory_cons :
    (Node.directory entries).get? (name :: names) = (entries.lookup name).bind (·.get? names) :=
  rfl

theorem get?_append : root.get? (names ++ names') = (root.get? names).bind (·.get? names') := by
  induction names generalizing root with
  | nil => simp
  | cons name names ih =>
    cases root with
    | file => rfl
    | directory entries => cases h : entries.lookup name <;> simp [h, ih]

theorem lookup_insertEntry_self : (insertEntry name node entries).lookup name = some node := by
  induction entries with
  | nil => simp [insertEntry]
  | cons entry entries ih =>
    obtain ⟨first, node'⟩ := entry
    rw [insertEntry]
    split
    · simp
    · next hne => rw [List.lookup_cons, beq_false_of_ne (Ne.symm hne), ih]

theorem lookup_insertEntry_of_ne (h : name' ≠ name) :
    (insertEntry name node entries).lookup name' = entries.lookup name' := by
  induction entries with
  | nil => simp [insertEntry, List.lookup_cons, beq_false_of_ne h]
  | cons entry entries ih =>
    obtain ⟨first, node'⟩ := entry
    rw [insertEntry]
    split
    · next heq => simp [heq, List.lookup_cons, beq_false_of_ne h]
    · simp only [List.lookup_cons, ih]

theorem set_singleton :
    (directory entries).set [name] node = directory (insertEntry name node entries) := by
  cases h : entries.lookup name <;> simp [set, h]

theorem set_cons (h : entries.lookup name = some node) {new : Node} :
    (directory entries).set (name :: names) new =
      directory (insertEntry name (node.set names new) entries) := by
  simp [set, h]

/-! ### Contents -/

@[simp] theorem content?_nil : root.content? [] = some root.content := by simp [content?]

@[simp] theorem content?_file_cons : (file bytes).content? (name :: names) = none := rfl

@[simp] theorem content?_directory_cons :
    (Node.directory entries).content? (name :: names) =
      (entries.lookup name).bind (·.content? names) := by
  cases h : entries.lookup name <;> simp [content?, h]

theorem content?_eq_directory_iff :
    root.content? names = some .directory ↔
      ∃ entries, root.get? names = some (.directory entries) := by
  cases h : root.get? names with
  | none => simp [content?, h]
  | some node => cases node <;> simp [content?, h, content]

theorem content?_eq_file_iff :
    root.content? names = some (.file bytes) ↔ root.get? names = some (.file bytes) := by
  cases h : root.get? names with
  | none => simp [content?, h]
  | some node => cases node <;> simp [content?, h, content]

/-- What leads on to something is a directory. -/
theorem content?_of_append_cons (h : root.get? (names ++ name :: names') ≠ none) :
    root.content? names = some .directory := by
  rw [get?_append] at h
  cases hget : root.get? names with
  | none => simp [hget] at h
  | some node =>
    cases node with
    | file bytes => simp [hget] at h
    | directory entries => exact content?_eq_directory_iff.mpr ⟨entries, hget⟩

/-- A file put in a directory, where no directory stands, is there, and is all that is new. -/
theorem content?_set_file (hdir : root.content? place = some .directory)
    (hname : root.content? (place ++ [name]) ≠ some .directory) (names : List String) :
    (root.set (place ++ [name]) (.file bytes)).content? names =
      if names = place ++ [name] then some (.file bytes) else root.content? names := by
  induction place generalizing root names with
  | nil =>
    obtain ⟨entries, hroot⟩ := content?_eq_directory_iff.mp hdir
    obtain rfl : root = .directory entries := by simpa using hroot
    rw [List.nil_append, set_singleton]
    cases names with
    | nil => simp [content]
    | cons other names =>
      rw [content?_directory_cons, content?_directory_cons]
      by_cases hother : other = name
      · subst hother
        -- What stood there was a file or nothing, so nothing stood below it.
        cases names with
        | nil => simp [lookup_insertEntry_self, content]
        | cons below names =>
          cases h : entries.lookup other with
          | none => simp [lookup_insertEntry_self]
          | some node =>
            cases node with
            | file => simp [lookup_insertEntry_self]
            | directory => simp [h, content] at hname
      · simp [lookup_insertEntry_of_ne hother, hother]
  | cons first place ih =>
    cases root with
    | file => simp at hdir
    | directory entries =>
      cases h : entries.lookup first with
      | none => simp [h] at hdir
      | some node =>
        simp only [content?_directory_cons, h, Option.bind_some] at hdir
        simp only [List.cons_append, content?_directory_cons, h, Option.bind_some] at hname
        rw [List.cons_append, set_cons h]
        cases names with
        | nil => simp [content]
        | cons other names =>
          rw [content?_directory_cons, content?_directory_cons]
          by_cases hother : other = first
          · subst hother
            simp [lookup_insertEntry_self, h, ih hdir hname]
          · simp [lookup_insertEntry_of_ne hother, hother]

/-! ### Proper trees -/

theorem proper_file : (file bytes).Proper where
  nodup {names _} h := by cases names <;> simp at h
  isName {names _ _} h := by cases names <;> simp at h

theorem proper_directory (hnodup : (entries.map (·.1)).Nodup)
    (hnames : ∀ name ∈ entries.map (·.1), Path.IsName name)
    (hnodes : ∀ entry ∈ entries, entry.2.Proper) : (Node.directory entries).Proper where
  nodup {names entries'} h := by
    cases names with
    | nil =>
      obtain rfl : entries = entries' := by simpa using h
      exact hnodup
    | cons name names =>
      obtain ⟨node, hnode, hget⟩ := Option.bind_eq_some_iff.mp h
      obtain ⟨before, after, rfl, -⟩ := List.lookup_eq_some_iff.mp hnode
      exact (hnodes (name, node) (by simp)).nodup hget
  isName {names entries' name'} h hname' := by
    cases names with
    | nil =>
      obtain rfl : entries = entries' := by simpa using h
      exact hnames _ hname'
    | cons name names =>
      obtain ⟨node, hnode, hget⟩ := Option.bind_eq_some_iff.mp h
      obtain ⟨before, after, rfl, -⟩ := List.lookup_eq_some_iff.mp hnode
      exact (hnodes (name, node) (by simp)).isName hget hname'

end Node
end JackLang
