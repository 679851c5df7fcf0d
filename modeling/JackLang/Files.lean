import JackLang.Path

/-! Access to files, and a model of it: a tree of directories and files with a current directory. -/

namespace JackLang

/-- What a compiler does with files. An operation that fails gives the reason as text. -/
class FileAccess (m : Type → Type) where
  isFile (path : String) : m Bool
  isDirectory (path : String) : m Bool
  /-- The text of a file. -/
  read (path : String) : m (Except String String)
  /-- The names in a directory, in any order. -/
  entries (path : String) : m (Except String (List String))
  /-- Makes a text the content of a file, which need not exist. -/
  write (path text : String) : m (Except String Unit)

/-! ### Trees -/

inductive Node
  | file (bytes : ByteArray)
  | directory (entries : List (String × Node))

namespace Node

def isFile : Node → Bool
  | file _ => true
  | directory _ => false

/-- The node that the names lead to. -/
def get? : Node → List String → Option Node
  | node, [] => some node
  | file _, _ :: _ => none
  | directory entries, name :: names => (entries.lookup name).bind (·.get? names)

/-- Puts a node under a name, in the place of one that has the name. -/
def insertEntry (name : String) (node : Node) : List (String × Node) → List (String × Node)
  | [] => [(name, node)]
  | (name', node') :: entries =>
    if name' = name then (name, node) :: entries
    else (name', node') :: insertEntry name node entries

/-- Puts a node where the names lead; the directories on the way have to exist. -/
def set : Node → List String → Node → Node
  | _, [], new => new
  | file bytes, _ :: _, _ => file bytes
  | directory entries, name :: names, new =>
    match entries.lookup name, names with
    | some node, names => directory (insertEntry name (node.set names new) entries)
    | none, [] => directory (insertEntry name new entries)
    | none, _ :: _ => directory entries

end Node

/-! ### Paths in a tree -/

/-- Why a path is of no use. -/
inductive PathFault
  | notFound | notDirectory | isDirectory | nameTooLong | containsNul | notText
deriving DecidableEq, Repr

namespace PathFault

def reason : PathFault → String
  | notFound => "No such file or directory (os error 2)"
  | notDirectory => "Not a directory (os error 20)"
  | isDirectory => "Is a directory (os error 21)"
  | nameTooLong => "File name too long (os error 36)"
  | containsNul => "file name contained an unexpected NUL byte"
  | notText => "stream did not contain valid UTF-8"

end PathFault

/-- A tree and the names that lead to its current directory. -/
structure Workspace where
  root : Node
  current : List String

namespace Workspace

/-- Bounds on the bytes of a name and of a path with its end mark. -/
def maxName : Nat := 255

def maxPath : Nat := 4096

/-- Follows parts from `here`. All but the last have to be there. -/
def follow (root : Node) : List String → List String → Except PathFault (List String)
  | here, [] => .ok here
  | here, part :: parts =>
    match root.get? here with
    | none => .error .notFound
    | some (.file _) => .error .notDirectory
    | some (.directory _) =>
      if part = "" ∨ part = "." then follow root here parts
      else if part = ".." then follow root here.dropLast parts
      else if maxName < part.utf8ByteSize then .error .nameTooLong
      else follow root (here ++ [part]) parts

/-- The names that a path stands for. -/
def resolve (w : Workspace) (path : String) : Except PathFault (List String) :=
  if path.toList.contains '\x00' then .error .containsNul
  else if path = "" then .error .notFound
  else if maxPath ≤ path.utf8ByteSize then .error .nameTooLong
  else follow w.root (if Path.isAbsolute path then [] else w.current) (Path.parts path)

/-- The node at a path. -/
def node (w : Workspace) (path : String) : Except PathFault Node := do
  match w.root.get? (← w.resolve path) with
  | some node => return node
  | none => throw .notFound

def read (w : Workspace) (path : String) : Except PathFault String := do
  match ← w.node path with
  | .directory _ => throw .isDirectory
  | .file bytes =>
    match String.fromUTF8? bytes with
    | some text => return text
    | none => throw .notText

def entries (w : Workspace) (path : String) : Except PathFault (List String) := do
  match ← w.node path with
  | .directory entries => return entries.map (·.1)
  | .file _ => throw .notDirectory

def write (w : Workspace) (path text : String) : Except PathFault Workspace := do
  let names ← w.resolve path
  match w.root.get? names with
  | some (.directory _) => throw .isDirectory
  | _ => return { w with root := w.root.set names (.file text.toUTF8) }

instance : FileAccess (StateM Workspace) where
  isFile path := do
    match (← get).node path with
    | .ok node => return node.isFile
    | .error _ => return false
  isDirectory path := do
    match (← get).node path with
    | .ok node => return !node.isFile
    | .error _ => return false
  read path := do return ((← get).read path).mapError PathFault.reason
  entries path := do return ((← get).entries path).mapError PathFault.reason
  write path text := do
    match (← get).write path text with
    | .ok w =>
      set w
      return .ok ()
    | .error fault => return .error fault.reason

end Workspace
end JackLang
