/-! Paths as texts: their parts between slashes, the name of what they lead to, and how they are put
together. -/

namespace JackLang.Path

/-- The texts between slashes; empty ones count. -/
def split : List Char → List (List Char)
  | [] => [[]]
  | '/' :: cs => [] :: split cs
  | c :: cs =>
    match split cs with
    | [] => [[c]]
    | part :: parts => (c :: part) :: parts

/-- The parts of a path. Empty parts and `.` lead nowhere. -/
def parts (path : String) : List String := (split path.toList).map .ofList

def isAbsolute (path : String) : Bool := path.toList.head? == some '/'

/-- The name of what a path leads to, unless that is only known as `..` or as a starting point. -/
def fileName? (path : String) : Option String :=
  match ((parts path).filter fun part => part ≠ "" ∧ part ≠ ".").getLast? with
  | some ".." => none
  | name => name

/-- A name up to its last dot and what follows the dot. A dot at the start separates nothing. -/
def splitExtension (name : String) : String × Option String :=
  let backwards := name.toList.reverse
  match backwards.dropWhile (· ≠ '.') with
  | [] | [_] => (name, none)
  | _ :: stem =>
    (.ofList stem.reverse, some (.ofList (backwards.takeWhile (· ≠ '.')).reverse))

def stem? (path : String) : Option String := (fileName? path).map (splitExtension · |>.1)

def extension? (path : String) : Option String := (fileName? path).bind (splitExtension · |>.2)

/-- Drops what leads nowhere from the end of a path, which is given backwards. -/
def trimEnd : List Char → List Char
  | '/' :: cs => trimEnd cs
  | '.' :: '/' :: cs => trimEnd cs
  | cs => cs

/-- The directory of a path that ends in a name; `.` if the path is only that name. -/
def parent (path : String) : String :=
  match path.toList.reverse.dropWhile (· ≠ '/') with
  | [] => "."
  | slash :: before =>
    match trimEnd before with
    | [] => .ofList [slash]
    | directory => .ofList directory.reverse

/-- The path of a name in a directory. -/
def join (directory name : String) : String :=
  match directory.toList.getLast? with
  | none | some '/' => directory ++ name
  | some _ => directory ++ "/" ++ name

end JackLang.Path
