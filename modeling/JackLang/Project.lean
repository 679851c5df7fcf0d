import JackLang.Compilation
import JackLang.Files

/-! Units in files: a file or the sources of a directory are compiled, and what they compile to is
written. -/

namespace JackLang

variable {m : Type → Type} [Monad m] [FileAccess m]

/-- The extension of a source file. -/
def sourceExtension : String := "jack"

/-- Compiles a file; the unit has the name of the file less its extension. -/
def compileFile (path : String) (traced : Bool) : m Compilation := do
  let name := (Path.stem? path).getD "unknown"
  match ← FileAccess.read path with
  | .ok source => return .ofText name source traced
  | .error reason => return .failed name (.io path reason)

/-- The names of the sources among some names, in order. -/
def sourceNames (names : List String) : List String :=
  (names.filter (Path.extension? · == some sourceExtension)).mergeSort (fun a b => !decide (b < a))

/-- Compiles each source of a directory. -/
def compileDirectory (path : String) (traced : Bool) : m (List Compilation) := do
  match ← FileAccess.entries path with
  | .ok names => (sourceNames names).mapM fun name => compileFile (Path.join path name) traced
  | .error reason => return [.failed path (.io path reason)]

namespace Compilation

/-- Writes a text to a file of a directory. -/
def writeText (directory name text : String) : m (Except Error Unit) := do
  let path := Path.join directory name
  return (← FileAccess.write path text).mapError (.io path)

/-- Writes the code of a unit, and its trace if there is one, to files named after it. A unit that
does not compile is not written. -/
def write (c : Compilation) (directory suffix : String) : m (Except Error Unit) := do
  match c.outcome with
  | .error error =>
    return .error (.precondition s!"refusing to write failed unit {c.name}: {error.message}")
  | .ok output =>
    match ← writeText directory s!"{c.name}{suffix}.vm" output.code, output.trace? with
    | .ok (), some trace => writeText directory s!"{c.name}{suffix}.xml" trace
    | result, _ => return result

end Compilation
end JackLang
