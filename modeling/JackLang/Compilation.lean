import JackLang.Compile
import JackLang.Diagnostic

/-! Compilations: named units with their sources and outcomes, as texts. -/

namespace JackLang

/-- What is written for a unit that compiles. -/
structure Output where
  code : String
  trace? : Option String
deriving DecidableEq, Repr

/-- A unit that has been compiled. The source is empty if it is not at hand. -/
structure Compilation where
  name : String
  source : String
  outcome : Except Error Output

namespace Compilation

def ofLines (name source : String) (lines : List Line) (traced : Bool) : Compilation where
  name
  source
  outcome :=
    match compile lines traced with
    | .ok compiled => .ok ⟨compiled.code.render, compiled.trace?.map Trace.render⟩
    | .error fault => .error fault.report

def ofText (name source : String) (traced : Bool) : Compilation :=
  ofLines name source (Line.ofText source) traced

def ofChunks (name : String) (chunks : List Chunk) (traced : Bool) : Compilation :=
  ofLines name "" (Line.ofChunks chunks) traced

/-- A unit of which there is no source. -/
def failed (name : String) (error : Error) : Compilation := ⟨name, "", .error error⟩

/-- The error of a unit, shown in its source if that can be laid out. -/
def diagnostic? (c : Compilation) : Option (Except TooWide String) :=
  match c.outcome with
  | .ok _ => none
  | .error error =>
    some (error.diagnostic (if c.source.isEmpty then none else some c.source) (some c.name))

end Compilation
end JackLang
