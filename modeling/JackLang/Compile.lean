import JackLang.Engine.Class

/-! Compilation of one class from the lines of its source. -/

namespace JackLang

/-- What a class compiles to. -/
structure Compiled where
  className : String
  code : Code
  trace? : Option Trace.Events

/-- The class in some lines, or the first fault met. -/
def parse (lines : List Line) : Except Fault Class :=
  match Parser.program (.ofLines lines) with
  | .ok c _ => .ok c
  | .error fault _ => .error fault

namespace Session

/-- Before anything is read. -/
def start (lines : List Line) (traced : Bool) : Session where
  stream := .ofLines lines
  ledger := { trace? := if traced then some #[] else none }

end Session

/-- The code of the class in some lines, and its trace if it is asked for. -/
def compile (lines : List Line) (traced : Bool) : Except Fault Compiled :=
  match Engine.program (.start lines traced) with
  | .ok className s => .ok ⟨className, s.ledger.emission.code, s.ledger.trace?⟩
  | .error fault _ => .error fault

end JackLang
