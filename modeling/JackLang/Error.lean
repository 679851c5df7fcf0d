import JackLang.Span

/-! Errors as a user sees them: a kind, a place and a wording. -/

namespace JackLang

inductive Error
  /-- No token can be read, or a constant is outside the language. -/
  | lexical (span : Span) (message : String)
  /-- A token stands where the grammar has no place for it. -/
  | syntactic (span : Span) (expected found : String)
  /-- A name is declared twice in one scope. -/
  | duplicate (name : String) (span : Span)
  /-- A name is used that no scope declares. -/
  | undefined (name : String) (span : Span)
  /-- A request makes no sense in the present state. -/
  | precondition (message : String)
  /-- An instruction cannot carry an operand. -/
  | operand (message : String)
  /-- A line of the source could not be read. -/
  | read (line : Nat) (reason : String)
  /-- A file could not be read or written. -/
  | io (path reason : String)
deriving DecidableEq, Repr

namespace Error

def message : Error → String
  | lexical span message => s!"Lexical error at {span.text}: {message}"
  | syntactic span expected found =>
    s!"Syntax error at {span.text}: expected {expected}, got {found}"
  | duplicate name span => s!"Duplicate definition of '{name}' at {span.text}"
  | undefined name span => s!"Undefined variable '{name}' at {span.text}"
  | precondition message => s!"Precondition failed: {message}"
  | operand message => s!"Invalid VM operand: {message}"
  | read line reason => s!"Read error at line {line}: {reason}"
  | io path reason => s!"IO error for {path}: {reason}"

/-- Where in the source the error is; a line that could not be read is named by its start. -/
def span? : Error → Option Span
  | lexical span _ | syntactic span _ _ | duplicate _ span | undefined _ span => some span
  | read line _ => some ⟨line, 1⟩
  | precondition _ | operand _ | io _ _ => none

end Error
end JackLang
