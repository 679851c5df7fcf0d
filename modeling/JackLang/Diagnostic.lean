import JackLang.Error
import JackLang.Text.Lines

/-! Errors shown with the source line they are about and a caret under the column. The caret is set
in a field of a limited width. -/

namespace JackLang

/-- The widest field that a text is set in. -/
def maxWidth : Nat := 65535

/-- A text that cannot be laid out, as it asks for a wider field. Whoever asks is aborted. -/
structure TooWide where
  width : Nat
deriving DecidableEq, Repr

namespace Error

/-- The text of a line of the source, lines counted from 1. -/
def sourceLine? (source : String) (line : Nat) : Option (List Char) :=
  if line = 0 then none else (Text.splitLines source.toList)[line - 1]?

/-- A number at the right of a field of three characters, wider if it needs more. -/
def marginNumber (n : Nat) : String :=
  let digits := toString n
  "".pushn ' ' (3 - digits.length) ++ digits

/-- A field of blanks. -/
def blanks (width : Nat) : Except TooWide String :=
  if maxWidth < width then .error ⟨width⟩ else .ok ("".pushn ' ' width)

/-- The source line between two margins, a caret under `column`. -/
def excerpt (line column : Nat) (text : List Char) : Except TooWide String := do
  let indent ← blanks (column - 1)
  return s!"   |\n{marginNumber line} | {String.ofList text}\n   | {indent}^\n"

/-- The message, the place if there is one, and the excerpt if the source has that line. -/
def diagnostic (error : Error) (source? fileName? : Option String) : Except TooWide String := do
  let head := s!"error: {error.message}\n"
  match error.span? with
  | none => return head
  | some span =>
    let fileName := fileName?.getD "<input>"
    let place := s!"  --> {fileName}:{span.text}\n"
    match source?.bind (sourceLine? · span.line) with
    | none => return head ++ place
    | some text => return head ++ place ++ (← excerpt span.line span.column text)

end Error
end JackLang
