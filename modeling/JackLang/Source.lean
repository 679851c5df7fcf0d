import JackLang.Text.Lines

/-! Sources: the lines that a compilation reads, in order, some of which may fail to be read. -/

namespace JackLang

/-- What reading one line gives. -/
inductive Line
  | text (chars : List Char)
  | unreadable (reason : String)
deriving DecidableEq, Repr

/-- A piece of what a reader delivers. -/
inductive Chunk
  | bytes (bytes : List UInt8)
  /-- The reader fails once, and goes on behind the failure. -/
  | failure (reason : String)
deriving DecidableEq, Repr

namespace Line

/-- The lines of a text that is at hand as a whole. -/
def ofText (source : String) : List Line :=
  (Text.splitLines source.toList).map text

/-- A line of bytes, which has to be valid UTF-8. -/
def ofBytes (bytes : List UInt8) : Line :=
  match String.fromUTF8? ⟨bytes.toArray⟩ with
  | some s => text s.toList
  | none => unreadable "stream did not contain valid UTF-8"

/-- The lines of a reader. A failure loses what was read of the line it interrupts. -/
def ofChunks (chunks : List Chunk) : List Line :=
  go [] chunks
where
  /-- `pending` is the part of a line that has been read. -/
  go (pending : List UInt8) : List Chunk → List Line
    | [] => if pending.isEmpty then [] else [ofBytes pending]
    | .bytes bytes :: chunks =>
      match Text.terminatedLines 10 13 (pending ++ bytes) with
      | (lines, rest) => lines.map ofBytes ++ go rest chunks
    | .failure reason :: chunks => unreadable reason :: go [] chunks

end Line
end JackLang
