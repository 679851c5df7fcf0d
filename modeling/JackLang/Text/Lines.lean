/-! Lines of a text. A line ends at a line feed, which is not part of it, nor is one carriage return
right before it. What follows the last line feed is a line of its own unless it is empty. -/

namespace JackLang.Text

variable {α : Type} [DecidableEq α]

/-- A line read backwards, less the carriage return at its end. -/
def dropReturn (ret : α) : List α → List α
  | [] => []
  | c :: line => if c = ret then line else c :: line

/-- The lines of a sequence that a line feed ends, and what follows the last line feed. -/
def terminatedLines (feed ret : α) (text : List α) : List (List α) × List α :=
  go text [] []
where
  /-- `line` is the current line and `done` the lines before it, both backwards. -/
  go : List α → List α → List (List α) → List (List α) × List α
    | [], line, done => (done.reverse, line.reverse)
    | c :: text, line, done =>
      if c = feed then go text [] ((dropReturn ret line).reverse :: done)
      else go text (c :: line) done

/-- The lines of a text. -/
def splitLines (text : List Char) : List (List Char) :=
  match terminatedLines '\n' '\r' text with
  | (lines, []) => lines
  | (lines, last) => lines ++ [last]

end JackLang.Text
