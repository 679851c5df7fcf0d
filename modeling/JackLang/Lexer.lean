import JackLang.Fault
import JackLang.Source
import JackLang.Text.Blank

/-! Reading tokens off the lines of a source.

A `Scanner` holds what is unread; `Scanner.scan` skips blanks and comments and reads one token.
A `Lexer` adds one token of lookahead and the current token. Both answer with their new state also
when they fail, so that reading can go on. -/

namespace JackLang

/-! ### Words and numbers -/

def isWordStart (c : Char) : Bool := c.isAlpha || c == '_'

def isWordChar (c : Char) : Bool := c.isAlphanum || c == '_'

def isQuote (c : Char) : Bool := c == '"'

/-- A word is a keyword if it is reserved, and an identifier otherwise. -/
def Token.ofWord (word : String) : Token :=
  match Keyword.ofText? word with
  | some k => .keyword k
  | none => .identifier word

/-- The value of a decimal literal, at most `maxLiteral`. -/
def literalValue (digits : List Char) : Nat :=
  digits.foldl (fun value digit => min (value * 10 + (digit.toNat - '0'.toNat)) maxLiteral) 0

/-! ### One line -/

/-- What scanning the rest of a line ends with: a token or a fault, with the characters behind it
and how many came before those, or the end of the line, perhaps inside a comment. -/
inductive LineScan
  | token (token : Located) (rest : List Char) (column : Nat)
  | fault (fault : Fault) (rest : List Char) (column : Nat)
  | exhausted (column : Nat) (comment : Option Span)
deriving Repr

/-- Reads the token that starts with `c`, behind `column` characters of the line. -/
def readToken (line column : Nat) (c : Char) (cs : List Char) : LineScan :=
  let span : Span := ⟨line, column + 1⟩
  match Symbol.ofChar? c with
  | some symbol => .token ⟨.symbol symbol, span⟩ cs (column + 1)
  | none =>
    if c.isDigit then
      let digits := (c :: cs).takeWhile Char.isDigit
      .token ⟨.integer (literalValue digits), span⟩ ((c :: cs).dropWhile Char.isDigit)
        (column + digits.length)
    else if isQuote c then
      let text := cs.takeWhile (!isQuote ·)
      match cs.dropWhile (!isQuote ·) with
      | [] => .fault (.unterminatedString span) [] (column + 1 + cs.length)
      | _ :: rest => .token ⟨.string (.ofList text), span⟩ rest (column + text.length + 2)
    else if isWordStart c then
      let word := (c :: cs).takeWhile isWordChar
      .token ⟨.ofWord (.ofList word), span⟩ ((c :: cs).dropWhile isWordChar)
        (column + word.length)
    else .fault (.unexpectedCharacter span c) (c :: cs) column

/-- Skips blanks and comments and reads a token; `comment` is the start of an open comment. -/
def scanLine (line : Nat) : List Char → Nat → Option Span → LineScan
  | [], column, comment => .exhausted column comment
  | '*' :: '/' :: cs, column, some _ => scanLine line cs (column + 2) none
  | _ :: cs, column, some start => scanLine line cs (column + 1) (some start)
  | '/' :: '/' :: cs, column, none => .exhausted (column + 2 + cs.length) none
  | '/' :: '*' :: cs, column, none => scanLine line cs (column + 2) (some ⟨line, column + 1⟩)
  | c :: cs, column, none =>
    if Text.isBlank c then scanLine line cs (column + 1) none
    else readToken line column c cs

/-! ### Scanner -/

/-- What is unread of a source: the rest of the current line, of which `column` characters are read,
and the lines after it. `comment` is where a comment starts that is still open. -/
structure Scanner where
  rest : List Char := []
  line : Nat := 0
  column : Nat := 0
  comment : Option Span := none
  lines : List Line
deriving Repr

namespace Scanner

/-- The place behind the last character read. -/
def position (s : Scanner) : Span := ⟨max s.line 1, s.column + 1⟩

/-- Reads the next token, or finds the end of the input. -/
def scan (s : Scanner) : EStateM.Result Fault Scanner (Option Located) :=
  go s.rest s.line s.column s.comment s.lines
where
  go (rest : List Char) (line column : Nat) (comment : Option Span) (lines : List Line) :
      EStateM.Result Fault Scanner (Option Located) :=
    match scanLine line rest column comment with
    | .token token rest column => .ok (some token) ⟨rest, line, column, none, lines⟩
    | .fault fault rest column => .error fault ⟨rest, line, column, none, lines⟩
    | .exhausted column comment =>
      match lines with
      | .text chars :: lines => go chars (line + 1) 0 comment lines
      | .unreadable reason :: lines =>
        .error (.unreadable (line + 1) reason) ⟨[], line, column, comment, lines⟩
      | [] =>
        match comment with
        | some start => .error (.unterminatedComment start) ⟨[], line, column, comment, []⟩
        | none => .ok none ⟨[], line, column, none, []⟩
  termination_by structural lines

end Scanner

/-! ### Lexer -/

/-- A scanner with the token it has looked ahead to and the token last committed. -/
structure Lexer where
  scanner : Scanner
  peeked : Option Located := none
  current : Option Located := none
deriving Repr

namespace Lexer

def ofLines (lines : List Line) : Lexer := { scanner := { lines } }

def position (l : Lexer) : Span := l.scanner.position

/-- The token after the current one, which stays there. -/
def peek : EStateM Fault Lexer (Option Located) := fun l =>
  match l.peeked with
  | some token => .ok (some token) l
  | none =>
    match l.scanner.scan with
    | .ok token scanner => .ok token { l with scanner, peeked := token }
    | .error fault scanner => .error fault { l with scanner }

/-- Whether a token follows the current one. -/
def hasNext : EStateM Fault Lexer Bool := do
  return (← peek).isSome

/-- Makes the next token the current one; at the end of the input there is none. -/
def advance : EStateM Fault Lexer (Option Located) := do
  let token ← peek
  modify fun l => { l with peeked := none, current := token }
  return token

end Lexer
end JackLang
