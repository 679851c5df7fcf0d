import Mathlib.Logic.Relation
import JackLang.Proofs.Lexis.Unread

/-! Reading tokens at positions. A `Cursor` keeps its line whole, with the position that it has read
up to, and looks at characters by their positions. An access that is not within the line fails as
`Outside`, and so does a move behind its end. None does, wherever a cursor is, and scanning finds
what a scanner finds that has the rest of the line before it (`Cursor.scans`). -/

namespace JackLang

/-- What is not within a line of so many characters. -/
inductive Outside
  | character (pos length : Nat)
  | slice (start stop length : Nat)
  | position (pos length : Nat)
deriving DecidableEq, Repr

/-- What comes of accesses to a line. -/
abbrev Checked := Except Outside

/-- The current line, the first characters of which are read up to a position, and the lines after
it. `number` is how many lines have been read, and `comment` is where a comment starts that is still
open. -/
structure Cursor where
  line : List Char := []
  number : Nat := 0
  pos : Nat := 0
  comment : Option Span := none
  lines : List Line
deriving Repr

namespace Cursor

/-! ### The line -/

/-- The character at a position. -/
def charAt (c : Cursor) (pos : Nat) : Checked Char :=
  match c.line[pos]? with
  | some char => .ok char
  | none => .error (.character pos c.line.length)

/-- The character that is so much further on, if the line has one there. -/
def ahead? (c : Cursor) (offset : Nat) : Option Char := c.line[c.pos + offset]?

/-- The characters from one position up to another. -/
def slice (c : Cursor) (start stop : Nat) : Checked (List Char) :=
  if start ≤ stop ∧ stop ≤ c.line.length then .ok ((c.line.take stop).drop start)
  else .error (.slice start stop c.line.length)

def moveTo (c : Cursor) (pos : Nat) : Checked Cursor :=
  if pos ≤ c.line.length then .ok { c with pos } else .error (.position pos c.line.length)

/-- The place of the character at the position. -/
def span (c : Cursor) : Span := ⟨c.number, c.pos + 1⟩

/-- The place behind the last character read. -/
def position (c : Cursor) : Span := ⟨max c.number 1, c.pos + 1⟩

theorem lt_of_moveTo {c next : Cursor} (h : c.moveTo (c.pos + 1) = .ok next) :
    next.line.length - next.pos < c.line.length - c.pos := by
  rw [moveTo] at h
  split at h
  · cases h
    dsimp only
    omega
  · cases h

/-- Goes behind the end of the comment, or to the end of the line. -/
def skipComment (c : Cursor) : Checked Cursor := do
  if c.pos < c.line.length then
    if (← c.charAt c.pos) = '*' ∧ c.ahead? 1 = some '/' then
      return { ← c.moveTo (c.pos + 2) with comment := none }
    else
      match h : c.moveTo (c.pos + 1) with
      | .ok next =>
        have := lt_of_moveTo h
        next.skipComment
      | .error outside => .error outside
  else return c
termination_by c.line.length - c.pos

/-! ### Tokens -/

/-- Reads on for as long as the characters satisfy `p`, each of which is added to a state. -/
def readWhile {σ : Type} (p : Char → Bool) (add : σ → Char → σ) (state : σ) (c : Cursor) :
    Checked (σ × Cursor) :=
  match c.ahead? 0 with
  | some char =>
    if p char then
      match h : c.moveTo (c.pos + 1) with
      | .ok next =>
        have := lt_of_moveTo h
        next.readWhile p add (add state char)
      | .error outside => .error outside
    else .ok (state, c)
  | none => .ok (state, c)
termination_by c.line.length - c.pos

def readInteger (c : Cursor) : Checked (Token × Cursor) := do
  let (value, c) ← c.readWhile Char.isDigit
    (fun value digit => min (value * 10 + (digit.toNat - '0'.toNat)) maxLiteral) 0
  return (.integer value, c)

/-- Reads a string up to the next quote of the line; `span` is where the string starts. -/
def readString (span : Span) (c : Cursor) : Checked (EStateM.Result Fault Cursor Located) := do
  let start := c.pos + 1
  match (← c.slice start c.line.length).findIdx? isQuote with
  | none => return .error (.unterminatedString span) (← c.moveTo c.line.length)
  | some length =>
    let text ← c.slice start (start + length)
    return .ok ⟨.string (.ofList text), span⟩ (← c.moveTo (start + length + 1))

def readWord (c : Cursor) : Checked (Token × Cursor) := do
  let start := c.pos
  let (_, c) ← c.readWhile isWordChar (fun _ _ => ()) ()
  return (.ofWord (.ofList (← c.slice start c.pos)), c)

/-- Reads the token at the position. -/
def readToken (c : Cursor) : Checked (EStateM.Result Fault Cursor Located) := do
  let span := c.span
  let char ← c.charAt c.pos
  match Symbol.ofChar? char with
  | some symbol => return .ok ⟨.symbol symbol, span⟩ (← c.moveTo (c.pos + 1))
  | none =>
    if char.isDigit then
      let (token, c) ← c.readInteger
      return .ok ⟨token, span⟩ c
    else if isQuote char then c.readString span
    else if isWordStart char then
      let (token, c) ← c.readWord
      return .ok ⟨token, span⟩ c
    else return .error (.unexpectedCharacter span char) c

/-! ### Rounds -/

/-- Goes on to the next line, if there is one. -/
def nextLine (c : Cursor) : EStateM.Result Fault Cursor Bool :=
  match c.lines with
  | [] => .ok false c
  | .unreadable reason :: lines => .error (.unreadable (c.number + 1) reason) { c with lines }
  | .text chars :: lines =>
    .ok true { c with line := chars, number := c.number + 1, pos := 0, lines }

/-- What a round of scanning comes to. -/
inductive Round
  | again (c : Cursor)
  | ended (result : EStateM.Result Fault Cursor (Option Located))

/-- Scanning ends with what has been read. -/
def Round.ofRead : EStateM.Result Fault Cursor Located → Round
  | .ok token c => .ended (.ok (some token) c)
  | .error fault c => .ended (.error fault c)

/-- A round of scanning: goes on to the next line, skips a blank or what is left of a comment in the
line, or reads a token. -/
def round (c : Cursor) : Checked Round := do
  if c.line.length ≤ c.pos then
    match c.nextLine with
    | .ok true c => return .again c
    | .ok false c =>
      match c.comment with
      | some start => return .ended (.error (.unterminatedComment start) c)
      | none => return .ended (.ok none c)
    | .error fault c => return .ended (.error fault c)
  else if c.comment.isSome then return .again (← c.skipComment)
  else
    let char ← c.charAt c.pos
    if Text.isBlank char then return .again (← c.moveTo (c.pos + 1))
    else if char = '/' ∧ c.ahead? 1 = some '/' then return .again (← c.moveTo c.line.length)
    else if char = '/' ∧ c.ahead? 1 = some '*' then
      return .again (← { c with comment := some c.span }.moveTo (c.pos + 2))
    else return .ofRead (← c.readToken)

/-! ### What is left of the line -/

/-- What is unread of the line. -/
def rest (c : Cursor) : List Char := c.line.drop c.pos

/-- The scanner that has the rest of the line before it. -/
def scanner (c : Cursor) : Scanner := ⟨c.rest, c.number, c.pos, c.comment, c.lines⟩

section

variable {c c' : Cursor} {char : Char} {cs : List Char} {n : Nat} {start : Span}

theorem length_rest (c : Cursor) : c.rest.length = c.line.length - c.pos := List.length_drop

theorem lt_of_rest (h : c.rest = char :: cs) : c.pos < c.line.length := by
  have hlength := c.length_rest
  rw [h, List.length_cons] at hlength
  omega

theorem ahead?_eq (c : Cursor) (offset : Nat) : c.ahead? offset = c.rest[offset]? :=
  List.getElem?_drop.symm

theorem ahead?_one (h : c.rest = char :: cs) : c.ahead? 1 = cs.head? := by
  rw [ahead?_eq, h, List.head?_eq_getElem?]
  rfl

theorem charAt_pos (h : c.rest = char :: cs) : c.charAt c.pos = .ok char := by
  have hahead := c.ahead?_eq 0
  rw [h] at hahead
  rw [charAt, show c.line[c.pos]? = some char from hahead]

/-- The cursor so many characters further on. -/
def forward (c : Cursor) (n : Nat) : Cursor := { c with pos := c.pos + n }

theorem drop_rest (c : Cursor) (n : Nat) : c.rest.drop n = (c.forward n).rest := List.drop_drop

theorem rest_forward (taken : List Char) {more : List Char} (h : c.rest = taken ++ more) :
    (c.forward taken.length).rest = more := by
  rw [← drop_rest, h, List.drop_left]

theorem moveTo_forward (hpos : c.pos ≤ c.line.length) (hn : n ≤ c.rest.length) :
    c.moveTo (c.pos + n) = .ok (c.forward n) := by
  rw [length_rest] at hn
  exact if_pos (by omega)

theorem slice_forward {first : Nat} (hpos : c.pos ≤ c.line.length) (hfirst : first ≤ n)
    (hn : n ≤ c.rest.length) :
    c.slice (c.pos + first) (c.pos + n) = .ok ((c.rest.take n).drop first) := by
  rw [length_rest] at hn
  rw [slice, if_pos (by omega), rest, List.drop_take, List.drop_take, List.drop_drop]
  congr 2
  omega

theorem forward_zero (c : Cursor) : c.forward 0 = c := rfl

theorem forward_forward (c : Cursor) (m n : Nat) : (c.forward m).forward n = c.forward (m + n) := by
  rw [forward, forward, forward, Nat.add_assoc]

theorem pos_forward_le (hpos : c.pos ≤ c.line.length) (hn : n ≤ c.rest.length) :
    (c.forward n).pos ≤ (c.forward n).line.length := by
  rw [length_rest] at hn
  show c.pos + n ≤ c.line.length
  omega

/-! ### Reading -/

theorem readWhile_eq {σ : Type} (hpos : c.pos ≤ c.line.length) (p : Char → Bool)
    (add : σ → Char → σ) (state : σ) :
    c.readWhile p add state =
      .ok ((c.rest.takeWhile p).foldl add state, c.forward (c.rest.takeWhile p).length) := by
  induction hrest : c.rest generalizing c state with
  | nil =>
    have hahead : c.ahead? 0 = none := by rw [ahead?_eq, hrest]; rfl
    rw [readWhile, hahead]
    rfl
  | cons char cs ih =>
    have hahead : c.ahead? 0 = some char := by rw [ahead?_eq, hrest]; rfl
    have hone : 1 ≤ c.rest.length := by simp [hrest]
    have hmove := moveTo_forward hpos hone
    rw [readWhile, hahead]
    dsimp only
    by_cases hp : p char
    · rw [if_pos hp, List.takeWhile_cons_of_pos hp]
      split
      · next h =>
        cases hmove.symm.trans h
        rw [ih (pos_forward_le hpos hone) _ (rest_forward [char] hrest), forward_forward,
          List.length_cons, Nat.add_comm 1]
        rfl
      · next h => cases hmove.symm.trans h
    · rw [if_neg hp, List.takeWhile_cons_of_neg hp]
      rfl

theorem rest_forward_takeWhile (c : Cursor) (p : Char → Bool) :
    (c.forward (c.rest.takeWhile p).length).rest = c.rest.dropWhile p :=
  rest_forward _ List.takeWhile_append_dropWhile.symm

/-- A comment is skipped as by a scan of the line. -/
theorem skipComment_spec (hcomment : c.comment = some start) (hpos : c.pos ≤ c.line.length) :
    ∃ n comment, c.skipComment = .ok { c.forward n with comment } ∧ n ≤ c.rest.length ∧
      (c.rest ≠ [] → 0 < n) ∧ (∀ start ∈ comment, start ∈ c.comment) ∧
      scanLine c.number c.rest c.pos c.comment =
        scanLine c.number (c.forward n).rest (c.pos + n) comment := by
  induction hrest : c.rest generalizing c with
  | nil =>
    have hlength := c.length_rest
    rw [hrest, List.length_nil] at hlength
    refine ⟨0, c.comment, ?_, Nat.le_refl _, fun h => absurd rfl h, fun _ h => h, ?_⟩
    · rw [skipComment, if_neg (by omega)]
      rfl
    · rw [forward_zero, hrest, Nat.add_zero]
  | cons char cs ih =>
    have hone : 1 ≤ c.rest.length := by simp [hrest]
    have hmove := moveTo_forward hpos hone
    rw [skipComment, if_pos (lt_of_rest hrest), charAt_pos hrest, ahead?_one hrest, hcomment]
    dsimp only [bind, Except.bind, pure, Except.pure]
    by_cases hend : char = '*' ∧ cs.head? = some '/'
    · -- The slash is there, so that two characters can be skipped.
      rw [if_pos hend]
      obtain ⟨rfl, hslash⟩ := hend
      obtain ⟨cs, rfl⟩ := List.head?_eq_some_iff.1 hslash
      have hforward : (c.forward 2).rest = cs := rest_forward ['*', '/'] hrest
      refine ⟨2, none, ?_, by simp, fun _ => Nat.two_pos, nofun, ?_⟩
      · rw [moveTo_forward hpos (by simp [hrest])]
      · rw [hforward]
        rfl
    · rw [if_neg hend]
      split
      · next h =>
        cases hmove.symm.trans h
        have hforward : (c.forward 1).rest = cs := rest_forward [char] hrest
        obtain ⟨n, comment, hskip, hn, -, hopen, hscan⟩ :=
          ih (c := c.forward 1) hcomment (pos_forward_le hpos hone) hforward
        refine ⟨1 + n, comment, ?_, ?_, fun _ => Nat.add_pos_left Nat.one_pos n, ?_, ?_⟩
        · rw [hskip, ← forward_forward]
        · rw [List.length_cons]
          omega
        · exact fun start h => hcomment ▸ hopen start h
        · rw [scanLine_of_comment, ← forward_forward, ← Nat.add_assoc, ← hcomment]
          · exact hscan
          · rintro cs' rfl rfl
            exact hend ⟨rfl, rfl⟩
      · next h => cases hmove.symm.trans h

theorem readInteger_eq (hpos : c.pos ≤ c.line.length) :
    c.readInteger = .ok (.integer (literalValue (c.rest.takeWhile Char.isDigit)),
      c.forward (c.rest.takeWhile Char.isDigit).length) := by
  rw [readInteger, readWhile_eq hpos]
  rfl

theorem readWord_eq (hpos : c.pos ≤ c.line.length) :
    c.readWord = .ok (.ofWord (.ofList (c.rest.takeWhile isWordChar)),
      c.forward (c.rest.takeWhile isWordChar).length) := by
  have hprefix := List.takeWhile_prefix isWordChar (l := c.rest)
  have hslice : (c.forward (c.rest.takeWhile isWordChar).length).slice c.pos
      (c.forward (c.rest.takeWhile isWordChar).length).pos =
        .ok (c.rest.takeWhile isWordChar) := by
    have h := slice_forward hpos (Nat.zero_le _) hprefix.length_le
    rw [← List.prefix_iff_eq_take.1 hprefix] at h
    exact h
  rw [readWord, readWhile_eq hpos]
  dsimp only [bind, Except.bind, pure, Except.pure]
  rw [hslice]

/-- A token or a fault at the position of a cursor, as a scan of the line finds it, and the cursor
behind what has been read. -/
inductive Reads (c : Cursor) : LineScan → EStateM.Result Fault Cursor Located → Prop
  | token {token : Token} {n : Nat} {rest : List Char} : 0 < n → n ≤ c.rest.length →
    (c.forward n).rest = rest →
    Reads c (.token ⟨token, c.span⟩ rest (c.pos + n)) (.ok ⟨token, c.span⟩ (c.forward n))
  | fault {fault : Fault} {n : Nat} {rest : List Char} : n ≤ c.rest.length →
    (c.forward n).rest = rest →
    (∀ span message, fault.report = .lexical span message → span = c.span) →
    Reads c (.fault fault rest (c.pos + n)) (.error fault (c.forward n))

section findIdx?

variable {p : Char → Bool}

theorem dropWhile_of_findIdx?_eq_none (h : cs.findIdx? p = none) : cs.dropWhile (!p ·) = [] := by
  rw [List.dropWhile_eq_drop_findIdx_not]
  simp only [Bool.not_not]
  rw [List.findIdx_eq_length.2 (List.findIdx?_eq_none_iff.1 h), List.drop_length]

theorem takeWhile_of_findIdx?_eq_some (h : cs.findIdx? p = some n) :
    n < cs.length ∧ cs.takeWhile (!p ·) = cs.take n ∧
      ∃ x, cs.dropWhile (!p ·) = x :: cs.drop (n + 1) := by
  obtain ⟨hlt, hindex⟩ := List.findIdx?_eq_some_iff_findIdx_eq.1 h
  rw [List.takeWhile_eq_take_findIdx_not, List.dropWhile_eq_drop_findIdx_not]
  simp only [Bool.not_not]
  rw [hindex]
  exact ⟨hlt, rfl, cs[n], List.drop_eq_getElem_cons hlt⟩

end findIdx?

theorem reads_readString (hrest : c.rest = char :: cs) (hpos : c.pos ≤ c.line.length) :
    ∃ result, c.readString c.span = .ok result ∧
      c.Reads (match cs.dropWhile (!isQuote ·) with
        | [] => .fault (.unterminatedString c.span) [] (c.pos + 1 + cs.length)
        | _ :: rest => .token ⟨.string (.ofList (cs.takeWhile (!isQuote ·))), c.span⟩ rest
          (c.pos + (cs.takeWhile (!isQuote ·)).length + 2)) result := by
  have hlength : c.rest.length = cs.length + 1 := by rw [hrest, List.length_cons]
  have hslice {n : Nat} (hn : n ≤ cs.length) :
      c.slice (c.pos + 1) (c.pos + 1 + n) = .ok (cs.take n) := by
    rw [Nat.add_assoc, Nat.add_comm 1, slice_forward hpos (Nat.le_add_left 1 n) (by omega), hrest]
    rfl
  have hend : c.pos + 1 + cs.length = c.line.length := by
    rw [length_rest] at hlength
    omega
  -- Behind the quote, the end of the line can be a slice without characters.
  have hall := hslice (Nat.le_refl _)
  rw [hend, List.take_length] at hall
  rw [readString]
  dsimp only [bind, Except.bind, pure, Except.pure]
  rw [hall]
  dsimp only
  cases hfind : cs.findIdx? isQuote with
  | none =>
    have hmove : c.moveTo c.line.length = .ok (c.forward (cs.length + 1)) := by
      rw [← hend, Nat.add_assoc, Nat.add_comm 1]
      exact moveTo_forward hpos (Nat.le_of_eq hlength.symm)
    rw [dropWhile_of_findIdx?_eq_none hfind, hmove, Nat.add_assoc, Nat.add_comm 1]
    refine ⟨_, rfl, .fault (Nat.le_of_eq hlength.symm) ?_ ?_⟩
    · exact rest_forward (char :: cs) (hrest.trans (List.append_nil _).symm)
    · rintro span message ⟨⟩
      rfl
  | some n =>
    obtain ⟨hlt, hbefore, x, hbehind⟩ := takeWhile_of_findIdx?_eq_some hfind
    have hle : n + 2 ≤ c.rest.length := by omega
    have hmove : c.moveTo (c.pos + 1 + n + 1) = .ok (c.forward (n + 2)) := by
      rw [← moveTo_forward hpos hle]
      congr 1
      omega
    have hleft : (c.forward (n + 2)).rest = cs.drop (n + 1) := by
      rw [← drop_rest, hrest]
      rfl
    dsimp only
    rw [hslice (Nat.le_of_lt hlt), hbefore, hbehind, List.length_take_of_le (Nat.le_of_lt hlt)]
    dsimp only
    rw [hmove]
    exact ⟨_, rfl, .token (Nat.succ_pos _) hle hleft⟩

/-- A token is read as by a scan of the line. -/
theorem reads_readToken (hrest : c.rest = char :: cs) (hpos : c.pos ≤ c.line.length) :
    ∃ result, c.readToken = .ok result ∧
      c.Reads (JackLang.readToken c.number c.pos char cs) result := by
  have hone : 1 ≤ c.rest.length := by simp [hrest]
  have hwhile {p : Char → Bool} (hp : p char) :
      0 < (c.rest.takeWhile p).length ∧ (c.rest.takeWhile p).length ≤ c.rest.length := by
    refine ⟨?_, (List.takeWhile_prefix p).length_le⟩
    rw [hrest, List.takeWhile_cons_of_pos hp]
    exact Nat.succ_pos _
  rw [readToken, charAt_pos hrest, JackLang.readToken]
  dsimp only [bind, Except.bind, pure, Except.pure]
  cases Symbol.ofChar? char with
  | some symbol =>
    rw [moveTo_forward hpos hone]
    exact ⟨_, rfl, .token Nat.one_pos hone (rest_forward [char] hrest)⟩
  | none =>
    by_cases hdigit : char.isDigit
    · obtain ⟨hlt, hle⟩ := hwhile hdigit
      rw [if_pos hdigit, if_pos hdigit, readInteger_eq hpos, ← hrest]
      exact ⟨_, rfl, .token hlt hle (rest_forward_takeWhile ..)⟩
    rw [if_neg hdigit, if_neg hdigit]
    by_cases hquote : isQuote char
    · rw [if_pos hquote, if_pos hquote]
      exact reads_readString hrest hpos
    rw [if_neg hquote, if_neg hquote]
    by_cases hword : isWordStart char
    · obtain ⟨hlt, hle⟩ := hwhile (isWordChar_of_isWordStart hword)
      rw [if_pos hword, if_pos hword, readWord_eq hpos, ← hrest]
      exact ⟨_, rfl, .token hlt hle (rest_forward_takeWhile ..)⟩
    · rw [if_neg hword, if_neg hword]
      refine ⟨_, rfl, .fault (n := 0) (Nat.zero_le _) hrest ?_⟩
      rintro span message ⟨⟩
      rfl

/-! ### Scanning -/

/-- How a cursor goes on: in its line, to the next one, or over one that cannot be read. -/
inductive Step (c : Cursor) : Cursor → Prop
  | forward {n : Nat} {comment : Option Span} : 0 < n → n ≤ c.rest.length →
    (∀ start ∈ comment, start ∈ c.comment ∨ start = c.span) →
    Step c { c.forward n with comment }
  | text {chars : List Char} {lines : List Line} : c.lines = .text chars :: lines →
    Step c { c with line := chars, number := c.number + 1, pos := 0, lines }
  | unreadable {reason : String} {lines : List Line} : c.lines = .unreadable reason :: lines →
    Step c { c with lines }

/-- What a round comes to. It leads a cursor on that has the same before it, or ends with what a
scanner finds. -/
inductive Outcome (c : Cursor) : Round → Prop
  | again {c' : Cursor} : c.Step c' → c.scanner.scan = c'.scanner.scan → Outcome c (.again c')
  | ok {token? : Option Located} {c' : Cursor} : c' = c ∨ c.Step c' →
    (∀ token ∈ token?, token.span = c.span ∧ c.rest ≠ []) →
    c.scanner.scan = .ok token? c'.scanner → Outcome c (.ended (.ok token? c'))
  | error {fault : Fault} {c' : Cursor} : c' = c ∨ c.Step c' →
    (∀ span message, fault.report = .lexical span message →
      span ∈ c.comment ∨ span = c.span ∧ c.rest ≠ []) →
    c.scanner.scan = .error fault c'.scanner → Outcome c (.ended (.error fault c'))

theorem Step.size_lt (h : c.Step c') : c'.scanner.size < c.scanner.size := by
  cases h with
  | @forward n comment hn hle _ =>
    refine Nat.add_lt_add_right ?_ _
    show (c.forward n).rest.length < c.rest.length
    rw [← drop_rest, List.length_drop]
    omega
  | @text chars lines hlines =>
    show chars.length + Scanner.size.linesSize lines < _ + Scanner.size.linesSize c.lines
    rw [hlines, Scanner.size.linesSize]
    omega
  | @unreadable reason lines hlines =>
    refine Nat.add_lt_add_left ?_ _
    show Scanner.size.linesSize lines < Scanner.size.linesSize c.lines
    rw [hlines, Scanner.size.linesSize]
    omega

theorem Outcome.forward {comment : Option Span} (hn : 0 < n) (hle : n ≤ c.rest.length)
    (hopen : ∀ start ∈ comment, start ∈ c.comment ∨ start = c.span)
    (hscan : scanLine c.number c.rest c.pos c.comment =
      scanLine c.number (c.forward n).rest (c.pos + n) comment) :
    c.Outcome (.again { c.forward n with comment }) :=
  .again (.forward hn hle hopen) (Scanner.scan_of_scanLine hscan)

theorem Outcome.ofRead {scan : LineScan} {result : EStateM.Result Fault Cursor Located}
    (hcomment : c.comment = none) (hrest : c.rest ≠ [])
    (hscan : scanLine c.number c.rest c.pos c.comment = scan) (h : c.Reads scan result) :
    c.Outcome (.ofRead result) := by
  cases h with
  | @token token n rest hn hle hleft =>
    refine .ok (.inr (.forward hn hle fun _ h => .inl h)) ?_ ?_
    · rintro _ ⟨⟩
      exact ⟨rfl, hrest⟩
    · rw [Scanner.scan_of_token hscan, ← hleft, ← hcomment]
      rfl
  | @fault fault n rest hle hleft hspan =>
    refine .error ?_ (fun span message h => .inr ⟨hspan span message h, hrest⟩) ?_
    · cases n with
      | zero => exact .inl rfl
      | succ n => exact .inr (.forward (Nat.succ_pos n) hle fun _ h => .inl h)
    · rw [Scanner.scan_of_fault hscan, ← hleft, ← hcomment]
      rfl

/-- At the end of its line, a cursor goes on to the next one. -/
theorem outcome_end (hpos : c.line.length ≤ c.pos) : ∃ r, c.round = .ok r ∧ c.Outcome r := by
  have hrest : c.rest = [] := List.drop_eq_nil_of_le hpos
  have hscanner : c.scanner = ⟨[], c.number, c.pos, c.comment, c.lines⟩ := by rw [scanner, hrest]
  rw [round, if_pos hpos, nextLine]
  cases hlines : c.lines with
  | nil =>
    cases hcomment : c.comment with
    | none =>
      dsimp only
      rw [hcomment]
      refine ⟨_, rfl, .ok (.inl rfl) nofun ?_⟩
      rw [hscanner, hlines, hcomment]
      rfl
    | some start =>
      dsimp only
      rw [hcomment]
      refine ⟨_, rfl, .error (.inl rfl) ?_ ?_⟩
      · rintro span message ⟨⟩
        exact .inl hcomment
      · rw [hscanner, hlines, hcomment]
        rfl
  | cons line lines =>
    cases line with
    | text chars =>
      refine ⟨_, rfl, .again (.text hlines) ?_⟩
      rw [hscanner, hlines]
      rfl
    | unreadable reason =>
      refine ⟨_, rfl, .error (.inr (.unreadable hlines)) nofun ?_⟩
      rw [hscanner, hlines, scanner]
      show _ = EStateM.Result.error _ (Scanner.mk c.rest ..)
      rw [hrest]
      rfl

/-- A blank is skipped, a comment is opened, and what else there is begins a token. -/
theorem outcome_open (hcomment : c.comment = none) (hrest : c.rest = char :: cs) :
    ∃ r, c.round = .ok r ∧ c.Outcome r := by
  have hlt := lt_of_rest hrest
  have hpos := Nat.le_of_lt hlt
  rw [round, if_neg (Nat.not_le_of_lt hlt), hcomment, Option.isSome_none,
    if_neg Bool.false_ne_true, charAt_pos hrest, ahead?_one hrest]
  dsimp only [bind, Except.bind, pure, Except.pure]
  by_cases hblank : Text.isBlank char
  · have hone : 1 ≤ c.rest.length := by simp [hrest]
    have hforward : (c.forward 1).rest = cs := rest_forward [char] hrest
    rw [if_pos hblank, moveTo_forward hpos hone]
    refine ⟨_, rfl, .forward Nat.one_pos hone (fun _ h => .inl h) ?_⟩
    rw [hrest, hcomment, scanLine_of_isBlank hblank, hforward]
  rw [if_neg hblank]
  by_cases hline : char = '/' ∧ cs.head? = some '/'
  · rw [if_pos hline]
    obtain ⟨rfl, hslash⟩ := hline
    obtain ⟨cs, rfl⟩ := List.head?_eq_some_iff.1 hslash
    have hend : c.line.length = c.pos + (2 + cs.length) := by
      have hlength := c.length_rest
      rw [hrest, List.length_cons, List.length_cons] at hlength
      omega
    have hle : 2 + cs.length ≤ c.rest.length := by
      rw [length_rest]
      omega
    have hforward : (c.forward (2 + cs.length)).rest = [] := by
      rw [Nat.add_comm]
      exact rest_forward ('/' :: '/' :: cs) (hrest.trans (List.append_nil _).symm)
    rw [hend, moveTo_forward hpos hle]
    refine ⟨_, rfl, .forward (Nat.add_pos_left Nat.two_pos _) hle (fun _ h => .inl h) ?_⟩
    rw [hrest, hcomment, hforward, ← Nat.add_assoc]
    rfl
  rw [if_neg hline]
  by_cases hblock : char = '/' ∧ cs.head? = some '*'
  · rw [if_pos hblock]
    obtain ⟨rfl, hstar⟩ := hblock
    obtain ⟨cs, rfl⟩ := List.head?_eq_some_iff.1 hstar
    have htwo : 2 ≤ c.rest.length := by simp [hrest]
    have hforward : (c.forward 2).rest = cs := rest_forward ['/', '*'] hrest
    rw [show Cursor.moveTo _ _ = _ from
      moveTo_forward (c := { c with comment := some c.span }) hpos htwo]
    refine ⟨_, rfl, .forward Nat.two_pos htwo ?_ ?_⟩
    · rintro _ ⟨⟩
      exact .inr rfl
    · rw [hrest, hcomment, hforward]
      rfl
  rw [if_neg hblock]
  obtain ⟨result, hread, hreads⟩ := reads_readToken hrest hpos
  rw [hread]
  refine ⟨_, rfl, .ofRead hcomment (by simp [hrest]) ?_ hreads⟩
  rw [hcomment, hrest]
  refine scanLine_of_not_isBlank hblank fun hslash x hx => ⟨?_, ?_⟩
  · rintro rfl
    exact hline ⟨hslash, hx⟩
  · rintro rfl
    exact hblock ⟨hslash, hx⟩

theorem outcome_round (c : Cursor) : ∃ r, c.round = .ok r ∧ c.Outcome r := by
  by_cases hend : c.line.length ≤ c.pos
  · exact outcome_end hend
  obtain ⟨char, cs, hrest⟩ : ∃ char cs, c.rest = char :: cs :=
    List.exists_cons_of_ne_nil fun hnil => hend (List.drop_eq_nil_iff.1 hnil)
  cases hcomment : c.comment with
  | none => exact outcome_open hcomment hrest
  | some start =>
    obtain ⟨n, comment, hskip, hle, hn, hopen, hscan⟩ :=
      skipComment_spec hcomment (Nat.le_of_lt (lt_of_rest hrest))
    rw [round, if_neg hend, if_pos (by rw [hcomment]; rfl), hskip]
    exact ⟨_, rfl, .forward (hn (by simp [hrest])) hle (fun start h => .inl (hopen start h)) hscan⟩

theorem size_lt_of_round (h : c.round = .ok (.again c')) : c'.scanner.size < c.scanner.size := by
  obtain ⟨r, hround, houtcome⟩ := outcome_round c
  cases hround.symm.trans h
  cases houtcome with
  | again hstep _ => exact hstep.size_lt

end

/-- Reads the next token, or finds the end of the input. -/
def scan (c : Cursor) : Checked (EStateM.Result Fault Cursor (Option Located)) :=
  match h : c.round with
  | .ok (.again next) =>
    have := size_lt_of_round h
    next.scan
  | .ok (.ended result) => .ok result
  | .error outside => .error outside
termination_by c.scanner.size

theorem scan_of_round {c : Cursor} {r : Round} (h : c.round = .ok r) :
    c.scan = match r with
      | .again next => next.scan
      | .ended result => .ok result := by
  rw [scan]
  split
  · next hagain =>
    cases h.symm.trans hagain
    rfl
  · next hended =>
    cases h.symm.trans hended
    rfl
  · next houtside => cases h.symm.trans houtside

/-- Scanning reaches outside of no line. It takes some steps, behind which there is the same for a
scanner, and then comes to an end. -/
theorem scans (c : Cursor) : ∃ c' result, c.scan = .ok result ∧ Relation.ReflTransGen Step c c' ∧
    c.scanner.scan = c'.scanner.scan ∧ c'.Outcome (.ended result) := by
  induction hsize : c.scanner.size using Nat.strongRecOn generalizing c with
  | ind size ih =>
    obtain ⟨r, hround, houtcome⟩ := outcome_round c
    cases r with
    | ended result => exact ⟨c, result, scan_of_round hround, .refl, rfl, houtcome⟩
    | again next =>
      cases houtcome with
      | again hstep hscan =>
        obtain ⟨c', result, hresult, hsteps, hscan', houtcome⟩ :=
          ih _ (hsize ▸ hstep.size_lt) next rfl
        exact ⟨c', result, (scan_of_round hround).trans hresult, hsteps.head hstep,
          hscan.trans hscan', houtcome⟩

end Cursor
end JackLang
