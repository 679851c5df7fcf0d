import JackLang.Proofs.Lexis.Cursor
import JackLang.Proofs.Lexis.Division
import JackLang.Proofs.Lexis.Progress
import JackLang.Proofs.Lexis.Requests

/-! Lexers stay in their lines. A `PositionLexer` looks ahead with a cursor where a lexer does with
a scanner. Whatever is asked of it, and however often that fails, no access is outside of the line,
the position is in the line that was read last, and no token, lexical error or open comment starts
behind it (`PositionLexer.in_bounds`). -/

namespace JackLang

open Line (texts)

/-! ### Places -/

/-- A place in a text that is not behind a position. -/
structure Span.PassedBy (place position : Span) : Prop where
  line : 1 ≤ place.line
  column : 1 ≤ place.column
  atOrBefore : place.AtOrBefore position

theorem Span.PassedBy.trans {place position position' : Span} (h : place.PassedBy position)
    (hle : position.AtOrBefore position') : place.PassedBy position' :=
  ⟨h.line, h.column, h.atOrBefore.trans hle⟩

/-- A fault is a lexical error only at a place that is not behind a position. -/
def Fault.PassedBy (fault : Fault) (position : Span) : Prop :=
  ∀ span message, fault.report = .lexical span message → span.PassedBy position

namespace Cursor

variable {lines : List Line} {c c' : Cursor}

/-- A cursor in the last of the lines that it has read. -/
structure Sound (lines : List Line) (c : Cursor) : Prop where
  pos : c.pos ≤ c.line.length
  read : ∃ done, lines = done ++ c.lines ∧ c.number = (texts done).length ∧
    c.line = (texts done).getLast?.getD []
  comment : ∀ start ∈ c.comment, start.PassedBy c.position

theorem sound_ofLines (lines : List Line) : Sound lines { lines } :=
  ⟨Nat.le_refl _, ⟨[], rfl, rfl, rfl⟩, nofun⟩

/-- No line has been read only if the current one is empty. -/
theorem Sound.line_eq_nil (h : c.Sound lines) (hnumber : c.number = 0) : c.line = [] := by
  obtain ⟨done, -, hlength, hline⟩ := h.read
  rw [hline, List.eq_nil_of_length_eq_zero (hlength.symm.trans hnumber)]
  rfl

/-- The place of a character is the place behind the last one read. -/
theorem Sound.passedBy_span (h : c.Sound lines) (hrest : c.rest ≠ []) :
    c.span.PassedBy c.position := by
  have hnumber : 1 ≤ c.number := by
    refine Nat.one_le_iff_ne_zero.2 fun hzero => hrest ?_
    rw [rest, h.line_eq_nil hzero, List.drop_nil]
  exact ⟨hnumber, Nat.le_add_left 1 c.pos, .inr ⟨(Nat.max_eq_left hnumber).symm, Nat.le_refl _⟩⟩

/-- Every step keeps to the lines and goes forward. -/
theorem Sound.step (h : c.Sound lines) (hstep : c.Step c') :
    c'.Sound lines ∧ c.position.AtOrBefore c'.position := by
  obtain ⟨done, hlines, hnumber, hline⟩ := h.read
  cases hstep with
  | @forward n comment hn hle hopen =>
    have hforward : c.position.AtOrBefore (c.forward n).position :=
      .inr ⟨rfl, Nat.succ_le_succ (Nat.le_add_right ..)⟩
    refine ⟨⟨pos_forward_le h.pos hle, ⟨done, hlines, hnumber, hline⟩, fun start hstart => ?_⟩,
      hforward⟩
    have hrest : c.rest ≠ [] := List.ne_nil_of_length_pos (Nat.lt_of_lt_of_le hn hle)
    obtain hstart | rfl := hopen start hstart
    · exact (h.comment start hstart).trans hforward
    · exact (h.passedBy_span hrest).trans hforward
  | @text chars left hleft =>
    -- Before the first line the position is where that line starts.
    have hforward : c.position.AtOrBefore ⟨max (c.number + 1) 1, 1⟩ := by
      have hpos : c.number = 0 → c.pos = 0 := fun hzero => by
        have hpos := h.pos
        rwa [h.line_eq_nil hzero, List.length_nil, Nat.le_zero] at hpos
      dsimp only [Span.AtOrBefore, position]
      omega
    refine ⟨⟨Nat.zero_le _, ⟨done ++ [.text chars], ?_, ?_, ?_⟩, fun start hstart => ?_⟩, hforward⟩
    · rw [hlines, hleft, List.append_assoc]
      rfl
    · rw [Line.texts_concat_text, List.length_append, hnumber]
      rfl
    · rw [Line.texts_concat_text, List.getLast?_concat]
      rfl
    · exact (h.comment start hstart).trans hforward
  | @unreadable reason left hleft =>
    refine ⟨⟨h.pos, ⟨done ++ [.unreadable reason], ?_, ?_, ?_⟩, h.comment⟩,
      .inr ⟨rfl, Nat.le_refl _⟩⟩
    · rw [hlines, hleft, List.append_assoc]
      rfl
    · rw [Line.texts_concat_unreadable]
      exact hnumber
    · rw [Line.texts_concat_unreadable]
      exact hline

theorem Sound.steps (h : c.Sound lines) (hsteps : Relation.ReflTransGen Step c c') :
    c'.Sound lines ∧ c.position.AtOrBefore c'.position := by
  induction hsteps with
  | refl => exact ⟨h, .inr ⟨rfl, Nat.le_refl _⟩⟩
  | tail _ hstep ih =>
    obtain ⟨h, hle⟩ := ih
    obtain ⟨h', hle'⟩ := h.step hstep
    exact ⟨h', hle.trans hle'⟩

/-- What is found by scanning is not behind the cursor that it leaves. -/
theorem Sound.scan (h : c.Sound lines) :
    (∃ token? c', c.scan = .ok (.ok token? c') ∧ c.scanner.scan = .ok token? c'.scanner ∧
        c'.Sound lines ∧ c.position.AtOrBefore c'.position ∧
        ∀ token ∈ token?, token.span.PassedBy c'.position) ∨
      ∃ fault c', c.scan = .ok (.error fault c') ∧ c.scanner.scan = .error fault c'.scanner ∧
        c'.Sound lines ∧ c.position.AtOrBefore c'.position ∧ fault.PassedBy c'.position := by
  obtain ⟨c₁, result, hscan, hsteps, hsame, houtcome⟩ := c.scans
  obtain ⟨h₁, hle₁⟩ := h.steps hsteps
  have hend {c' : Cursor} (h' : c' = c₁ ∨ c₁.Step c') :
      c'.Sound lines ∧ c₁.position.AtOrBefore c'.position := by
    obtain rfl | hstep := h'
    · exact h₁.steps .refl
    · exact h₁.step hstep
  -- What is found starts where the last round began, or in a round before it.
  cases houtcome with
  | @ok token? c' h' hspan hfound =>
    obtain ⟨h', hle⟩ := hend h'
    refine .inl ⟨token?, c', hscan, hsame.trans hfound, h', hle₁.trans hle, fun token htoken => ?_⟩
    obtain ⟨hspan, hrest⟩ := hspan token htoken
    exact hspan ▸ (h₁.passedBy_span hrest).trans hle
  | @error fault c' h' hspan hfound =>
    obtain ⟨h', hle⟩ := hend h'
    refine .inr ⟨fault, c', hscan, hsame.trans hfound, h', hle₁.trans hle, ?_⟩
    intro span message hfault
    obtain hstart | ⟨rfl, hrest⟩ := hspan span message hfault
    · exact (h₁.comment span hstart).trans hle
    · exact (h₁.passedBy_span hrest).trans hle

end Cursor

/-! ### Calls -/

namespace Lexer

/-- What can be asked of a lexer. -/
inductive Call
  | request (r : Request)
  /-- The place behind the last character read. -/
  | position
deriving DecidableEq, Repr

inductive Reply
  | answer (answer : Answer)
  | position (position : Span)
deriving DecidableEq, Repr

/-- The reply to a call, and the lexer after it. -/
def reply (l : Lexer) : Call → Reply × Lexer
  | .request r => (.answer (l.serve r).1, (l.serve r).2)
  | .position => (.position l.position, l)

/-- The replies to calls in order, and the lexer after them. -/
def replyAll (l : Lexer) : List Call → List Reply × Lexer
  | [] => ([], l)
  | call :: calls =>
    let (reply, l) := l.reply call
    let (replies, l) := l.replyAll calls
    (reply :: replies, l)

/-- No place in a reply is behind a position. -/
def Reply.PassedBy (position : Span) : Reply → Prop
  | .answer (.next _) => True
  | .answer (.token token?) => ∀ token ∈ token?, token.span.PassedBy position
  | .answer (.fault fault) => fault.PassedBy position
  | .position place => place.PassedBy position

theorem Reply.PassedBy.trans {reply : Reply} {position position' : Span}
    (h : reply.PassedBy position) (hle : position.AtOrBefore position') :
    reply.PassedBy position' := by
  match reply, h with
  | .answer (.next _), _ => trivial
  | .answer (.token _), h => exact fun token htoken => (h token htoken).trans hle
  | .answer (.fault _), h => exact fun span message hspan => (h span message hspan).trans hle
  | .position _, h => exact Span.PassedBy.trans h hle

end Lexer

/-! ### Lexers -/

/-- A cursor with the token that it has looked ahead to and the token last committed. -/
structure PositionLexer where
  cursor : Cursor
  peeked : Option Located := none
  current : Option Located := none
deriving Repr

namespace PositionLexer

open Lexer (Call Reply Request)

def ofLines (lines : List Line) : PositionLexer := { cursor := { lines } }

def position (l : PositionLexer) : Span := l.cursor.position

/-- Whether a token follows the current one. It is looked for unless it has been before. -/
def hasNext (l : PositionLexer) : Checked (EStateM.Result Fault PositionLexer Bool) := do
  if l.peeked.isNone then
    match ← l.cursor.scan with
    | .ok token? cursor => return .ok token?.isSome { l with cursor, peeked := token? }
    | .error fault cursor => return .error fault { l with cursor }
  else return .ok true l

/-- The token after the current one, which stays there. -/
def peek (l : PositionLexer) :
    Checked (EStateM.Result Fault PositionLexer (Option Located)) := do
  match ← l.hasNext with
  | .ok _ l => return .ok l.peeked l
  | .error fault l => return .error fault l

/-- Makes the next token the current one; at the end of the input there is none. -/
def advance (l : PositionLexer) :
    Checked (EStateM.Result Fault PositionLexer (Option Located)) := do
  match ← l.hasNext with
  | .ok _ l => return .ok l.peeked { l with peeked := none, current := l.peeked }
  | .error fault l => return .error fault l

/-- The reply to a call, and the lexer after it. -/
def reply (l : PositionLexer) : Call → Checked (Reply × PositionLexer)
  | .request .hasNext => do
    match ← l.hasNext with
    | .ok found l => return (.answer (.next found), l)
    | .error fault l => return (.answer (.fault fault), l)
  | .request .peek => do
    match ← l.peek with
    | .ok token? l => return (.answer (.token token?), l)
    | .error fault l => return (.answer (.fault fault), l)
  | .request .advance => do
    match ← l.advance with
    | .ok token? l => return (.answer (.token token?), l)
    | .error fault l => return (.answer (.fault fault), l)
  | .request .current => return (.answer (.token l.current), l)
  | .position => return (.position l.position, l)

/-- The replies to calls in order, and the lexer after them. -/
def replyAll (l : PositionLexer) : List Call → Checked (List Reply × PositionLexer)
  | [] => return ([], l)
  | call :: calls => do
    let (reply, l) ← l.reply call
    let (replies, l) ← l.replyAll calls
    return (reply :: replies, l)

/-- The lexer that has the rest of the line before it. -/
def lexer (l : PositionLexer) : Lexer := ⟨l.cursor.scanner, l.peeked, l.current⟩

/-- A lexer in the last of the lines that it has read, and behind its tokens. -/
structure Sound (lines : List Line) (l : PositionLexer) : Prop where
  cursor : l.cursor.Sound lines
  peeked : ∀ token ∈ l.peeked, token.span.PassedBy l.position
  current : ∀ token ∈ l.current, token.span.PassedBy l.position

variable {lines : List Line} {l l' : PositionLexer}

theorem sound_ofLines (lines : List Line) : (ofLines lines).Sound lines :=
  ⟨Cursor.sound_ofLines lines, nofun, nofun⟩

theorem Sound.go (h : l.Sound lines) {cursor : Cursor} (hcursor : cursor.Sound lines)
    (hle : l.position.AtOrBefore cursor.position) : Sound lines { l with cursor } :=
  ⟨hcursor, fun token htoken => (h.peeked token htoken).trans hle,
    fun token htoken => (h.current token htoken).trans hle⟩

/-- To look ahead keeps to the lines and goes forward, and finds what a lexer does. -/
theorem Sound.hasNext (h : l.Sound lines) :
    (∃ l', l.hasNext = .ok (.ok l'.peeked.isSome l') ∧ l.lexer.peek = .ok l'.peeked l'.lexer ∧
        l'.current = l.current ∧ l'.Sound lines ∧ l.position.AtOrBefore l'.position) ∨
      ∃ fault l', l.hasNext = .ok (.error fault l') ∧ l.lexer.peek = .error fault l'.lexer ∧
        l'.Sound lines ∧ l.position.AtOrBefore l'.position ∧ fault.PassedBy l'.position := by
  cases hpeeked : l.peeked with
  | some token =>
    refine .inl ⟨l, ?_, ?_, rfl, h, .inr ⟨rfl, Nat.le_refl _⟩⟩
    · rw [PositionLexer.hasNext, hpeeked]
      rfl
    · rw [hpeeked]
      exact Lexer.peek_of_peeked hpeeked
  | none =>
    rcases h.cursor.scan with ⟨token?, cursor, hscan, hfound, hcursor, hle, htoken⟩ |
      ⟨fault, cursor, hscan, hfound, hcursor, hle, hfault⟩
    · refine .inl ⟨{ l with cursor, peeked := token? }, ?_, ?_, rfl,
        ⟨hcursor, htoken, (h.go hcursor hle).current⟩, hle⟩
      · rw [PositionLexer.hasNext, hpeeked, hscan]
        rfl
      · exact Lexer.peek_of_scan hpeeked hfound
    · refine .inr ⟨fault, { l with cursor }, ?_, ?_, h.go hcursor hle, hle, hfault⟩
      · rw [PositionLexer.hasNext, hpeeked, hscan]
        rfl
      · exact Lexer.peek_of_scan_fault hpeeked hfound

/-- The lexer after a request for the token that it has looked ahead to. -/
def commit (l : PositionLexer) : Request → PositionLexer
  | .advance => { l with peeked := none, current := l.peeked }
  | .hasNext | .peek | .current => l

theorem lexer_commit (l : PositionLexer) (r : Request) :
    (l.commit r).lexer = l.lexer.commit l.peeked r := by
  cases r with
  | hasNext | peek | advance | current => rfl

theorem position_commit (l : PositionLexer) (r : Request) :
    (l.commit r).position = l.position := by
  cases r with
  | hasNext | peek | advance | current => rfl

theorem Sound.commit (h : l.Sound lines) (r : Request) : (l.commit r).Sound lines := by
  cases r with
  | hasNext | peek | current => exact h
  | advance => exact ⟨h.cursor, nofun, h.peeked⟩

theorem Sound.passedBy_answer (h : l.Sound lines) (r : Request) :
    (Reply.answer (r.answer l.peeked l.current)).PassedBy l.position := by
  cases r with
  | hasNext => trivial
  | peek | advance => exact h.peeked
  | current => exact h.current

section reply

variable {r : Request} {fault : Fault}

theorem reply_of_hasNext (h : l.hasNext = .ok (.ok l'.peeked.isSome l')) (hr : r ≠ .current) :
    l.reply (.request r) = .ok (.answer (r.answer l'.peeked l.current), l'.commit r) := by
  cases r with
  | current => exact absurd rfl hr
  | hasNext => rw [reply, h]; rfl
  | peek => rw [reply, peek, h]; rfl
  | advance => rw [reply, advance, h]; rfl

theorem reply_of_fault (h : l.hasNext = .ok (.error fault l')) (hr : r ≠ .current) :
    l.reply (.request r) = .ok (.answer (.fault fault), l') := by
  cases r with
  | current => exact absurd rfl hr
  | hasNext => rw [reply, h]; rfl
  | peek => rw [reply, peek, h]; rfl
  | advance => rw [reply, advance, h]; rfl

end reply

/-- Every call keeps to the lines and goes forward, and has the reply of a lexer. -/
theorem Sound.reply (h : l.Sound lines) (call : Call) :
    ∃ reply l', l.reply call = .ok (reply, l') ∧ l.lexer.reply call = (reply, l'.lexer) ∧
      l'.Sound lines ∧ l.position.AtOrBefore l'.position ∧ reply.PassedBy l'.position := by
  have hrefl : l.position.AtOrBefore l.position := .inr ⟨rfl, Nat.le_refl _⟩
  cases call with
  | position =>
    exact ⟨_, l, rfl, rfl, h, hrefl, Nat.le_max_right .., Nat.le_add_left .., hrefl⟩
  | request r =>
    by_cases hr : r = .current
    · subst hr
      exact ⟨_, l, rfl, rfl, h, hrefl, h.current⟩
    rcases h.hasNext with ⟨l', hnext, hpeek, hcurrent, h', hle⟩ |
      ⟨fault, l', hnext, hpeek, h', hle, hfault⟩
    · rw [reply_of_hasNext hnext hr, Lexer.reply, Lexer.serve_of_peek hpeek hr, ← hcurrent]
      refine ⟨_, _, rfl, ?_, h'.commit r, ?_, ?_⟩
      · rw [lexer_commit, hcurrent]
        rfl
      · rw [position_commit]
        exact hle
      · rw [position_commit]
        exact h'.passedBy_answer r
    · refine ⟨_, _, reply_of_fault hnext hr, ?_, h', hle, hfault⟩
      rw [Lexer.reply, Lexer.serve_of_fault hpeek hr]

theorem Sound.replyAll (h : l.Sound lines) (calls : List Call) :
    ∃ replies l', l.replyAll calls = .ok (replies, l') ∧
      l.lexer.replyAll calls = (replies, l'.lexer) ∧ l'.Sound lines ∧
      l.position.AtOrBefore l'.position ∧ ∀ reply ∈ replies, reply.PassedBy l'.position := by
  induction calls generalizing l with
  | nil => exact ⟨[], l, rfl, rfl, h, .inr ⟨rfl, Nat.le_refl _⟩, List.forall_mem_nil _⟩
  | cons call calls ih =>
    obtain ⟨reply, l₁, hreply, hlexer, h₁, hle₁, hpassed⟩ := h.reply call
    obtain ⟨replies, l', hreplies, hlexers, h', hle, hall⟩ := ih h₁
    refine ⟨reply :: replies, l', ?_, ?_, h', hle₁.trans hle, ?_⟩
    · rw [PositionLexer.replyAll, hreply]
      dsimp only [bind, Except.bind]
      rw [hreplies]
      rfl
    · rw [Lexer.replyAll, hlexer]
      dsimp only
      rw [hlexers]
    · exact List.forall_mem_cons.2 ⟨hpassed.trans hle, hall⟩

/-- **Bounds.** Whatever is asked of a lexer on some lines, and however often that fails, it looks
at no character outside of its line, and never moves its position behind the end of it. It has the
replies of the lexer that has the rest of the line before it. After them, the line is the last of as
many as have been read, and an open comment, the tokens and the lexical errors start at places that
are not behind the position. -/
theorem in_bounds (lines : List Line) (calls : List Call) :
    ∃ replies l, (ofLines lines).replyAll calls = .ok (replies, l) ∧
      (Lexer.ofLines lines).replyAll calls = (replies, l.lexer) ∧
      l.cursor.pos ≤ l.cursor.line.length ∧
      (∃ done, lines = done ++ l.cursor.lines ∧ l.cursor.number = (texts done).length ∧
        l.cursor.line = (texts done).getLast?.getD []) ∧
      (∀ start ∈ l.cursor.comment, start.PassedBy l.position) ∧
      (∀ token, token ∈ l.peeked ∨ token ∈ l.current → token.span.PassedBy l.position) ∧
      ∀ reply ∈ replies, reply.PassedBy l.position := by
  obtain ⟨replies, l, hreplies, hlexer, h, -, hall⟩ := (sound_ofLines lines).replyAll calls
  refine ⟨replies, l, hreplies, hlexer, h.cursor.pos, h.cursor.read, h.cursor.comment, ?_, hall⟩
  exact fun token htoken => htoken.elim (h.peeked token) (h.current token)

/-- A comment that starts where a line ends, a line that cannot be read, a string that starts where
a line ends, and a comment without an end. -/
def openers : List Line :=
  [.text "/*".toList, .unreadable "gone", .text "*/ \"".toList, .text "x /*".toList]

theorem in_bounds_openers : ∃ l, (ofLines openers).replyAll
      [.request .peek, .position, .request .advance, .request .advance, .request .hasNext,
        .position] =
      .ok ([.answer (.fault (.unreadable 2 "gone")), .position ⟨1, 3⟩,
        .answer (.fault (.unterminatedString ⟨2, 4⟩)),
        .answer (.token (some ⟨.identifier "x", ⟨3, 1⟩⟩)),
        .answer (.fault (.unterminatedComment ⟨3, 3⟩)), .position ⟨3, 5⟩], l) ∧
    l.cursor.pos = 4 ∧ l.cursor.line.length = 4 ∧ l.cursor.comment = some ⟨3, 3⟩ := by
  have hlexer : (Lexer.ofLines openers).replyAll
      [.request .peek, .position, .request .advance, .request .advance, .request .hasNext,
        .position] =
      ([.answer (.fault (.unreadable 2 "gone")), .position ⟨1, 3⟩,
        .answer (.fault (.unterminatedString ⟨2, 4⟩)),
        .answer (.token (some ⟨.identifier "x", ⟨3, 1⟩⟩)),
        .answer (.fault (.unterminatedComment ⟨3, 3⟩)), .position ⟨3, 5⟩],
      ⟨⟨[], 3, 4, some ⟨3, 3⟩, []⟩, none, some ⟨.identifier "x", ⟨3, 1⟩⟩⟩) := by
    rfl
  obtain ⟨replies, l, hreplies, hlexer', hpos, -⟩ := in_bounds openers
    [.request .peek, .position, .request .advance, .request .advance, .request .hasNext, .position]
  obtain ⟨rfl, hl⟩ := Prod.mk.inj (hlexer'.symm.trans hlexer)
  have hscanner : l.cursor.scanner = ⟨[], 3, 4, some ⟨3, 3⟩, []⟩ := congrArg Lexer.scanner hl
  have hend : l.cursor.line.length ≤ l.cursor.pos :=
    List.drop_eq_nil_iff.1 (congrArg Scanner.rest hscanner)
  have hcolumn : l.cursor.pos = 4 := congrArg Scanner.column hscanner
  exact ⟨l, hreplies, hcolumn, by omega, congrArg Scanner.comment hscanner⟩

end PositionLexer

end JackLang
