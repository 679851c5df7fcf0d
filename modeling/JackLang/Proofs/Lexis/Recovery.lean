import JackLang.Proofs.Lexis.Progress
import JackLang.Proofs.Lexis.Requests

/-! Lexers after a fault. A request that fails changes neither the current token nor what has been
looked at, and how a lexer goes on depends on the fault only (`Lexer.recovers`): it stays before a
character that begins no token and at the end of the input in a comment, and it goes on behind a
line that ends in a string, and behind one that could not be read. -/

namespace JackLang

/-! ### Scanners with the same tokens before them -/

namespace Scanner

variable {s s' : Scanner}

/-- Scanners that scan the same, or have read to the end of their lines. What is before them does
not depend on the column in which a line has ended. -/
inductive Alike : Scanner → Scanner → Prop
  | scan {s s' : Scanner} : s.scan = s'.scan → Alike s s'
  | column {line column column' comment lines} :
    Alike ⟨[], line, column, comment, lines⟩ ⟨[], line, column', comment, lines⟩

/-- Alike scanners find the same, and are alike again. -/
theorem Alike.cases (h : s.Alike s') :
    (∃ token? t t', s.scan = .ok token? t ∧ s'.scan = .ok token? t' ∧ t.Alike t') ∨
      ∃ fault t t', s.scan = .error fault t ∧ s'.scan = .error fault t' ∧ t.Alike t' := by
  have hsame {s s' : Scanner} (h : s.scan = s'.scan) :
      (∃ token? t t', s.scan = .ok token? t ∧ s'.scan = .ok token? t' ∧ t.Alike t') ∨
        ∃ fault t t', s.scan = .error fault t ∧ s'.scan = .error fault t' ∧ t.Alike t' := by
    cases hscan : s.scan with
    | ok token? t => exact .inl ⟨token?, t, t, rfl, h ▸ hscan, .scan rfl⟩
    | error fault t => exact .inr ⟨fault, t, t, rfl, h ▸ hscan, .scan rfl⟩
  cases h with
  | scan h => exact hsame h
  | @column line column column' comment lines =>
    cases lines with
    | cons first lines =>
      cases first with
      | text chars => exact hsame rfl
      | unreadable reason => exact .inr ⟨_, _, _, rfl, rfl, .column⟩
    | nil =>
      cases comment with
      | none => exact .inl ⟨_, _, _, rfl, rfl, .column⟩
      | some start => exact .inr ⟨_, _, _, rfl, rfl, .column⟩

/-- A comment that is open at the end of the input is reported there. -/
theorem comment_eq_some_iff {line column : Nat} {comment : Option Span} {start : Span} :
    comment = some start ↔
      ∃ s, scan ⟨[], line, column, comment, []⟩ = .error (.unterminatedComment start) s := by
  cases comment with
  | none => exact ⟨nofun, nofun⟩
  | some start' =>
    constructor
    · rintro ⟨⟩
      exact ⟨_, rfl⟩
    · rintro ⟨s, h⟩
      cases h
      rfl

/-- Empty lines in front of others change their numbers only. -/
theorem scan_replicate (n line : Nat) (lines : List Line) :
    scan ⟨[], line, 0, none, List.replicate n (.text []) ++ lines⟩ =
      scan ⟨[], line + n, 0, none, lines⟩ := by
  induction n generalizing line with
  | zero => rfl
  | succ n ih =>
    rw [← Nat.add_assoc, Nat.add_right_comm, ← ih]
    rfl

end Scanner

namespace Lexer

open Line

variable {l l' : Lexer} {r : Request} {fault : Fault} {s s' : Scanner} {lines : List Line}

/-! ### One request -/

theorem serve_of_peeked {token : Located} (h : l.peeked = some token) (r : Request) :
    l.serve r = (r.answer (some token) l.current, l.commit (some token) r) := by
  by_cases hr : r = .current
  · subst hr
    rfl
  · exact serve_of_peek (peek_of_peeked h) hr

theorem serve_of_scan {token? : Option Located} (h : l.peeked = none)
    (hscan : l.scanner.scan = .ok token? s') (hr : r ≠ .current) :
    l.serve r = (r.answer token? l.current,
      commit { l with scanner := s', peeked := token? } token? r) :=
  serve_of_peek (peek_of_scan h hscan) hr

theorem serve_of_scan_fault (h : l.peeked = none) (hscan : l.scanner.scan = .error fault s')
    (hr : r ≠ .current) : l.serve r = (.fault fault, { l with scanner := s' }) :=
  serve_of_fault (peek_of_scan_fault h hscan) hr

/-- A request fails if nothing has been looked at and the scanner meets a fault. -/
theorem scan_of_serve_fault (h : l.serve r = (.fault fault, l')) :
    l.peeked = none ∧ r ≠ .current ∧ ∃ s', l.scanner.scan = .error fault s' ∧
      l' = { l with scanner := s' } := by
  have hr : r ≠ .current := by
    rintro rfl
    cases h
  obtain hpeeked | ⟨token, hpeeked⟩ := Option.eq_none_or_eq_some l.peeked
  · cases hscan : l.scanner.scan with
    | ok token? s' =>
      rw [serve_of_scan hpeeked hscan hr] at h
      cases r <;> cases h
    | error fault' s' =>
      rw [serve_of_scan_fault hpeeked hscan hr] at h
      cases h
      exact ⟨hpeeked, hr, s', rfl, rfl⟩
  · rw [serve_of_peeked hpeeked] at h
    cases r <;> cases h

/-- A request leaves the scanner as it was, or where a scan leaves it. -/
theorem scanner_serve (l : Lexer) (r : Request) : (l.serve r).2.scanner = l.scanner ∨
    (∃ token?, l.scanner.scan = .ok token? (l.serve r).2.scanner) ∨
      ∃ fault, l.scanner.scan = .error fault (l.serve r).2.scanner := by
  by_cases hr : r = .current
  · subst hr
    exact .inl rfl
  cases hpeeked : l.peeked with
  | some token =>
    refine .inl ?_
    rw [serve_of_peeked hpeeked]
    cases r <;> rfl
  | none =>
    cases hscan : l.scanner.scan with
    | ok token? s' =>
      refine .inr (.inl ⟨token?, ?_⟩)
      rw [serve_of_scan hpeeked hscan hr]
      cases r <;> rfl
    | error fault s' =>
      refine .inr (.inr ⟨fault, ?_⟩)
      rw [serve_of_scan_fault hpeeked hscan hr]

/-- A lexer has read the first of its lines, whatever has been requested. -/
theorem exists_hasRead {done : List Line} (h : l.scanner.HasRead lines done)
    (requests : List Request) : ∃ done, (l.serveAll requests).2.scanner.HasRead lines done := by
  induction requests generalizing l done with
  | nil => exact ⟨done, h⟩
  | cons r requests ih =>
    rcases l.scanner_serve r with hsame | ⟨token?, hscan⟩ | ⟨fault, hscan⟩
    · exact ih (hsame ▸ h)
    · cases token? with
      | none => exact ih (h.scan_end hscan).1
      | some token =>
        obtain ⟨done', -, h', -⟩ := h.scan_token hscan
        exact ih h'
    · obtain ⟨done', h', -⟩ := h.scan_fault hscan
      exact ih h'

/-! ### Lexers that answer alike -/

theorem commit_scanner (l : Lexer) (s : Scanner) (token? : Option Located) (r : Request) :
    commit { l with scanner := s } token? r = { commit l token? r with scanner := s } := by
  cases r <;> rfl

theorem serve_alike (h : s.Alike s') (l : Lexer) (r : Request) :
    ∃ (answer : Answer) (l' : Lexer) (t t' : Scanner), t.Alike t' ∧
      serve { l with scanner := s } r = (answer, { l' with scanner := t }) ∧
      serve { l with scanner := s' } r = (answer, { l' with scanner := t' }) := by
  by_cases hr : r = .current
  · subst hr
    exact ⟨.token l.current, l, s, s', h, rfl, rfl⟩
  obtain hpeeked | ⟨token, hpeeked⟩ := Option.eq_none_or_eq_some l.peeked
  · rcases h.cases with ⟨token?, t, t', hscan, hscan', ht⟩ | ⟨fault, t, t', hscan, hscan', ht⟩
    · refine ⟨r.answer token? l.current, commit { l with peeked := token? } token? r, t, t', ht,
        ?_, ?_⟩
      · rw [serve_of_scan (l := { l with scanner := s }) hpeeked hscan hr, ← commit_scanner]
      · rw [serve_of_scan (l := { l with scanner := s' }) hpeeked hscan' hr, ← commit_scanner]
    · refine ⟨.fault fault, l, t, t', ht, ?_, ?_⟩
      · rw [serve_of_scan_fault (l := { l with scanner := s }) hpeeked hscan hr]
      · rw [serve_of_scan_fault (l := { l with scanner := s' }) hpeeked hscan' hr]
  · refine ⟨r.answer (some token) l.current, l.commit (some token) r, s, s', h, ?_, ?_⟩
    · rw [serve_of_peeked (l := { l with scanner := s }) hpeeked, commit_scanner]
    · rw [serve_of_peeked (l := { l with scanner := s' }) hpeeked, commit_scanner]

/-- The answers of a lexer depend on what its scanner finds. -/
theorem answers_alike (h : s.Alike s') (l : Lexer) (requests : List Request) :
    (serveAll { l with scanner := s } requests).1 =
      (serveAll { l with scanner := s' } requests).1 := by
  induction requests generalizing l s s' with
  | nil => rfl
  | cons r requests ih =>
    obtain ⟨answer, l', t, t', ht, hserve, hserve'⟩ := serve_alike h l r
    rw [serveAll_cons, serveAll_cons, hserve, hserve', ih ht l']

/-! ### After a fault -/

/-- The answer of a lexer that does not get on. -/
def Request.refusal (fault : Fault) (current? : Option Located) : Request → Answer
  | .current => .token current?
  | .hasNext | .peek | .advance => .fault fault

theorem serve_of_stuck (hpeeked : l.peeked = none) (hscan : l.scanner.scan = .error fault l.scanner)
    (r : Request) : l.serve r = (r.refusal fault l.current, l) := by
  by_cases hr : r = .current
  · subst hr
    rfl
  · rw [serve_of_scan_fault hpeeked hscan hr]
    cases r with
    | current => exact absurd rfl hr
    | hasNext | peek | advance => rfl

theorem answers_of_stuck (hpeeked : l.peeked = none)
    (hscan : l.scanner.scan = .error fault l.scanner) (requests : List Request) :
    (l.serveAll requests).1 = requests.map (·.refusal fault l.current) := by
  induction requests with
  | nil => rfl
  | cons r requests ih => rw [serveAll_cons, serve_of_stuck hpeeked hscan, ih, List.map_cons]

/-- How a lexer on some lines goes on after a fault.

- Before a character that begins no token, and at the end of the input in a comment, it meets the
  fault again.
- Behind a line that ends in a string, it is a lexer on the lines after it, with their numbers.
- Behind a line that could not be read, it is the lexer that it was, on lines without that one. The
  next line has the number that was to be the line's, and a comment is open if it was at the end of
  the last line before. -/
inductive Recovers (lines : List Line) (l l' : Lexer) : Fault → Prop
  | unexpectedCharacter {span c} : HasAt lines span c →
    (∀ requests, (l'.serveAll requests).1 =
      requests.map (·.refusal (.unexpectedCharacter span c) l.current)) →
    Recovers lines l l' (.unexpectedCharacter span c)
  | unterminatedComment {start} : HasAt lines start '/' →
    (∀ requests, (l'.serveAll requests).1 =
      requests.map (·.refusal (.unterminatedComment start) l.current)) →
    Recovers lines l l' (.unterminatedComment start)
  | unterminatedString {before after read more} :
    lines = before ++ .text (read ++ '"' :: more) :: after → '"' ∉ more →
    (∀ requests, (l'.serveAll requests).1 = (serveAll { ofLines (List.replicate
      ((texts before).length + 1) (.text []) ++ after) with current := l.current } requests).1) →
    Recovers lines l l' (.unterminatedString ⟨(texts before).length + 1, read.length + 1⟩)
  | unreadable {before after reason} {read : List (List Char)} {comment : Option Span} :
    lines = before ++ .unreadable reason :: after →
    l.scanner.lines = read.map .text ++ .unreadable reason :: after →
    (∀ start, comment = some start ↔ ∃ s, ({ l.scanner with lines := read.map .text }).scan =
      .error (.unterminatedComment start) s) →
    (∀ requests, (l'.serveAll requests).1 = (serveAll { l with scanner :=
      { line := (texts before).length, comment, lines := after } } requests).1) →
    (∀ requests, (l'.serveAll requests).1 = (serveAll { l with scanner :=
      { l.scanner with lines := read.map .text ++ after } } requests).1) →
    Recovers lines l l' (.unreadable ((texts before).length + 1) reason)

/-- **Recovery.** Whatever has been requested of a lexer, a request that fails leaves the current
token and holds none that has been looked at; and the lexer goes on as the fault demands. -/
theorem recovers {requests : List Request} (hl : ((ofLines lines).serveAll requests).2 = l)
    (h : l.serve r = (.fault fault, l')) :
    l'.current = l.current ∧ l'.peeked = none ∧ Recovers lines l l' fault := by
  obtain ⟨hpeeked, -, s', hscan, rfl⟩ := scan_of_serve_fault h
  have hstart : (ofLines lines).scanner.HasRead lines [] := Scanner.hasRead_ofLines lines
  obtain ⟨done, hread⟩ := exists_hasRead hstart requests
  rw [hl] at hread
  obtain ⟨-, -, hstops⟩ := hread.scan_fault hscan
  refine ⟨rfl, hpeeked, ?_⟩
  obtain ⟨s, peeked, current⟩ := l
  obtain rfl : peeked = none := hpeeked
  cases hstops with
  | unexpectedCharacter hat hagain => exact .unexpectedCharacter hat (answers_of_stuck rfl hagain)
  | unterminatedComment hat hagain => exact .unterminatedComment hat (answers_of_stuck rfl hagain)
  | @unterminatedString before read more s' hlines hmore hrest hline hcomment =>
    obtain ⟨rest, line, column, comment, after⟩ := s'
    obtain rfl : rest = [] := hrest
    obtain rfl : comment = none := hcomment
    obtain rfl : line = (texts before).length + 1 := hline
    refine .unterminatedString hlines hmore fun requests => ?_
    have hempty := Scanner.scan_replicate ((texts before).length + 1) 0 after
    rw [Nat.zero_add] at hempty
    exact (answers_alike .column ⟨s, none, current⟩ requests).trans
      (answers_alike (.scan hempty.symm) ⟨s, none, current⟩ requests)
  | @unreadable before reason s' read hlines hahead hrest hline hreplace =>
    obtain ⟨rest, line, column, comment, after⟩ := s'
    obtain rfl : rest = [] := hrest
    obtain rfl : line = (texts before).length := hline
    have hnone := hreplace []
    rw [List.append_nil] at hnone
    have hcomment (start : Span) : comment = some start ↔ ∃ t,
        ({ s with lines := read.map .text } : Scanner).scan =
          .error (.unterminatedComment start) t := by
      rw [hnone]
      exact Scanner.comment_eq_some_iff
    refine .unreadable hlines hahead hcomment ?_ ?_
    · exact answers_alike .column ⟨s, none, current⟩
    · exact answers_alike (.scan (hreplace after).symm) ⟨s, none, current⟩

/-- A string without an end, and then a failure to read in a comment. -/
def twoFaults : List Line :=
  [.text "\"a".toList, .text "/* b".toList, .unreadable "gone", .text "*/ x".toList]

/-- The lexer on these lines that has met the first fault. -/
def afterString : Lexer := ((ofLines twoFaults).serveAll [.peek]).2

theorem recovers_twoFaults :
    (afterString.serve .advance).1 = .fault (.unreadable 3 "gone") ∧
      (afterString.serve .advance).2.peeked = none ∧
      Recovers twoFaults afterString (afterString.serve .advance).2 (.unreadable 3 "gone") ∧
      ((afterString.serve .advance).2.serveAll [.current, .advance, .hasNext]).1 =
        [.token none, .token (some ⟨.identifier "x", ⟨3, 4⟩⟩), .next false] := by
  have h : (afterString.serve .advance).1 = .fault (.unreadable 3 "gone") := by decide +kernel
  have hl : ((ofLines twoFaults).serveAll [.peek]).2 = afterString := rfl
  obtain ⟨-, hpeeked, hrecovers⟩ := recovers hl (Prod.ext h rfl)
  exact ⟨h, hpeeked, hrecovers, by decide +kernel⟩

end Lexer

end JackLang
