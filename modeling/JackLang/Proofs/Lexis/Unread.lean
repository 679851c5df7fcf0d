import JackLang.Proofs.Lexis.Spelling
import JackLang.Proofs.Scanning

/-! Texts before a scanner. A scanner reads lines, but what it does next is told by the text that
these lines are of (`Scanner.Before`): it goes over a blank or a comment (`Scanner.Resumes`) and
reads what is spelled as a token (`Scanner.Before.scan_of_spelled`). -/

namespace JackLang

open Text (isBlank splitLines)

/-! ### What a scanner has before it -/

namespace Scanner

/-- The text that is unread of a line and of those behind it, with the ends of the lines. The last
line need not have one. -/
inductive Unread : List Char → List Line → List Char → Prop
  | done : Unread [] [] []
  | lastFeed : Unread [] [] ['\n']
  | char {c : Char} {rest : List Char} {lines : List Line} {text : List Char} :
    c ≠ '\n' → Unread rest lines text → Unread (c :: rest) lines (c :: text)
  | feed {chars : List Char} {lines : List Line} {text : List Char} :
    Unread chars lines text → Unread [] (.text chars :: lines) ('\n' :: text)
  | ret {lines : List Line} {text : List Char} :
    Unread [] lines ('\n' :: text) → Unread [] lines ('\r' :: '\n' :: text)

section Unread

variable {rest cs : List Char} {lines : List Line} {text : List Char} {c : Char}

theorem Unread.append (h : Unread rest lines text) (hcs : '\n' ∉ cs) :
    Unread (cs ++ rest) lines (cs ++ text) := by
  induction cs with
  | nil => exact h
  | cons c cs ih =>
    rw [List.mem_cons, not_or] at hcs
    exact .char (Ne.symm hcs.1) (ih hcs.2)

theorem unread_splitLines (text : List Char) :
    Unread [] ((splitLines text).map .text) ('\n' :: text) := by
  induction text using Text.lines_induction with
  | last line hline =>
    rw [Text.splitLines_last hline]
    split
    · next hnil =>
      rw [hnil]
      exact .lastFeed
    · simpa using Unread.feed (Unread.done.append hline)
  | line first text hfirst ih =>
    rw [Text.splitLines_line hfirst, List.map_cons]
    refine .feed ?_
    rcases Text.eq_chomp_or '\r' first with h | h
    · rw [← h]
      simpa using ih.append hfirst
    · rw [h] at hfirst
      have hchomp : '\n' ∉ Text.chomp '\r' first := fun hmem => hfirst (List.mem_append_left _ hmem)
      have hret := (Unread.ret ih).append hchomp
      rw [List.append_nil, List.append_cons, ← h] at hret
      exact hret

/-- A character that ends no line is on the line. -/
theorem Unread.of_cons_of_ne (h : Unread rest lines (c :: text)) (hfeed : c ≠ '\n')
    (hret : c ≠ '\r') : ∃ rest', rest = c :: rest' ∧ Unread rest' lines text := by
  cases h with
  | char _ h => exact ⟨_, rfl, h⟩
  | lastFeed | feed => exact absurd rfl hfeed
  | ret => exact absurd rfl hret

/-- Characters of a line, the last of which is not one that ends the line. -/
theorem Unread.of_append (h : Unread rest lines (cs ++ text)) (hfeed : '\n' ∉ cs)
    (hret : cs.getLast? ≠ some '\r') : ∃ rest', rest = cs ++ rest' ∧ Unread rest' lines text := by
  induction cs generalizing rest with
  | nil => exact ⟨rest, rfl, h⟩
  | cons c cs ih =>
    rw [List.mem_cons, not_or] at hfeed
    rw [List.cons_append] at h
    generalize hall : cs ++ text = all at h
    cases h with
    | char _ h =>
      subst hall
      cases cs with
      | nil => exact ⟨_, rfl, h⟩
      | cons c' cs =>
        rw [List.getLast?_cons_cons] at hret
        obtain ⟨rest', rfl, h'⟩ := ih h hfeed.2 hret
        exact ⟨rest', rfl, h'⟩
    | lastFeed | feed => exact absurd rfl hfeed.1
    | ret =>
      cases cs with
      | nil => exact absurd rfl hret
      | cons c' cs =>
        cases hall
        exact absurd List.mem_cons_self hfeed.2

/-- The rest of a line. -/
theorem Unread.of_line (h : Unread rest lines (cs ++ text)) (hfeed : '\n' ∉ cs)
    (htext : ∀ c ∈ text.head?, c = '\n') : Unread [] lines text := by
  induction cs generalizing rest with
  | nil =>
    cases h with
    | done => exact .done
    | lastFeed => exact .lastFeed
    | char hc => exact absurd (htext _ rfl) hc
    | feed h => exact .feed h
    | ret => exact absurd (htext _ rfl) (by decide)
  | cons c cs ih =>
    rw [List.mem_cons, not_or] at hfeed
    rw [List.cons_append] at h
    generalize hall : cs ++ text = all at h
    cases h with
    | char _ h =>
      subst hall
      exact ih h hfeed.2
    | lastFeed | feed => exact absurd rfl hfeed.1
    | ret h =>
      cases cs with
      | nil =>
        cases hall
        exact h
      | cons c' cs =>
        cases hall
        exact absurd List.mem_cons_self hfeed.2

theorem Unread.exists_append (h : Unread (cs ++ rest) lines text) :
    ∃ text', text = cs ++ text' ∧ Unread rest lines text' := by
  induction cs generalizing text with
  | nil => exact ⟨text, rfl, h⟩
  | cons c cs ih =>
    cases h with
    | char _ h =>
      obtain ⟨text', rfl, h'⟩ := ih h
      exact ⟨text', rfl, h'⟩

theorem Unread.newline_notMem (h : Unread rest lines text) : '\n' ∉ rest := by
  induction h with
  | done | lastFeed | feed | ret => exact List.not_mem_nil
  | char hc _ ih => exact List.not_mem_cons_of_ne_of_not_mem (Ne.symm hc) ih

theorem Unread.mem_head? (h : Unread rest lines text) (hc : c ∈ rest.head?) : c ∈ text.head? := by
  cases h with
  | done | lastFeed | feed | ret => cases hc
  | char => exact hc

theorem Unread.endsBefore_iff {t : Token} (h : Unread rest lines text) :
    t.EndsBefore rest ↔ t.EndsBefore text := by
  have hfeed : ¬ t.continues '\n' := t.not_continues_of_isBlank (by decide)
  have hret : ¬ t.continues '\r' := t.not_continues_of_isBlank (by decide)
  cases h with
  | done | char => rfl
  | lastFeed | feed | ret => simp [Token.EndsBefore, hfeed, hret]

end Unread

variable {s s' : Scanner} {place : Span} {text : List Char} {c : Char}

/-- A scanner has a text before it that begins at a place. At the end of a line the place may be
behind a carriage return that the scanner has not seen. -/
structure Before (s : Scanner) (place : Span) (text : List Char) : Prop where
  unread : Unread s.rest s.lines text
  line : text ≠ [] → place.line = s.line
  column : s.rest ≠ [] → place.column = s.column + 1

/-- A scanner behind a character on its line. -/
def past (s : Scanner) (rest : List Char) : Scanner := { s with rest, column := s.column + 1 }

/-- The next character is on the line, or it ends the line and the scan goes on behind it. -/
theorem Before.of_cons (h : s.Before place (c :: text)) :
    (∃ rest, s.rest = c :: rest ∧ (s.past rest).Before (place.past c) text) ∨
      (c = '\n' ∨ c = '\r') ∧
        ∃ s' : Scanner, s'.comment = s.comment ∧ s'.Before (place.past c) text ∧
          s.scan = s'.scan := by
  obtain ⟨rest, line, column, comment, lines⟩ := s
  obtain ⟨hunread, hline, hcolumn⟩ := h
  replace hline := hline (List.cons_ne_nil _ _)
  cases hunread with
  | @char _ rest _ _ hc hunread =>
    refine .inl ⟨rest, rfl, hunread, fun _ => ?_, fun _ => ?_⟩
    · rw [Span.past, if_neg hc]
      exact hline
    · rw [Span.past, if_neg hc]
      exact congrArg (· + 1) (hcolumn (List.cons_ne_nil _ _))
  | lastFeed =>
    refine .inr ⟨.inl rfl, ⟨[], line, column, comment, []⟩, rfl, ⟨.done, ?_, ?_⟩, rfl⟩
    · exact fun hne => absurd rfl hne
    · exact fun hne => absurd rfl hne
  | @feed chars lines _ hunread =>
    refine .inr ⟨.inl rfl, ⟨chars, line + 1, 0, comment, lines⟩, rfl,
      ⟨hunread, fun _ => ?_, fun _ => rfl⟩, ?_⟩
    · exact congrArg (· + 1) hline
    · rw [scan, scan, scan.go, scanLine]
  | ret hunread =>
    refine .inr ⟨.inr rfl, ⟨[], line, column, comment, lines⟩, rfl,
      ⟨hunread, fun _ => hline, ?_⟩, rfl⟩
    exact fun hne => absurd rfl hne

theorem Before.of_cons_of_ne (h : s.Before place (c :: text)) (hfeed : c ≠ '\n') (hret : c ≠ '\r') :
    ∃ rest, s.rest = c :: rest ∧ (s.past rest).Before (place.past c) text := by
  obtain h | ⟨hend, -⟩ := h.of_cons
  · exact h
  · exact absurd hend (not_or.2 ⟨hfeed, hret⟩)

/-! ### Between tokens -/

/-- A scan goes on before a text, in a comment or not. -/
def Resumes (s : Scanner) (inComment : Bool) (place : Span) (text : List Char) : Prop :=
  ∃ s' : Scanner, s'.comment.isSome = inComment ∧ s'.Before place text ∧ s.scan = s'.scan

section scan

variable {rest : List Char} {column : Nat}

theorem scan_of_scanLine {comment : Option Span}
    (h : scanLine s.line s.rest s.column s.comment = scanLine s.line rest column comment) :
    s.scan = scan ⟨rest, s.line, column, comment, s.lines⟩ := by
  rw [scan, scan, scan.go, scan.go, h]

theorem scan_of_token {token : Located}
    (h : scanLine s.line s.rest s.column s.comment = .token token rest column) :
    s.scan = .ok (some token) ⟨rest, s.line, column, none, s.lines⟩ := by
  rw [scan, scan.go, h]

theorem scan_of_fault {fault : Fault}
    (h : scanLine s.line s.rest s.column s.comment = .fault fault rest column) :
    s.scan = .error fault ⟨rest, s.line, column, none, s.lines⟩ := by
  rw [scan, scan.go, h]

end scan

theorem Before.blank (h : s.Before place (c :: text)) (hopen : s.comment = none) (hc : isBlank c) :
    s.Resumes false (place.past c) text := by
  obtain ⟨rest, hrest, h'⟩ | ⟨-, s', hcomment, h', hscan⟩ := h.of_cons
  · refine ⟨s.past rest, by rw [past, hopen]; rfl, h', scan_of_scanLine ?_⟩
    rw [hrest, hopen, scanLine_of_isBlank hc]
  · exact ⟨s', by rw [hcomment, hopen]; rfl, h', hscan⟩

theorem Before.inside (h : s.Before place (c :: text)) (hopen : s.comment.isSome)
    (hc : c = '*' → text.head? ≠ some '/') : s.Resumes true (place.past c) text := by
  obtain ⟨rest, hrest, h'⟩ | ⟨-, s', hcomment, h', hscan⟩ := h.of_cons
  · refine ⟨s.past rest, hopen, h', scan_of_scanLine ?_⟩
    obtain ⟨start, hstart⟩ := Option.isSome_iff_exists.1 hopen
    rw [hrest, hstart, scanLine_of_comment]
    rintro rest' rfl rfl
    exact hc rfl (h'.unread.mem_head? rfl)
  · exact ⟨s', by rw [hcomment, hopen], h', hscan⟩

theorem Before.closes (h : s.Before place ('*' :: '/' :: text)) (hopen : s.comment.isSome) :
    s.Resumes false (['*', '/'].foldl Span.past place) text := by
  obtain ⟨_, hrest, h'⟩ := h.of_cons_of_ne (by decide) (by decide)
  obtain ⟨rest, rfl, h''⟩ := h'.of_cons_of_ne (by decide) (by decide)
  obtain ⟨start, hstart⟩ := Option.isSome_iff_exists.1 hopen
  refine ⟨⟨rest, s.line, s.column + 2, none, s.lines⟩, rfl, ⟨h''.1, h''.2, h''.3⟩,
    scan_of_scanLine ?_⟩
  rw [hrest, hstart, scanLine]

theorem Before.opens (h : s.Before place ('/' :: '*' :: text)) (hopen : s.comment = none) :
    s.Resumes true (['/', '*'].foldl Span.past place) text := by
  obtain ⟨_, hrest, h'⟩ := h.of_cons_of_ne (by decide) (by decide)
  obtain ⟨rest, rfl, h''⟩ := h'.of_cons_of_ne (by decide) (by decide)
  refine ⟨⟨rest, s.line, s.column + 2, some ⟨s.line, s.column + 1⟩, s.lines⟩, rfl,
    ⟨h''.1, h''.2, h''.3⟩, scan_of_scanLine ?_⟩
  rw [hrest, hopen, scanLine]

theorem Before.lineComment {line : List Char} (h : s.Before place ('/' :: '/' :: (line ++ text)))
    (hopen : s.comment = none) (hline : '\n' ∉ line) (htext : ∀ c ∈ text.head?, c = '\n') :
    s.Resumes false (('/' :: '/' :: line).foldl Span.past place) text := by
  obtain ⟨_, hrest, h'⟩ := h.of_cons_of_ne (by decide) (by decide)
  obtain ⟨rest, rfl, h''⟩ := h'.of_cons_of_ne (by decide) (by decide)
  have hnot : '\n' ∉ '/' :: '/' :: line := by simp [hline]
  rw [Span.foldl_past_of_notMem hnot]
  refine ⟨⟨[], s.line, s.column + 2 + rest.length, none, s.lines⟩, rfl,
    ⟨h''.unread.of_line hline htext, fun _ => h.line (List.cons_ne_nil _ _),
      fun hne => absurd rfl hne⟩, scan_of_scanLine ?_⟩
  rw [hrest, hopen, scanLine, scanLine]

/-! ### Tokens -/

/-- A spelling is read as its token. -/
theorem Before.scan_of_spelled {t : Token} {spelling : List Char}
    (h : s.Before place (spelling ++ text)) (hopen : s.comment = none)
    (hspelled : t.Spelled spelling) (hends : t.EndsBefore text) :
    ∃ s' : Scanner, s'.comment = none ∧ s'.Before (spelling.foldl Span.past place) text ∧
      s.scan = .ok (some ⟨t, place⟩) s' := by
  obtain ⟨rest, hrest, hunread⟩ := h.unread.of_append hspelled.newline_notMem hspelled.getLast?_ne
  have hends' := hunread.endsBefore_iff.2 hends
  have hcolumn := h.column (by simp [hrest, hspelled.ne_nil])
  have hline := h.line (by simp [hspelled.ne_nil])
  have hplace : place = ⟨s.line, s.column + 1⟩ := by rw [← hcolumn, ← hline]
  rw [Span.foldl_past_of_notMem hspelled.newline_notMem, hplace]
  refine ⟨⟨rest, s.line, s.column + spelling.length, none, s.lines⟩, rfl,
    ⟨hunread, fun _ => rfl, fun _ => Nat.add_right_comm _ _ _⟩, scan_of_token ?_⟩
  rw [hrest, hopen]
  cases spelling with
  | nil => exact absurd rfl hspelled.ne_nil
  | cons c cs =>
    obtain ⟨hblank, hslash⟩ := hspelled.head_cases
    rw [List.cons_append, scanLine_of_not_isBlank hblank]
    · exact readToken_of_spelled hspelled hends'
    · intro hc x hx
      obtain ⟨rfl, rfl⟩ := hslash hc
      simpa [Token.continues] using hends' x hx

/-- Where there is neither a blank nor a comment there is a token, or none can be read. -/
theorem Before.exists_spelled (h : s.Before place (c :: text)) (hopen : s.comment = none)
    (hblank : ¬ isBlank c) (hslash : c = '/' → ∀ x ∈ text.head?, x ≠ '/' ∧ x ≠ '*') :
    (∃ fault s', s.scan = .error fault s') ∨
      ∃ t spelling text', c :: text = spelling ++ text' ∧ Token.Spelled t spelling ∧
        t.EndsBefore text' := by
  have hne : c ≠ '\n' ∧ c ≠ '\r' := by
    constructor <;> rintro rfl <;> exact hblank (by decide)
  obtain ⟨rest, hrest, h'⟩ := h.of_cons_of_ne hne.1 hne.2
  have hslash' : c = '/' → ∀ x ∈ rest.head?, x ≠ '/' ∧ x ≠ '*' :=
    fun hc x hx => hslash hc x (h'.unread.mem_head? hx)
  have hscan : scanLine s.line s.rest s.column s.comment = readToken s.line s.column c rest := by
    rw [hrest, hopen, scanLine_of_not_isBlank hblank hslash']
  cases hread : readToken s.line s.column c rest with
  | fault fault rest' column' => exact .inl ⟨_, _, scan_of_fault (hscan.trans hread)⟩
  | exhausted => exact absurd hread readToken_ne_exhausted
  | token token rest' column' =>
    obtain ⟨spelling, hsplit, hspelled, hends⟩ :=
      exists_spelled_of_readToken hread h'.unread.newline_notMem hslash'
    have hunread := h.unread
    rw [hrest, hsplit] at hunread
    obtain ⟨text', htext, hunread'⟩ := hunread.exists_append
    exact .inr ⟨_, spelling, text', htext, hspelled, hunread'.endsBefore_iff.1 hends⟩

end Scanner
end JackLang
