import JackLang.Proofs.Text
import JackLang.Proofs.TokenStream

/-! Where tokens stand. The place of a token is that of its first character: behind all that stands
before it in the text (`TokenStream.exists_behind`). -/

namespace JackLang

/-! ### Places in a text -/

namespace Span

/-- The place behind a character. -/
def past (place : Span) (c : Char) : Span :=
  if c = '\n' then ⟨place.line + 1, 1⟩ else ⟨place.line, place.column + 1⟩

theorem before_past (place : Span) (c : Char) : place.Before (place.past c) := by
  unfold past Before
  split
  · exact .inl (Nat.lt_succ_self _)
  · exact .inr ⟨rfl, Nat.lt_succ_self _⟩

theorem foldl_past_of_notMem {line : List Char} (h : '\n' ∉ line) (place : Span) :
    line.foldl past place = ⟨place.line, place.column + line.length⟩ := by
  induction line generalizing place with
  | nil => rfl
  | cons c line ih =>
    rw [List.mem_cons, not_or, eq_comm] at h
    rw [List.foldl_cons, ih h.2, past, if_neg h.1, List.length_cons, Nat.add_assoc,
      Nat.add_comm 1]

end Span

namespace Text

/-- The place behind a text. -/
def behind (text : List Char) : Span := text.foldl Span.past ⟨1, 1⟩

/-- The longer of two texts ends behind the other. -/
theorem before_behind_append (text : List Char) (c : Char) (rest : List Char) :
    (behind text).Before (behind (text ++ c :: rest)) := by
  rw [behind, behind, List.foldl_append, List.foldl_cons]
  have h := Span.before_past (text.foldl Span.past ⟨1, 1⟩) c
  generalize Span.past _ c = place at h ⊢
  induction rest generalizing place with
  | nil => exact h
  | cons c rest ih => exact ih _ (h.trans (Span.before_past place c))

/-- A character of a line that begins at the start of line `n`. -/
theorem exists_past_of_line {line chars : List Char} {j : Nat} {c : Char} (hline : '\n' ∉ line)
    (hchars : chars <+: line) (hc : chars[j]? = some c) (rest : List Char) (n : Nat) :
    ∃ before after, line ++ rest = before ++ c :: after ∧
      before.foldl Span.past ⟨n, 1⟩ = ⟨n, j + 1⟩ := by
  obtain ⟨more, rfl⟩ := hchars
  obtain ⟨hj, rfl⟩ := List.getElem?_eq_some_iff.1 hc
  refine ⟨chars.take j, chars.drop (j + 1) ++ more ++ rest, ?_, ?_⟩
  · rw [← List.cons_append, ← List.cons_append, ← List.drop_eq_getElem_cons hj,
      ← List.append_assoc, ← List.append_assoc, List.take_append_drop]
  · have htake : '\n' ∉ chars.take j :=
      fun h => hline (List.mem_append_left _ (List.mem_of_mem_take h))
    rw [Span.foldl_past_of_notMem htake, List.length_take_of_le (Nat.le_of_lt hj), Nat.add_comm]

/-- A character of a line is one of the text, at the place that the line has it. -/
theorem exists_behind_of_getElem? {text chars : List Char} {i j : Nat} {c : Char}
    (hline : (splitLines text)[i]? = some chars) (hc : chars[j]? = some c) :
    ∃ before after, text = before ++ c :: after ∧ behind before = ⟨i + 1, j + 1⟩ := by
  suffices ∀ n, ∃ before after, text = before ++ c :: after ∧
      before.foldl Span.past ⟨n, 1⟩ = ⟨i + n, j + 1⟩ from this 1
  induction text using lines_induction generalizing i with
  | last line hmem =>
    rw [splitLines_last hmem] at hline
    intro n
    split at hline
    · cases hline
    · cases i with
      | zero =>
        cases hline
        rw [Nat.zero_add]
        simpa using exists_past_of_line hmem (List.prefix_refl _) hc [] n
      | succ i => cases hline
  | line first text hmem ih =>
    rw [splitLines_line hmem] at hline
    intro n
    cases i with
    | zero =>
      cases hline
      rw [Nat.zero_add]
      exact exists_past_of_line hmem (chomp_prefix_line _ _) hc _ n
    | succ i =>
      obtain ⟨before, after, rfl, hbehind⟩ := ih hline (n + 1)
      refine ⟨first ++ '\n' :: before, after, ?_, ?_⟩
      · rw [List.append_assoc, List.cons_append]
      · rw [List.foldl_append, List.foldl_cons, Span.foldl_past_of_notMem hmem, Span.past,
          if_pos rfl, hbehind, Nat.add_right_comm, Nat.add_assoc]

/-- A text to the end of its line. -/
theorem exists_line (text : List Char) :
    ∃ line rest, text = line ++ rest ∧ '\n' ∉ line ∧ ∀ c ∈ rest.head?, c = '\n' := by
  refine ⟨text.takeWhile (· ≠ '\n'), text.dropWhile (· ≠ '\n'),
    List.takeWhile_append_dropWhile.symm, fun hmem => ?_, fun c hc => ?_⟩
  · exact absurd (List.all_eq_true.1 List.all_takeWhile _ hmem) (by decide)
  · have hnot := List.head?_dropWhile_not (· ≠ '\n') text
    rw [Option.mem_def.1 hc] at hnot
    simpa using hnot

variable {chars : List Char}

/-- Characters of the first line of a text, the last of which does not end the line. -/
theorem exists_head?_splitLines {read : List Char} (hread : '\n' ∉ read) (hne : chars ≠ [])
    (hchars : '\n' ∉ chars) (hlast : chars.getLast? ≠ some '\r') (after : List Char) :
    ∃ rest, (splitLines (read ++ (chars ++ after)))[0]? = some (read ++ (chars ++ rest)) ∧
      ∀ c ∈ rest.head?, c ∈ after.head? := by
  obtain ⟨line, rest, rfl, hline, hrest⟩ := exists_line after
  have hnot : '\n' ∉ read ++ (chars ++ line) := by simp [hread, hchars, hline]
  have hwhole : read ++ (chars ++ (line ++ rest)) = read ++ (chars ++ line) ++ rest := by
    simp only [List.append_assoc]
  have hhead : ∀ c ∈ line.head?, c ∈ (line ++ rest).head? := by
    intro c hc
    rw [List.head?_append, Option.mem_def.1 hc]
    rfl
  rw [hwhole]
  cases rest with
  | nil =>
    rw [List.append_nil, List.append_nil, splitLines_last hnot, if_neg (by simp [hne])]
    exact ⟨line, rfl, fun c hc => hc⟩
  | cons feed rest =>
    obtain rfl := hrest feed rfl
    rw [splitLines_line hnot, List.getElem?_cons_zero]
    rcases eq_chomp_or '\r' (read ++ (chars ++ line)) with h | h
    · exact ⟨line, by rw [← h], hhead⟩
    · generalize chomp '\r' (read ++ (chars ++ line)) = chomped at h ⊢
      rcases List.eq_nil_or_concat line with rfl | ⟨line, c, rfl⟩
      · -- The carriage return would be the last of the characters.
        have hret := congrArg List.getLast? h
        rw [List.append_nil, List.getLast?_append_of_ne_nil _ hne, List.getLast?_concat] at hret
        exact absurd hret hlast
      · rw [List.concat_eq_append, ← List.append_assoc, ← List.append_assoc] at h
        obtain ⟨hline, -⟩ := List.append_inj' h rfl
        refine ⟨line, by rw [← hline, List.append_assoc], fun c hc => hhead c ?_⟩
        rw [List.concat_eq_append, List.head?_append, Option.mem_def.1 hc]
        rfl

/-- Characters of a text that do not go over the end of a line are on the line of their place. -/
theorem exists_getElem?_splitLines (before : List Char) (hne : chars ≠ []) (hchars : '\n' ∉ chars)
    (hlast : chars.getLast? ≠ some '\r') (after : List Char) :
    ∃ i read rest, (splitLines (before ++ (chars ++ after)))[i]? = some (read ++ (chars ++ rest)) ∧
      behind before = ⟨i + 1, read.length + 1⟩ ∧ ∀ c ∈ rest.head?, c ∈ after.head? := by
  suffices ∀ n, ∃ i read rest,
      (splitLines (before ++ (chars ++ after)))[i]? = some (read ++ (chars ++ rest)) ∧
      before.foldl Span.past ⟨n, 1⟩ = ⟨i + n, read.length + 1⟩ ∧
        ∀ c ∈ rest.head?, c ∈ after.head? from this 1
  induction before using lines_induction with
  | last read hread =>
    intro n
    obtain ⟨rest, hline, hhead⟩ := exists_head?_splitLines hread hne hchars hlast after
    refine ⟨0, read, rest, hline, ?_, hhead⟩
    rw [Span.foldl_past_of_notMem hread, Nat.zero_add, Nat.add_comm 1]
  | line first before hfirst ih =>
    intro n
    obtain ⟨i, read, rest, hline, hplace, hhead⟩ := ih (n + 1)
    refine ⟨i + 1, read, rest, ?_, ?_, hhead⟩
    · rw [List.append_assoc, List.cons_append, splitLines_line hfirst, List.getElem?_cons_succ, hline]
    · rw [List.foldl_append, List.foldl_cons, Span.foldl_past_of_notMem hfirst, Span.past, if_pos rfl,
        hplace, Nat.add_right_comm, Nat.add_assoc]

end Text

/-! ### Tokens of a line -/

theorem Symbol.eq_of_ofChar? {c : Char} {symbol : Symbol} (h : ofChar? c = some symbol) :
    c = symbol.char := by
  have hchar := List.find?_some h
  exact (beq_iff_eq.1 hchar).symm

theorem Token.ofWord_ne_symbol (word : String) (symbol : Symbol) :
    Token.ofWord word ≠ .symbol symbol := by
  unfold ofWord
  split <;> exact nofun

theorem Token.ofWord_ne_string (word text : String) : Token.ofWord word ≠ .string text := by
  unfold ofWord
  split <;> exact nofun

section scanLine

variable {line column column' : Nat} {ch : Char} {cs rest : List Char} {token : Located}

/-- A token stands at one of some characters, which begin behind a column, and leaves the last of
them. A symbol is the character that it stands at, and a string has its characters from there. -/
def TakenFrom (line column : Nat) (cs : List Char) (token : Located) (rest : List Char)
    (column' : Nat) : Prop :=
  (∃ skipped c more, cs = skipped ++ c :: more ∧ token.span = ⟨line, column + skipped.length + 1⟩ ∧
    (∀ symbol, token.token = .symbol symbol → c = symbol.char) ∧
      ∀ text, token.token = .string text → text.toList ⊆ more) ∧
    ∃ taken, cs = taken ++ rest ∧ column' = column + taken.length

theorem TakenFrom.skip (skipped : List Char)
    (h : TakenFrom line (column + skipped.length) cs token rest column') :
    TakenFrom line column (skipped ++ cs) token rest column' := by
  obtain ⟨⟨before, c, more, rfl, hspan, htoken⟩, taken, htaken, hcolumn⟩ := h
  refine ⟨⟨skipped ++ before, c, more, (List.append_assoc ..).symm, ?_, htoken⟩,
    skipped ++ taken, ?_, ?_⟩
  · rw [hspan, List.length_append, Nat.add_assoc column]
  · rw [htaken, List.append_assoc]
  · rw [hcolumn, List.length_append, Nat.add_assoc]

theorem takenFrom_of_readToken (h : readToken line column ch cs = .token token rest column') :
    TakenFrom line column (ch :: cs) token rest column' := by
  have hspan := (readToken_spec h).1
  suffices ((∀ symbol, token.token = .symbol symbol → ch = symbol.char) ∧
      ∀ text, token.token = .string text → text.toList ⊆ cs) ∧
      ∃ taken, ch :: cs = taken ++ rest ∧ column' = column + taken.length from
    ⟨⟨[], ch, cs, rfl, hspan, this.1⟩, this.2⟩
  simp only [readToken] at h
  split at h
  · next symbol hsymbol =>
    cases h
    refine ⟨⟨?_, by rintro _ ⟨⟩⟩, [ch], rfl, rfl⟩
    rintro _ ⟨⟩
    exact Symbol.eq_of_ofChar? hsymbol
  split at h
  · cases h
    exact ⟨⟨by rintro _ ⟨⟩, by rintro _ ⟨⟩⟩, _, List.takeWhile_append_dropWhile.symm, rfl⟩
  split at h
  · split at h
    · cases h
    · next quote _ hrest =>
      cases h
      refine ⟨⟨by rintro _ ⟨⟩, ?_⟩, ch :: (cs.takeWhile (!isQuote ·) ++ [quote]), ?_, ?_⟩
      · rintro _ ⟨⟩
        rw [String.toList_ofList]
        exact (List.takeWhile_prefix _).subset
      · rw [List.cons_append, List.append_assoc, List.singleton_append, ← hrest,
          List.takeWhile_append_dropWhile]
      · rw [List.length_cons, List.length_append, List.length_singleton, Nat.add_assoc]
  split at h
  · cases h
    refine ⟨⟨fun symbol heq => ?_, fun text heq => ?_⟩, _, List.takeWhile_append_dropWhile.symm, rfl⟩
    · exact absurd heq (Token.ofWord_ne_symbol _ _)
    · exact absurd heq (Token.ofWord_ne_string _ _)
  · cases h

theorem takenFrom_of_scanLine {comment : Option Span}
    (h : scanLine line cs column comment = .token token rest column') :
    TakenFrom line column cs token rest column' := by
  fun_induction scanLine line cs column comment with
  | case1 | case4 => cases h
  | case2 cs column _ ih => exact (ih h).skip ['*', '/']
  | case3 c cs column _ _ ih => exact (ih h).skip [c]
  | case5 cs column ih => exact (ih h).skip ['/', '*']
  | case6 c cs column _ _ _ ih => exact (ih h).skip [c]
  | case7 => exact takenFrom_of_readToken h

end scanLine

/-! ### Tokens of a source -/

namespace Scanner

variable {lines : List Line} {s s' : Scanner} {token : Located}

/-- A scanner that is reading some lines. -/
structure Reading (lines : List Line) (s : Scanner) : Prop where
  unread : lines.drop s.line = s.lines
  current : s.rest ≠ [] → ∃ (i : Nat) (read : List Char), s.line = i + 1 ∧
    s.column = read.length ∧ lines[i]? = some (.text (read ++ s.rest))

/-- A token stands at a character of some lines, and is this character if it is a symbol; all
characters of a string are those of one line. -/
def StandsIn (lines : List Line) (token : Located) : Prop :=
  ∃ i j chars c, lines[i]? = some (.text chars) ∧ chars[j]? = some c ∧
    token.span = ⟨i + 1, j + 1⟩ ∧ (∀ symbol, token.token = .symbol symbol → c = symbol.char) ∧
      ∀ text, token.token = .string text → text.toList ⊆ chars

theorem Reading.scan (hs : s.Reading lines) (h : s.scan = .ok (some token) s') :
    s'.Reading lines ∧ StandsIn lines token := by
  obtain ⟨rest, line, column, comment, left⟩ := s
  simp only [Scanner.scan] at h
  fun_induction scan.go rest line column comment left with
  | case1 left rest line column comment token rest' column' hline =>
    cases h
    obtain ⟨⟨skipped, c, more, hskipped, hspan, hsymbol, hstring⟩, taken, htaken, hcolumn⟩ :=
      takenFrom_of_scanLine hline
    obtain ⟨i, read, rfl, rfl, hi⟩ := hs.current (by simp [hskipped])
    refine ⟨⟨hs.unread, fun _ => ⟨i, read ++ taken, rfl, ?_, ?_⟩⟩, i, _, _, c, hi, ?_, hspan, hsymbol,
      fun text htext char hchar => ?_⟩
    · rw [hcolumn, List.length_append]
    · rw [hi, htaken, List.append_assoc]
    · rw [hskipped, ← List.append_assoc, ← List.length_append,
        List.getElem?_append_right (Nat.le_refl _), Nat.sub_self]
      rfl
    · rw [hskipped]
      simp [hstring text htext hchar]
  | case3 rest line column comment column' comment' _ chars left ih =>
    have hdrop : lines.drop line = .text chars :: left := hs.unread
    refine ih ⟨?_, fun _ => ⟨line, [], rfl, rfl, ?_⟩⟩ h
    · rw [← List.tail_drop, hdrop]
      rfl
    · rw [← Nat.add_zero line, ← List.getElem?_drop, hdrop]
      rfl
  | case2 | case4 | case5 | case6 => cases h

theorem standsIn_of_mem_stream {before : List Located} (hs : s.Reading lines)
    (hbefore : ∀ token ∈ before, StandsIn lines token) :
    ∀ token ∈ (s.stream before).tokens, StandsIn lines token := by
  fun_induction s.stream before with
  | case1 s before token s' h _ ih =>
    obtain ⟨hs', htoken⟩ := hs.scan h
    exact ih hs' (List.forall_mem_cons.2 ⟨htoken, hbefore⟩)
  | case2 | case3 => simpa using hbefore

end Scanner

namespace TokenStream

variable {source : String} {token : Located}

theorem standsIn_of_mem (h : token ∈ (ofLines (Line.ofText source)).tokens) :
    Scanner.StandsIn (Line.ofText source) token :=
  Scanner.standsIn_of_mem_stream ⟨rfl, fun hne => absurd rfl hne⟩ (List.forall_mem_nil _) token h

/-- A token of a text stands behind what is before its first character. -/
theorem exists_behind (h : token ∈ (ofLines (Line.ofText source)).tokens) :
    ∃ before c after, source.toList = before ++ c :: after ∧ token.span = Text.behind before ∧
      ∀ symbol, token.token = .symbol symbol → c = symbol.char := by
  obtain ⟨i, j, chars, c, hi, hj, hspan, hsymbol, -⟩ := standsIn_of_mem h
  obtain ⟨chars, hi, ⟨⟩⟩ := Option.map_eq_some_iff.1 (List.getElem?_map ▸ hi)
  obtain ⟨before, after, hsource, hbehind⟩ := Text.exists_behind_of_getElem? hi hj
  exact ⟨before, c, after, hsource, hspan.trans hbehind.symm, hsymbol⟩

/-- No token of a text goes over the end of a line. -/
theorem newline_notMem (h : token ∈ (ofLines (Line.ofText source)).tokens) :
    '\n' ∉ token.token.value.toList := by
  have hlegible := legible_of_mem_ofLines h
  obtain ⟨i, j, chars, c, hi, -, -, -, hstring⟩ := standsIn_of_mem h
  obtain ⟨chars, hi, ⟨⟩⟩ := Option.map_eq_some_iff.1 (List.getElem?_map ▸ hi)
  have hline := Text.newline_notMem_of_mem_splitLines (List.mem_of_getElem? hi)
  cases htoken : token.token with
  | keyword k => cases k <;> decide
  | symbol s => cases s <;> decide
  | integer n => exact fun hmem => absurd (Text.isDigit_of_mem_repr hmem) (by decide)
  | string text => exact fun hmem => hline (hstring text htoken hmem)
  | identifier name =>
    rw [htoken] at hlegible
    exact fun hmem => absurd (hlegible.isWord.2 _ hmem) (by decide)

end TokenStream
end JackLang
