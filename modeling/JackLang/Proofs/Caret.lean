import JackLang.Diagnostic
import JackLang.Proofs.Text

/-! Where the caret of a diagnostic stands. The line of the source is shown behind a margin with its
number, which takes three characters or more. The caret is set behind a margin that is one character
narrower than the narrowest of these, so it stands to the left of the column that is meant
(`Error.caret_offset`). The blanks before it are a field, so no diagnostic shows a caret in a column
past `maxWidth + 1` (`Error.diagnostic_eq_error`). -/

namespace JackLang.Error

/-! ### Margins -/

/-- What is written before the line with a number. -/
def lineMargin (line : Nat) : List Char := (marginNumber line).toList ++ [' ', '|', ' ']

/-- What is written before the caret under a column. -/
def caretMargin (column : Nat) : List Char :=
  [' ', ' ', ' ', '|', ' '] ++ List.replicate (column - 1) ' '

theorem toList_marginNumber (n : Nat) :
    (marginNumber n).toList = List.replicate (3 - n.repr.length) ' ' ++ n.repr.toList := by
  simp [marginNumber, Text.toList_pushn]

theorem length_lineMargin (line : Nat) : (lineMargin line).length = max 3 line.repr.length + 3 := by
  rw [lineMargin, toList_marginNumber, List.length_append, List.length_append,
    List.length_replicate, String.length_toList]
  simp only [List.length_cons, List.length_nil]
  omega

theorem length_caretMargin (column : Nat) : (caretMargin column).length = column - 1 + 5 := by
  rw [caretMargin, List.length_append, List.length_replicate]
  exact Nat.add_comm _ _

theorem newline_notMem_lineMargin (line : Nat) : '\n' ∉ lineMargin line := by
  intro h
  rw [lineMargin, toList_marginNumber, List.mem_append, List.mem_append] at h
  rcases h with (h | h) | h
  · cases List.eq_of_mem_replicate h
  · exact absurd (Text.isDigit_of_mem_repr h) (by decide)
  · exact absurd h (by decide)

theorem mem_caretMargin {column : Nat} {c : Char} (h : c ∈ caretMargin column) :
    c = ' ' ∨ c = '|' := by
  rw [caretMargin, List.mem_append] at h
  rcases h with h | h
  · have h : c = ' ' ∨ c = '|' ∨ c = ' ' := by simpa using h
    exact h.elim .inl Or.symm
  · exact .inl (List.eq_of_mem_replicate h)

/-- A character that comes last and nowhere before. -/
theorem getElem?_concat_iff {line : List Char} {c : Char} (h : c ∉ line) (i : Nat) :
    (line ++ [c])[i]? = some c ↔ i = line.length := by
  constructor
  · intro hi
    rw [List.getElem?_append] at hi
    split at hi
    · exact absurd (List.mem_of_getElem? hi) h
    · have hlt := (List.getElem?_eq_some_iff.1 hi).1
      simp only [List.length_cons, List.length_nil] at hlt
      omega
  · rintro rfl
    exact List.getElem?_concat_length

/-! ### The caret -/

variable {error : Error} {source : String} {fileName? : Option String} {span : Span}
  {text : List Char}

/-- The lines above the excerpt: the message, and the place in a file. -/
def heading (error : Error) (fileName : String) (span : Span) : String :=
  s!"error: {error.message}\n  --> {fileName}:{span.text}\n   |"

theorem blanks_eq_ok {width : Nat} (h : width ≤ maxWidth) :
    blanks width = .ok ("".pushn ' ' width) := if_neg (Nat.not_lt.2 h)

theorem blanks_eq_error {width : Nat} (h : maxWidth < width) : blanks width = .error ⟨width⟩ :=
  if_pos h

/-- Below its heading a diagnostic shows the line of the source and the caret. -/
theorem exists_diagnostic (hspan : error.span? = some span)
    (hline : sourceLine? source span.line = some text) (hcolumn : span.column ≤ maxWidth + 1) :
    ∃ shown, error.diagnostic (some source) fileName? = .ok shown ∧
      shown.toList = (error.heading (fileName?.getD "<input>") span).toList ++ '\n' ::
        (lineMargin span.line ++ text ++ '\n' :: (caretMargin span.column ++ ['^', '\n'])) := by
  simp only [diagnostic, hspan, Option.bind_some, hline, excerpt,
    blanks_eq_ok (Nat.sub_le_of_le_add hcolumn)]
  refine ⟨_, rfl, ?_⟩
  simp [heading, lineMargin, caretMargin, Text.toList_pushn, toString]

/-- There is no diagnostic with a caret that takes a wider field. -/
theorem diagnostic_eq_error (hspan : error.span? = some span)
    (hline : sourceLine? source span.line = some text) (hcolumn : maxWidth + 1 < span.column) :
    error.diagnostic (some source) fileName? = .error ⟨span.column - 1⟩ := by
  simp only [diagnostic, hspan, Option.bind_some, hline, excerpt,
    blanks_eq_error (Nat.lt_sub_of_add_lt hcolumn)]
  rfl

theorem newline_notMem_of_sourceLine? {line : Nat} (h : sourceLine? source line = some text) :
    '\n' ∉ text := by
  rw [sourceLine?] at h
  split at h
  · cases h
  · exact Text.newline_notMem_of_mem_splitLines (List.mem_of_getElem? h)

/-- **The caret.** The last line of a diagnostic has one caret, and the line before it is that of
the source behind its margin. The caret is set to the left of the character in the column: by one,
and by one more for every digit of the line's number behind the third. -/
theorem caret_offset (hspan : error.span? = some span)
    (hline : sourceLine? source span.line = some text) (hcolumn : span.column ≤ maxWidth + 1) :
    ∃ (shown : String) (head margin below : List Char),
      error.diagnostic (some source) fileName? = .ok shown ∧
      shown.toList = head ++ '\n' :: (margin ++ text ++ '\n' :: (below ++ ['\n'])) ∧
      '\n' ∉ margin ++ text ∧ '\n' ∉ below ∧ margin = (marginNumber span.line ++ " | ").toList ∧
      ∃ caret, (∀ i, below[i]? = some '^' ↔ i = caret) ∧
        margin.length + (span.column - 1) = caret + 1 + (span.line.repr.length - 3) := by
  obtain ⟨shown, hdiagnostic, htext⟩ := @exists_diagnostic _ _ fileName? _ _ hspan hline hcolumn
  refine ⟨shown, (error.heading (fileName?.getD "<input>") span).toList, lineMargin span.line,
    caretMargin span.column ++ ['^'], hdiagnostic, ?_, ?_, ?_, ?_,
    (caretMargin span.column).length, fun i => ?_, ?_⟩
  · rw [htext, List.append_assoc (caretMargin _)]
    rfl
  · rw [List.mem_append, not_or]
    exact ⟨newline_notMem_lineMargin _, newline_notMem_of_sourceLine? hline⟩
  · intro h
    rcases List.mem_append.1 h with h | h
    · exact absurd (mem_caretMargin h) (by decide)
    · exact absurd h (by decide)
  · rw [lineMargin, String.toList_append]
    rfl
  · apply getElem?_concat_iff
    intro h
    exact absurd (mem_caretMargin h) (by decide)
  · rw [length_lineMargin, length_caretMargin]
    omega

/-- The caret for the third character of a line is set under the second. -/
theorem caret_offset_first : ∃ (shown : String) (head margin below : List Char),
    (Error.lexical ⟨1, 3⟩ "m").diagnostic (some "a $") none = .ok shown ∧
      shown.toList = head ++ '\n' :: (margin ++ "a $".toList ++ '\n' :: (below ++ ['\n'])) ∧
      margin.length = 6 ∧ ∀ i, below[i]? = some '^' ↔ i = 7 := by
  have hspan : (Error.lexical ⟨1, 3⟩ "m").span? = some ⟨1, 3⟩ := rfl
  have hline : sourceLine? "a $" 1 = some "a $".toList := by decide
  obtain ⟨shown, head, margin, below, hdiagnostic, htext, -, -, hmargin, caret, hcaret, hoffset⟩ :=
    @caret_offset _ _ none _ _ hspan hline (by decide)
  have hlength : margin.length = 6 := by
    rw [hmargin]
    decide
  obtain rfl : caret = 7 := by
    have hdigits : (1 : Nat).repr.length = 1 := by decide
    rw [hlength] at hoffset
    change 6 + (3 - 1) = caret + 1 + ((1 : Nat).repr.length - 3) at hoffset
    omega
  exact ⟨shown, head, margin, below, hdiagnostic, htext, hlength, hcaret⟩

end JackLang.Error
