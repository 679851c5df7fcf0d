import JackLang.Lexer

/-! The tokens of a whole source, and how they end. A token shortens what a scanner has left
(`Scanner.scan_size_lt`), so a source has finitely many. -/

namespace JackLang

/-! ### What a token takes -/

theorem length_dropWhile_le {α : Type} (p : α → Bool) (cs : List α) :
    (cs.dropWhile p).length ≤ cs.length :=
  (List.dropWhile_suffix p).length_le

theorem length_dropWhile_cons_lt {α : Type} {p : α → Bool} {c : α} (h : p c) (cs : List α) :
    ((c :: cs).dropWhile p).length < (c :: cs).length := by
  rw [List.dropWhile_cons_of_pos h, List.length_cons]
  exact Nat.lt_succ_of_le (length_dropWhile_le p cs)

theorem isWordChar_of_isWordStart {c : Char} (h : isWordStart c) : isWordChar c := by
  simp only [isWordStart, isWordChar, Char.isAlphanum, Bool.or_eq_true] at h ⊢
  exact h.imp .inl id

theorem readToken_length_lt {line column column' : Nat} {c : Char} {cs rest : List Char}
    {token : Located} (h : readToken line column c cs = .token token rest column') :
    rest.length < (c :: cs).length := by
  simp only [readToken] at h
  split at h
  · cases h; simp
  split at h
  · next hd => cases h; exact length_dropWhile_cons_lt hd cs
  split at h
  · split at h
    · cases h
    · next heq =>
      cases h
      have := length_dropWhile_le (!isQuote ·) cs
      rw [heq, List.length_cons] at this
      simp only [List.length_cons]; omega
  split at h
  · next hw => cases h; exact length_dropWhile_cons_lt (isWordChar_of_isWordStart hw) cs
  · cases h

theorem scanLine_length_lt {line column column' : Nat} {comment : Option Span}
    {cs rest : List Char} {token : Located}
    (h : scanLine line cs column comment = .token token rest column') :
    rest.length < cs.length := by
  fun_induction scanLine line cs column comment with
  | case1 => cases h
  | case2 _ _ _ ih => have := ih h; simp only [List.length_cons]; omega
  | case3 _ _ _ _ _ ih => have := ih h; simp only [List.length_cons]; omega
  | case4 => cases h
  | case5 _ _ ih => have := ih h; simp only [List.length_cons]; omega
  | case6 _ _ _ _ _ _ ih => have := ih h; simp only [List.length_cons]; omega
  | case7 => exact readToken_length_lt h

namespace Scanner

/-- How many characters and lines are unread. -/
def size (s : Scanner) : Nat := s.rest.length + linesSize s.lines
where
  linesSize : List Line → Nat
    | [] => 0
    | .text chars :: lines => chars.length + 1 + linesSize lines
    | .unreadable _ :: lines => 1 + linesSize lines

theorem scan_size_lt {s s' : Scanner} {token : Located} (h : s.scan = .ok (some token) s') :
    s'.size < s.size := by
  obtain ⟨rest, line, column, comment, lines⟩ := s
  simp only [scan] at h
  fun_induction scan.go rest line column comment lines with
  | case1 _ _ _ _ _ _ _ _ heq =>
    cases h
    have := scanLine_length_lt heq
    simp only [size]; omega
  | case2 => cases h
  | case3 _ _ _ _ _ _ _ _ _ ih =>
    have := ih h
    simp only [size, size.linesSize] at this ⊢; omega
  | case4 => cases h
  | case5 => cases h
  | case6 => cases h

end Scanner

/-! ### Streams -/

/-- The tokens of a source up to its end or the first fault. -/
structure TokenStream where
  tokens : List Located
  /-- The place behind the last character read. -/
  position : Span
  /-- What keeps the tokens from going on; none at the end of the input. -/
  fault? : Option Fault
deriving Repr

namespace Scanner

/-- The tokens that a scanner has before it, behind those in `before`, which are backwards. -/
def stream (s : Scanner) (before : List Located) : TokenStream :=
  match h : s.scan with
  | .ok (some token) s' =>
    have := scan_size_lt h
    s'.stream (token :: before)
  | .ok none s' => ⟨before.reverse, s'.position, none⟩
  | .error fault s' => ⟨before.reverse, s'.position, some fault⟩
termination_by s.size

end Scanner

namespace TokenStream

def ofLines (lines : List Line) : TokenStream := Scanner.stream { lines } []

end TokenStream
end JackLang
