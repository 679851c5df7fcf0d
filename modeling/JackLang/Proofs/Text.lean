import JackLang.Text.Lines

/-! Texts and their lines. The lines of a text are told one by one (`splitLines_line`,
`splitLines_last`), and what is written on lines that end in a line feed is read back from them
(`readLines?_eq_some`). -/

namespace JackLang.Text

/-! ### Lines -/

section lines

variable {α : Type} [DecidableEq α] {feed ret : α}

/-- A line less one carriage return at its end. -/
def chomp (ret : α) (line : List α) : List α := (dropReturn ret line.reverse).reverse

theorem eq_chomp_or (ret : α) (line : List α) :
    line = chomp ret line ∨ line = chomp ret line ++ [ret] := by
  rw [← line.reverse_reverse]
  generalize line.reverse = back
  rw [chomp, List.reverse_reverse]
  cases back with
  | nil => exact .inl rfl
  | cons c back =>
    rw [dropReturn]
    split
    · next h => exact .inr (by rw [h, List.reverse_cons])
    · exact .inl rfl

theorem chomp_concat (ret : α) (line : List α) (c : α) :
    chomp ret (line ++ [c]) = if c = ret then line else line ++ [c] := by
  rw [chomp, List.reverse_append, List.reverse_singleton, List.singleton_append, dropReturn]
  split
  · exact line.reverse_reverse
  · rw [List.reverse_cons, List.reverse_reverse]

theorem chomp_prefix_line (ret : α) (line : List α) : chomp ret line <+: line := by
  rcases eq_chomp_or ret line with h | h
  · exact ⟨[], by rw [List.append_nil, ← h]⟩
  · exact ⟨[ret], h.symm⟩

theorem go_append {line : List α} (h : feed ∉ line) (text back : List α) (done : List (List α)) :
    terminatedLines.go feed ret (line ++ text) back done =
      terminatedLines.go feed ret text (line.reverse ++ back) done := by
  induction line generalizing back with
  | nil => rfl
  | cons c line ih =>
    rw [List.mem_cons, not_or, eq_comm] at h
    rw [List.cons_append, terminatedLines.go, if_neg h.1, ih h.2, List.reverse_cons,
      List.append_assoc, List.singleton_append]

theorem go_done (text back : List α) (done : List (List α)) :
    terminatedLines.go feed ret text back done =
      (done.reverse ++ (terminatedLines.go feed ret text back []).1,
        (terminatedLines.go feed ret text back []).2) := by
  induction text generalizing back done with
  | nil => simp [terminatedLines.go]
  | cons c text ih =>
    rw [terminatedLines.go, terminatedLines.go]
    split
    · rw [ih, ih _ [_]]
      simp
    · exact ih _ _

theorem terminatedLines_of_notMem {text : List α} (h : feed ∉ text) :
    terminatedLines feed ret text = ([], text) := by
  have hgo : terminatedLines.go feed ret (text ++ []) [] [] = _ := go_append h [] [] []
  rw [List.append_nil] at hgo
  rw [terminatedLines, hgo, terminatedLines.go, List.append_nil, List.reverse_reverse,
    List.reverse_nil]

theorem terminatedLines_line {line : List α} (h : feed ∉ line) (text : List α) :
    terminatedLines feed ret (line ++ feed :: text) =
      (chomp ret line :: (terminatedLines feed ret text).1, (terminatedLines feed ret text).2) := by
  rw [terminatedLines, go_append h, terminatedLines.go, if_pos rfl, go_done, List.append_nil]
  rfl

end lines

/-- A text is its last line, or a line and a text behind it. -/
theorem lines_induction {motive : List Char → Prop}
    (last : ∀ line, '\n' ∉ line → motive line)
    (line : ∀ line text, '\n' ∉ line → motive text → motive (line ++ '\n' :: text))
    (text : List Char) : motive text := by
  induction hlength : text.length using Nat.strongRecOn generalizing text with
  | ind n ih =>
    by_cases hmem : '\n' ∈ text
    · obtain ⟨first, rest, rfl, hfirst⟩ := List.eq_append_cons_of_mem hmem
      refine line first rest hfirst (ih rest.length ?_ rest rfl)
      rw [← hlength, List.length_append, List.length_cons]
      omega
    · exact last text hmem

theorem splitLines_line {line : List Char} (h : '\n' ∉ line) (text : List Char) :
    splitLines (line ++ '\n' :: text) = chomp '\r' line :: splitLines text := by
  rw [splitLines, splitLines, terminatedLines_line h]
  generalize terminatedLines '\n' '\r' text = lines
  obtain ⟨lines, _ | ⟨c, last⟩⟩ := lines <;> rfl

theorem splitLines_last {line : List Char} (h : '\n' ∉ line) :
    splitLines line = if line = [] then [] else [line] := by
  rw [splitLines, terminatedLines_of_notMem h]
  cases line <;> rfl

theorem newline_notMem_of_mem_splitLines {text line : List Char} (h : line ∈ splitLines text) :
    '\n' ∉ line := by
  induction text using lines_induction with
  | last text htext =>
    rw [splitLines_last htext] at h
    split at h
    · cases h
    · rwa [List.mem_singleton.1 h]
  | line first text hfirst ih =>
    rw [splitLines_line hfirst] at h
    rcases List.mem_cons.1 h with rfl | h
    · exact fun hmem => hfirst ((chomp_prefix_line _ _).subset hmem)
    · exact ih h

/-! ### What lines are written for -/

/-- What stands on the lines of a text, each of which ends in a line feed. -/
def readLines? {α : Type} (read : List Char → Option α) (text : String) : Option (List α) :=
  let lines := text.toList.splitOn '\n'
  match lines.getLast? with
  | some [] => lines.dropLast.mapM read
  | _ => none

theorem flatMap_eq_intercalate (lines : List (List Char)) :
    lines.flatMap (· ++ ['\n']) = ['\n'].intercalate (lines ++ [[]]) := by
  induction lines with
  | nil => rfl
  | cons line lines ih =>
    rw [List.flatMap_cons, ih]
    cases lines <;> simp [List.intercalate_cons_cons]

theorem splitOn_flatMap {lines : List (List Char)} (h : ∀ line ∈ lines, '\n' ∉ line) :
    (lines.flatMap (· ++ ['\n'])).splitOn '\n' = lines ++ [[]] := by
  rw [flatMap_eq_intercalate]
  apply List.splitOn_intercalate
  · intro line hline
    rcases List.mem_append.1 hline with hline | hline
    · exact h line hline
    · cases List.mem_singleton.1 hline
      exact List.not_mem_nil
  · exact List.append_ne_nil_of_right_ne_nil _ (List.cons_ne_nil _ _)

theorem mem_of_mem_intercalate {α : Type} {x : α} {separator : List α} {parts : List (List α)}
    (h : x ∈ separator.intercalate parts) : x ∈ separator ∨ ∃ part ∈ parts, x ∈ part := by
  induction parts with
  | nil => cases h
  | cons part parts ih =>
    cases parts with
    | nil => exact .inr ⟨part, List.mem_cons_self, by simpa using h⟩
    | cons next parts =>
      rw [List.intercalate_cons_cons, List.append_assoc, List.mem_append, List.mem_append] at h
      rcases h with h | h | h
      · exact .inr ⟨part, List.mem_cons_self, h⟩
      · exact .inl h
      · exact (ih h).imp_right fun ⟨part', hpart', hx⟩ => ⟨part', List.mem_cons_of_mem _ hpart', hx⟩

/-- What can be read off its line is read off a text of such lines. -/
theorem readLines?_eq_some {α : Type} {read : List Char → Option α} {write : α → List Char}
    {xs : List α} {text : String} (htext : text.toList = xs.flatMap (write · ++ ['\n']))
    (hnewline : ∀ x ∈ xs, '\n' ∉ write x) (hread : ∀ x ∈ xs, read (write x) = some x) :
    readLines? read text = some xs := by
  have hsplit : text.toList.splitOn '\n' = xs.map write ++ [[]] := by
    rw [htext, ← splitOn_flatMap (List.forall_mem_map.2 hnewline), List.flatMap_map]
  have hlines : (xs.map write).mapM read = some xs := by
    clear htext hnewline hsplit
    induction xs with
    | nil => rfl
    | cons x xs ih =>
      rw [List.forall_mem_cons] at hread
      rw [List.map_cons, List.mapM_cons, hread.1, ih hread.2]
      rfl
  simp only [readLines?, hsplit, List.getLast?_concat, List.dropLast_concat]
  exact hlines

/-! ### Padding -/

theorem toList_pushn (text : String) (c : Char) (n : Nat) :
    (text.pushn c n).toList = text.toList ++ List.replicate n c := by
  rw [String.pushn_eq_repeat_push]
  induction n with
  | zero => simp [Nat.repeat]
  | succ n ih => rw [Nat.repeat, String.toList_push, ih, List.append_assoc, ← List.replicate_succ']

/-! ### Numbers -/

theorem isDigit_of_mem_repr {n : Nat} {c : Char} (h : c ∈ n.repr.toList) : c.isDigit := by
  rw [Nat.toList_repr] at h
  exact Nat.isDigit_of_mem_toDigits (by decide) (by decide) h

/-- A number is the value of its digits. -/
theorem ofDigitChars_repr (n : Nat) : Nat.ofDigitChars 10 n.repr.toList 0 = n := by
  rw [Nat.toList_repr, Nat.ofDigitChars_ten_toDigits]

end JackLang.Text
