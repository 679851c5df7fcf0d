import JackLang.TokenStream
import Mathlib.Data.List.Basic

/-! What the tokens of a source are like. Each is one that `readToken` gives (`Token.Legible`), so
an identifier is a word (`Token.Legible.isWord`) and has not the text of a keyword. Tokens stand at
different places, each behind the last (`TokenStream.pairwise_ofLines`), and a text ends in no fault
but one of its characters. -/

namespace JackLang

/-- A place before another in a text. -/
def Span.Before (a b : Span) : Prop := a.line < b.line ∨ a.line = b.line ∧ a.column < b.column

theorem Span.Before.trans {a b c : Span} (h : a.Before b) (h' : b.Before c) : a.Before c := by
  unfold Before at *
  omega

theorem Span.Before.ne {a b : Span} (h : a.Before b) : a ≠ b := by
  rintro rfl
  unfold Before at h
  omega

namespace Fault

/-- A fault of the characters of a source. -/
inductive Lexical : Fault → Prop
  | unexpectedCharacter (span : Span) (c : Char) : Lexical (.unexpectedCharacter span c)
  | unterminatedString (span : Span) : Lexical (.unterminatedString span)
  | unterminatedComment (span : Span) : Lexical (.unterminatedComment span)
  | integerTooLarge (span : Span) (value : Nat) : Lexical (.integerTooLarge span value)
  | stringTooLong (span : Span) : Lexical (.stringTooLong span)
  | characterTooLarge (span : Span) (c : Char) : Lexical (.characterTooLarge span c)

end Fault

/-! ### One token -/

/-- Letters, digits and underscores, one at least. -/
def IsWord (word : String) : Prop := word ≠ "" ∧ ∀ c ∈ word.toList, isWordChar c

instance : DecidablePred IsWord := fun word =>
  @instDecidableAnd _ _ _ (List.decidableBAll _ word.toList)

/-- A token that some text begins with. -/
def Token.Legible (t : Token) : Prop :=
  ∃ line column ch cs rest column' span,
    readToken line column ch cs = .token ⟨t, span⟩ rest column'

/-- A token that is not an identifier with the text of a keyword. -/
def Token.Unreserved (t : Token) : Prop := ∀ k : Keyword, t ≠ .identifier k.text

theorem Token.unreserved_ofWord (word : String) : (Token.ofWord word).Unreserved := by
  intro k h
  rw [Token.ofWord] at h
  split at h
  · cases h
  · next hnone =>
    cases h
    rw [Keyword.ofText?_text] at hnone
    cases hnone

theorem Token.ofWord_eq_identifier {word name : String} (h : Token.ofWord word = .identifier name) :
    word = name := by
  rw [ofWord] at h
  split at h <;> cases h
  rfl

section readToken

variable {line column column' : Nat} {ch : Char} {cs rest : List Char} {token : Located}

/-- Where a token stands, that it takes a character at least, and that an identifier is a word. -/
theorem readToken_spec (h : readToken line column ch cs = .token token rest column') :
    token.span = ⟨line, column + 1⟩ ∧ column < column' ∧
      ∀ name, token.token = .identifier name →
        IsWord name ∧ Token.ofWord name = .identifier name := by
  simp only [readToken] at h
  split at h
  · cases h
    refine ⟨rfl, Nat.lt_succ_self _, ?_⟩
    rintro _ ⟨⟩
  split at h
  · next hdigit =>
    cases h
    rw [List.takeWhile_cons_of_pos hdigit, List.length_cons]
    refine ⟨rfl, by omega, ?_⟩
    rintro _ ⟨⟩
  split at h
  · split at h
    · cases h
    · cases h
      refine ⟨rfl, by omega, ?_⟩
      rintro _ ⟨⟩
  split at h
  · next hword =>
    have hchar := isWordChar_of_isWordStart hword
    cases h
    refine ⟨rfl, ?_, fun name heq => ?_⟩
    · rw [List.takeWhile_cons_of_pos hchar, List.length_cons]
      omega
    · obtain rfl := Token.ofWord_eq_identifier heq
      refine ⟨⟨?_, fun c hc => ?_⟩, heq⟩
      · rw [List.takeWhile_cons_of_pos hchar]
        simp
      · rw [String.toList_ofList] at hc
        exact List.all_eq_true.1 List.all_takeWhile c hc
  · cases h

theorem lexical_of_readToken {fault : Fault}
    (h : readToken line column ch cs = .fault fault rest column') : fault.Lexical := by
  simp only [readToken] at h
  split at h
  · cases h
  split at h
  · cases h
  split at h
  · split at h
    · cases h
      exact .unterminatedString _
    · cases h
  split at h
  · cases h
  · cases h
    exact .unexpectedCharacter _ _

end readToken

namespace Token

variable {t : Token}

theorem Legible.unreserved (h : t.Legible) : t.Unreserved := by
  obtain ⟨_, _, _, _, _, _, _, hread⟩ := h
  intro k heq
  exact unreserved_ofWord _ k ((readToken_spec hread).2.2 _ heq).2

theorem Legible.isWord {name : String} (h : (identifier name).Legible) : IsWord name := by
  obtain ⟨_, _, _, _, _, _, _, hread⟩ := h
  exact ((readToken_spec hread).2.2 _ rfl).1

theorem legible_keyword (k : Keyword) : (keyword k).Legible := by
  refine ⟨0, 0, k.text.toList.head!, k.text.toList.tail, [], k.text.length, ⟨0, 1⟩, ?_⟩
  cases k <;> rfl

theorem legible_symbol (s : Symbol) : (symbol s).Legible :=
  ⟨0, 0, s.char, [], [], 1, ⟨0, 1⟩, by rw [readToken, Symbol.ofChar?_char]⟩

theorem legible_integer : (integer 0).Legible := ⟨0, 0, '0', [], [], 1, ⟨0, 1⟩, rfl⟩

theorem legible_string : (string "").Legible := ⟨0, 0, '"', ['"'], [], 2, ⟨0, 1⟩, rfl⟩

theorem legible_identifier : (identifier "x").Legible := ⟨0, 0, 'x', [], [], 1, ⟨0, 1⟩, rfl⟩

end Token

/-! ### One line -/

section scanLine

variable {line column column' : Nat} {comment : Option Span} {c : Char} {cs rest : List Char}
  {token : Located}

theorem scanLine_of_comment {start : Span}
    (h : ∀ cs', c = '*' → cs = '/' :: cs' → False) :
    scanLine line (c :: cs) column (some start) = scanLine line cs (column + 1) (some start) := by
  rw [scanLine]
  exact h

theorem scanLine_of_isBlank (h : Text.isBlank c) :
    scanLine line (c :: cs) column none = scanLine line cs (column + 1) none := by
  have hslash : c ≠ '/' := by
    rintro rfl
    revert h
    decide
  rw [scanLine, if_pos h]
  · exact fun _ hc => absurd hc hslash
  · exact fun _ hc => absurd hc hslash

theorem scanLine_of_not_isBlank (h : ¬ Text.isBlank c)
    (hslash : c = '/' → ∀ x ∈ cs.head?, x ≠ '/' ∧ x ≠ '*') :
    scanLine line (c :: cs) column none = readToken line column c cs := by
  rw [scanLine, if_neg h]
  · rintro cs' hc rfl
    exact (hslash hc _ rfl).1 rfl
  · rintro cs' hc rfl
    exact (hslash hc _ rfl).2 rfl

theorem exists_readToken_of_scanLine
    (h : scanLine line cs column comment = .token token rest column') :
    ∃ column₁ ch cs', column ≤ column₁ ∧
      readToken line column₁ ch cs' = .token token rest column' := by
  fun_induction scanLine line cs column comment with
  | case1 | case4 => cases h
  | case2 _ _ _ ih | case3 _ _ _ _ _ ih | case5 _ _ ih | case6 _ _ _ _ _ _ ih =>
    obtain ⟨column₁, ch, cs', hle, h⟩ := ih h
    exact ⟨column₁, ch, cs', Nat.le_of_add_right_le hle, h⟩
  | case7 => exact ⟨_, _, _, Nat.le_refl _, h⟩

theorem lexical_of_scanLine {fault : Fault}
    (h : scanLine line cs column comment = .fault fault rest column') : fault.Lexical := by
  fun_induction scanLine line cs column comment with
  | case1 | case4 => cases h
  | case2 _ _ _ ih | case3 _ _ _ _ _ ih | case5 _ _ ih | case6 _ _ _ _ _ _ ih => exact ih h
  | case7 => exact lexical_of_readToken h

end scanLine

namespace Scanner

/-! ### Scanning -/

variable {s s' : Scanner} {token : Located}

/-- The characters that a scanner has read end at a place. -/
def Behind (s : Scanner) (place : Span) : Prop :=
  place.line < s.line ∨ place.line = s.line ∧ place.column ≤ s.column

theorem Behind.of_before {a b : Span} (h : s.Behind b) (h' : a.Before b) : s.Behind a := by
  unfold Behind Span.Before at *
  omega

/-- A scanner reads a token behind what it has read. -/
theorem exists_readToken_of_scan (h : s.scan = .ok (some token) s') :
    (∃ line column ch cs rest column', readToken line column ch cs = .token token rest column') ∧
      (∀ place, s.Behind place → place.Before token.span) ∧ s'.Behind token.span := by
  obtain ⟨rest, line, column, comment, lines⟩ := s
  simp only [scan] at h
  fun_induction scan.go rest line column comment lines with
  | case1 _ _ _ _ _ _ _ _ heq =>
    cases h
    obtain ⟨column₁, ch, cs, hle, hread⟩ := exists_readToken_of_scanLine heq
    obtain ⟨hspan, hlt, -⟩ := readToken_spec hread
    refine ⟨⟨_, _, _, _, _, _, hread⟩, fun place hplace => ?_, ?_⟩
    · simp only [Behind, Span.Before, hspan] at hplace ⊢
      omega
    · rw [Behind, hspan]
      exact .inr ⟨rfl, hlt⟩
  | case3 _ _ _ _ _ _ _ _ _ ih =>
    obtain ⟨hread, hbefore, hbehind⟩ := ih h
    refine ⟨hread, fun place hplace => hbefore place ?_, hbehind⟩
    simp only [Behind] at hplace ⊢
    omega
  | case2 | case4 | case5 | case6 => cases h

/-- All lines can be read. -/
def Readable (s : Scanner) : Prop := ∀ line ∈ s.lines, ∃ chars, line = .text chars

theorem readable_of_scan (hs : s.Readable) (h : s.scan = .ok (some token) s') : s'.Readable := by
  obtain ⟨rest, line, column, comment, lines⟩ := s
  simp only [scan] at h
  fun_induction scan.go rest line column comment lines with
  | case1 =>
    cases h
    exact hs
  | case3 _ _ _ _ _ _ _ _ _ ih => exact ih (List.forall_mem_of_forall_mem_cons hs) h
  | case2 | case4 | case5 | case6 => cases h

theorem lexical_of_scan {fault : Fault} (hs : s.Readable) (h : s.scan = .error fault s') :
    fault.Lexical := by
  obtain ⟨rest, line, column, comment, lines⟩ := s
  simp only [scan] at h
  fun_induction scan.go rest line column comment lines with
  | case2 _ _ _ _ _ _ _ _ heq =>
    cases h
    exact lexical_of_scanLine heq
  | case3 _ _ _ _ _ _ _ _ _ ih => exact ih (List.forall_mem_of_forall_mem_cons hs) h
  | case4 =>
    obtain ⟨chars, hline⟩ := hs _ List.mem_cons_self
    cases hline
  | case5 =>
    cases h
    exact .unterminatedComment _
  | case1 | case6 => cases h

/-! ### Streams -/

theorem legible_of_mem_stream {before : List Located}
    (hbefore : ∀ token ∈ before, token.token.Legible) :
    ∀ token ∈ (s.stream before).tokens, token.token.Legible := by
  fun_induction s.stream before with
  | case1 s before token s' h _ ih =>
    obtain ⟨⟨line, column, ch, cs, rest, column', h⟩, -⟩ := exists_readToken_of_scan h
    exact ih (List.forall_mem_cons.2 ⟨⟨line, column, ch, cs, rest, column', _, h⟩, hbefore⟩)
  | case2 | case3 => simpa using hbefore

theorem pairwise_stream {before : List Located}
    (hbefore : before.Pairwise fun a b => b.span.Before a.span)
    (hbehind : ∀ token ∈ before, s.Behind token.span) :
    (s.stream before).tokens.Pairwise fun a b => a.span.Before b.span := by
  fun_induction s.stream before with
  | case1 s before token s' h _ ih =>
    obtain ⟨-, hplace, hbehind'⟩ := exists_readToken_of_scan h
    have hbefore' (b : Located) (hb : b ∈ before) := hplace _ (hbehind b hb)
    refine ih (List.pairwise_cons.2 ⟨hbefore', hbefore⟩) (List.forall_mem_cons.2 ⟨hbehind', ?_⟩)
    exact fun b hb => hbehind'.of_before (hbefore' b hb)
  | case2 | case3 => exact List.pairwise_reverse.2 hbefore

theorem lexical_of_stream {before : List Located} {fault : Fault} (hs : s.Readable)
    (h : (s.stream before).fault? = some fault) : fault.Lexical := by
  fun_induction s.stream before with
  | case1 s before token s' hscan _ ih => exact ih (readable_of_scan hs hscan) h
  | case2 => cases h
  | case3 s before fault' s' hscan =>
    cases h
    exact lexical_of_scan hs hscan

end Scanner

namespace TokenStream

/-- The tokens of a source and how they end. -/
def ofText (source : String) : TokenStream := .ofLines (Line.ofText source)

/-- The tokens of a source, without their places. -/
def texts (s : TokenStream) : List Token := s.tokens.map (·.token)

variable {lines : List Line}

theorem legible_of_mem_ofLines {token : Located} (h : token ∈ (ofLines lines).tokens) :
    token.token.Legible :=
  Scanner.legible_of_mem_stream (List.forall_mem_nil _) token h

theorem legible_of_mem_texts {t : Token} (h : t ∈ (ofLines lines).texts) : t.Legible := by
  obtain ⟨token, htoken, rfl⟩ := List.mem_map.1 h
  exact legible_of_mem_ofLines htoken

/-- Each token stands behind those before it. -/
theorem pairwise_ofLines (lines : List Line) :
    (ofLines lines).tokens.Pairwise fun a b => a.span.Before b.span :=
  Scanner.pairwise_stream .nil (List.forall_mem_nil _)

theorem span_injective {i j : Nat} {a b : Located} (hi : (ofLines lines).tokens[i]? = some a)
    (hj : (ofLines lines).tokens[j]? = some b) (h : a.span = b.span) : i = j := by
  obtain ⟨hlti, rfl⟩ := List.getElem?_eq_some_iff.1 hi
  obtain ⟨hltj, rfl⟩ := List.getElem?_eq_some_iff.1 hj
  have hpairwise := List.pairwise_iff_getElem.1 (pairwise_ofLines lines)
  rcases Nat.lt_trichotomy i j with hlt | rfl | hlt
  · exact absurd h (hpairwise i j hlti hltj hlt).ne
  · rfl
  · exact absurd h.symm (hpairwise j i hltj hlti hlt).ne

theorem lexical_of_ofText {source : String} {fault : Fault}
    (h : (ofLines (Line.ofText source)).fault? = some fault) : fault.Lexical := by
  refine Scanner.lexical_of_stream (fun line hline => ?_) h
  obtain ⟨chars, -, rfl⟩ := List.mem_map.1 hline
  exact ⟨chars, rfl⟩

end TokenStream
end JackLang
