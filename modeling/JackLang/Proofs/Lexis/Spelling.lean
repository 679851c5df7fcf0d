import JackLang.Proofs.Places

/-! How tokens are spelled. A line is read as a token just if it goes on with a spelling of the
token (`Token.Spelled`) and then with nothing that would make the token longer (`Token.EndsBefore`):
see `readToken_of_spelled` and `exists_spelled_of_readToken`. -/

namespace JackLang

/-! ### Words and numbers -/

theorem Symbol.ofChar?_eq_none {c : Char} (h : ∀ s : Symbol, c ≠ s.char) : ofChar? c = none := by
  rw [ofChar?, List.find?_eq_none]
  intro s _ heq
  exact h s (beq_iff_eq.1 heq).symm

theorem ofChar?_eq_none_of_isWordChar {c : Char} (h : isWordChar c) : Symbol.ofChar? c = none := by
  refine Symbol.ofChar?_eq_none fun s => ?_
  rintro rfl
  cases s <;> exact absurd h (by decide)

theorem isWordChar_of_isDigit {c : Char} (h : c.isDigit) : isWordChar c := by
  simp [isWordChar, Char.isAlphanum, h]

theorem toNat_of_isDigit {c : Char} (h : c.isDigit) : 48 ≤ c.toNat ∧ c.toNat ≤ 57 := by
  change (decide ('0'.val ≤ c.val) && decide (c.val ≤ '9'.val)) = true at h
  rwa [Bool.and_eq_true, decide_eq_true_eq, decide_eq_true_eq, UInt32.le_iff_toNat_le,
    UInt32.le_iff_toNat_le] at h

theorem toNat_of_isAlpha {c : Char} (h : c.isAlpha) : 65 ≤ c.toNat ∧ c.toNat ≤ 122 := by
  change (decide ('A'.val ≤ c.val ∧ c.val ≤ 'Z'.val) ||
    (decide ('a'.val ≤ c.val) && decide (c.val ≤ 'z'.val))) = true at h
  rw [Bool.or_eq_true, Bool.and_eq_true, decide_eq_true_eq, decide_eq_true_eq, decide_eq_true_eq]
    at h
  simp only [UInt32.le_iff_toNat_le] at h
  obtain ⟨hA, hZ⟩ | ⟨ha, hz⟩ := h
  · exact ⟨hA, Nat.le_trans hZ (by decide)⟩
  · exact ⟨Nat.le_trans (by decide) ha, hz⟩

theorem not_isDigit_of_isWordStart {c : Char} (h : isWordStart c) : ¬ c.isDigit := by
  rw [isWordStart, Bool.or_eq_true, beq_iff_eq] at h
  obtain h | rfl := h
  · intro hdigit
    have halpha := toNat_of_isAlpha h
    have hle := toNat_of_isDigit hdigit
    omega
  · decide

theorem not_isQuote_of_isWordChar {c : Char} (h : isWordChar c) : ¬ isQuote c := by
  rw [isQuote, beq_iff_eq]
  rintro rfl
  exact absurd h (by decide)

theorem toNat_of_isWordChar {c : Char} (h : isWordChar c) : 48 ≤ c.toNat ∧ c.toNat ≤ 122 := by
  rw [isWordChar, Bool.or_eq_true, beq_iff_eq] at h
  obtain h | rfl := h
  · rw [Char.isAlphanum, Bool.or_eq_true] at h
    obtain h | h := h
    · have halpha := toNat_of_isAlpha h
      omega
    · have hdigit := toNat_of_isDigit h
      omega
  · decide

theorem not_isBlank_of_isWordChar {c : Char} (h : isWordChar c) : ¬ Text.isBlank c := by
  have hrange := toNat_of_isWordChar h
  intro hblank
  simp only [Text.isBlank, Text.blankRanges, List.any_cons, List.any_nil, Bool.or_eq_true,
    Bool.and_eq_true, decide_eq_true_eq, Bool.false_eq_true, or_false] at hblank
  omega

theorem Keyword.ofText?_eq_none {word : String} (h : ∀ k : Keyword, word ≠ k.text) :
    ofText? word = none := by
  rw [ofText?, List.find?_eq_none]
  intro k _ heq
  exact h k (beq_iff_eq.1 heq).symm

/-- A letter or an underscore, and then letters, digits and underscores. -/
def isName : List Char → Bool
  | [] => false
  | c :: cs => isWordStart c && cs.all isWordChar

theorem Keyword.isName_text (k : Keyword) : isName k.text.toList := by
  cases k <;> decide

/-- A literal is worth its value or the largest that there is. -/
theorem literalValue_eq_min (digits : List Char) :
    literalValue digits = min (Nat.ofDigitChars 10 digits 0) maxLiteral := by
  suffices ∀ value, digits.foldl
      (fun value digit => min (value * 10 + (digit.toNat - '0'.toNat)) maxLiteral)
      (min value maxLiteral) = min (Nat.ofDigitChars 10 digits value) maxLiteral from this 0
  induction digits with
  | nil => exact fun value => rfl
  | cons digit digits ih =>
    intro value
    rw [List.foldl_cons, Nat.ofDigitChars_cons, ← ih]
    congr 1
    generalize digit.toNat - '0'.toNat = d
    rw [maxLiteral]
    omega

/-! ### Tokens -/

namespace Token

/-- The spellings of a token. A number may have zeros in front, and one that is too large is read as
the largest. -/
inductive Spelled : Token → List Char → Prop
  | keyword (k : Keyword) : Spelled (.keyword k) k.text.toList
  | symbol (s : Symbol) : Spelled (.symbol s) [s.char]
  | integer {digits : List Char} : digits ≠ [] → (∀ c ∈ digits, c.isDigit) →
    Spelled (.integer (min (Nat.ofDigitChars 10 digits 0) maxLiteral)) digits
  | string {text : String} : '"' ∉ text.toList → '\n' ∉ text.toList →
    Spelled (.string text) ('"' :: (text.toList ++ ['"']))
  | identifier {name : String} : isName name.toList → (∀ k : Keyword, name ≠ k.text) →
    Spelled (.identifier name) name.toList

/-- Whether a character right behind a token makes it longer, or makes a slash begin a comment. -/
def continues : Token → Char → Bool
  | .keyword _, c | .identifier _, c => isWordChar c
  | .integer _, c => c.isDigit
  | .symbol .slash, c => c == '/' || c == '*'
  | _, _ => false

/-- A token ends where some text begins. -/
def EndsBefore (t : Token) (rest : List Char) : Prop := ∀ c ∈ rest.head?, ¬ t.continues c

variable {t : Token} {spelling : List Char}

theorem ofWord_of_ne {name : String} (h : ∀ k : Keyword, name ≠ k.text) :
    ofWord name = .identifier name := by
  rw [ofWord, Keyword.ofText?_eq_none h]

theorem ofWord_text (k : Keyword) : ofWord k.text = .keyword k := by
  rw [ofWord, Keyword.ofText?_text]

/-- A word is the spelling of one token. -/
theorem spelled_ofWord {word : List Char} (h : isName word) :
    (ofWord (.ofList word)).Spelled word := by
  by_cases hk : ∃ k : Keyword, String.ofList word = k.text
  · obtain ⟨k, hk⟩ := hk
    rw [hk, ofWord_text]
    have hspelled := Spelled.keyword k
    rwa [← hk, String.toList_ofList] at hspelled
  · rw [not_exists] at hk
    rw [ofWord_of_ne hk]
    have hspelled := Spelled.identifier (String.toList_ofList.symm ▸ h) hk
    rwa [String.toList_ofList] at hspelled

theorem continues_ofWord (word : String) (c : Char) : (ofWord word).continues c = isWordChar c := by
  rw [ofWord]
  split <;> rfl

theorem Spelled.ne_nil (h : t.Spelled spelling) : spelling ≠ [] := by
  cases h with
  | keyword k => cases k <;> decide
  | symbol => exact List.cons_ne_nil _ _
  | integer hne => exact hne
  | string => exact List.cons_ne_nil _ _
  | identifier hname =>
    intro hnil
    rw [hnil] at hname
    cases hname

theorem isWordChar_of_isName {word : List Char} (h : isName word) : ∀ c ∈ word, isWordChar c := by
  cases word with
  | nil => cases h
  | cons c cs =>
    rw [isName, Bool.and_eq_true, List.all_eq_true] at h
    exact List.forall_mem_cons.2 ⟨isWordChar_of_isWordStart h.1, h.2⟩

/-- No token goes over the end of a line. -/
theorem Spelled.newline_notMem (h : t.Spelled spelling) : '\n' ∉ spelling := by
  intro hmem
  cases h with
  | keyword k => exact absurd (isWordChar_of_isName k.isName_text _ hmem) (by decide)
  | symbol s => cases s <;> exact absurd hmem (by decide)
  | integer _ hdigits => exact absurd (hdigits _ hmem) (by decide)
  | string _ hnewline => simp [hnewline] at hmem
  | identifier hname => exact absurd (isWordChar_of_isName hname _ hmem) (by decide)

theorem Spelled.getLast?_ne (h : t.Spelled spelling) : spelling.getLast? ≠ some '\r' := by
  intro hlast
  have hmem := List.mem_of_getLast? hlast
  cases h with
  | keyword k => exact absurd (isWordChar_of_isName k.isName_text _ hmem) (by decide)
  | symbol s => cases s <;> exact absurd hmem (by decide)
  | integer _ hdigits => exact absurd (hdigits _ hmem) (by decide)
  | string => rw [← List.cons_append, List.getLast?_concat] at hlast; cases hlast
  | identifier hname => exact absurd (isWordChar_of_isName hname _ hmem) (by decide)

/-- A blank ends every token. -/
theorem not_continues_of_isBlank (t : Token) {c : Char} (h : Text.isBlank c) : ¬ t.continues c := by
  have hword : ¬ isWordChar c := fun hc => not_isBlank_of_isWordChar hc h
  intro hcontinues
  cases t with
  | keyword | identifier => exact hword hcontinues
  | integer => exact hword (isWordChar_of_isDigit hcontinues)
  | string => cases hcontinues
  | symbol s =>
    cases s with
    | slash =>
      rw [continues, Bool.or_eq_true, beq_iff_eq, beq_iff_eq] at hcontinues
      obtain rfl | rfl := hcontinues
      · exact absurd h (by decide)
      · exact absurd h (by decide)
    | _ => cases hcontinues

/-- A spelling begins with no blank, and with a slash only if it is that symbol. -/
theorem Spelled.head_cases {c : Char} {cs : List Char} (h : t.Spelled (c :: cs)) :
    ¬ Text.isBlank c ∧ (c = '/' → t = .symbol .slash ∧ cs = []) := by
  have hword (hc : isWordChar c) : ¬ Text.isBlank c ∧ (c = '/' → t = .symbol .slash ∧ cs = []) := by
    refine ⟨not_isBlank_of_isWordChar hc, ?_⟩
    rintro rfl
    exact absurd hc (by decide)
  generalize hspelling : c :: cs = spelling at h
  have hmem : c ∈ spelling := by
    rw [← hspelling]
    exact List.mem_cons_self
  cases h with
  | keyword k => exact hword (isWordChar_of_isName k.isName_text c hmem)
  | integer _ hdigits => exact hword (isWordChar_of_isDigit (hdigits c hmem))
  | identifier hname => exact hword (isWordChar_of_isName hname c hmem)
  | string =>
    cases hspelling
    exact ⟨by decide, fun hc => absurd hc (by decide)⟩
  | symbol s =>
    cases hspelling
    refine ⟨by cases s <;> decide, fun hc => ?_⟩
    cases s with
    | slash => exact ⟨rfl, rfl⟩
    | _ => exact absurd hc (by decide)

end Token

/-! ### Reading -/

section takeWhile

variable {α : Type} {p : α → Bool} {xs rest : List α}

theorem takeWhile_append_of_head? (hxs : ∀ x ∈ xs, p x) (hrest : ∀ x ∈ rest.head?, ¬ p x) :
    (xs ++ rest).takeWhile p = xs ∧ (xs ++ rest).dropWhile p = rest := by
  rw [List.takeWhile_append_of_pos hxs, List.dropWhile_append_of_pos hxs]
  cases rest with
  | nil => exact ⟨List.append_nil xs, rfl⟩
  | cons x rest =>
    rw [List.takeWhile_cons_of_neg (hrest x rfl), List.dropWhile_cons_of_neg (hrest x rfl)]
    exact ⟨List.append_nil xs, rfl⟩

theorem head?_dropWhile_not (p : α → Bool) (xs : List α) : ∀ x ∈ (xs.dropWhile p).head?, ¬ p x := by
  intro x hx
  have h := List.head?_dropWhile_not p xs
  rw [Option.mem_def.1 hx] at h
  simpa using h

end takeWhile

section readToken

variable {line column column' : Nat} {c : Char} {cs rest : List Char} {t : Token} {token : Located}

theorem readToken_word (hname : isName (c :: cs)) (hrest : ∀ x ∈ rest.head?, ¬ isWordChar x) :
    readToken line column c (cs ++ rest) =
      .token ⟨.ofWord (.ofList (c :: cs)), ⟨line, column + 1⟩⟩ rest
        (column + (c :: cs).length) := by
  have hword := Token.isWordChar_of_isName hname
  obtain ⟨htake, hdrop⟩ := takeWhile_append_of_head? hword hrest
  rw [isName, Bool.and_eq_true] at hname
  have hc := hword c List.mem_cons_self
  rw [List.cons_append] at htake hdrop
  simp only [readToken, ofChar?_eq_none_of_isWordChar hc,
    if_neg (not_isDigit_of_isWordStart hname.1), if_neg (not_isQuote_of_isWordChar hc),
    if_pos hname.1, htake, hdrop]

/-- A spelling of a token is read as the token, if nothing behind it makes it longer. -/
theorem readToken_of_spelled (h : t.Spelled (c :: cs)) (hrest : t.EndsBefore rest) :
    readToken line column c (cs ++ rest) =
      .token ⟨t, ⟨line, column + 1⟩⟩ rest (column + (c :: cs).length) := by
  generalize hspelling : c :: cs = spelling at h
  cases h with
  | keyword k =>
    have hname := k.isName_text
    rw [← hspelling] at hname ⊢
    rw [readToken_word hname hrest, hspelling, String.ofList_toList, Token.ofWord_text]
  | symbol s =>
    cases hspelling
    rw [readToken, Symbol.ofChar?_char]
    rfl
  | integer _ hdigits =>
    subst hspelling
    have hc := hdigits c List.mem_cons_self
    obtain ⟨htake, hdrop⟩ := takeWhile_append_of_head? hdigits hrest
    rw [List.cons_append] at htake hdrop
    simp only [readToken, ofChar?_eq_none_of_isWordChar (isWordChar_of_isDigit hc), if_pos hc,
      htake, hdrop, literalValue_eq_min]
  | @string text hquote _ =>
    cases hspelling
    have htext : ∀ x ∈ text.toList, !isQuote x := by
      intro x hx
      rw [Bool.not_eq_true', isQuote, beq_eq_false_iff_ne]
      rintro rfl
      exact hquote hx
    have hclosed : ∀ x ∈ ('"' :: rest).head?, ¬ (!isQuote x) = true := by simp [isQuote]
    obtain ⟨htake, hdrop⟩ := takeWhile_append_of_head? htext hclosed
    have hsymbol : Symbol.ofChar? '"' = none := by decide
    have hdigit : ¬ '"'.isDigit := by decide
    have hisQuote : isQuote '"' := by decide
    rw [List.append_assoc, List.singleton_append]
    simp only [readToken, hsymbol, if_neg hdigit, if_pos hisQuote, htake, hdrop,
      String.ofList_toList, List.length_cons, List.length_append, List.length_nil]
    rfl
  | @identifier name hname hkeyword =>
    rw [← hspelling] at hname ⊢
    rw [readToken_word hname hrest, hspelling, String.ofList_toList, Token.ofWord_of_ne hkeyword]

/-- What is read as a token is a spelling of it, and nothing behind it makes it longer. -/
theorem exists_spelled_of_readToken
    (h : readToken line column c cs = .token token rest column') (hline : '\n' ∉ cs)
    (hslash : c = '/' → ∀ x ∈ cs.head?, x ≠ '/' ∧ x ≠ '*') :
    ∃ spelling, c :: cs = spelling ++ rest ∧ token.token.Spelled spelling ∧
      token.token.EndsBefore rest := by
  simp only [readToken] at h
  split at h
  · next s hs =>
    cases h
    obtain rfl := Symbol.eq_of_ofChar? hs
    refine ⟨[s.char], rfl, .symbol s, fun x hx hcontinues => ?_⟩
    cases s with
    | slash =>
      rw [Token.continues, Bool.or_eq_true, beq_iff_eq, beq_iff_eq] at hcontinues
      exact hcontinues.elim (hslash rfl x hx).1 (hslash rfl x hx).2
    | _ => cases hcontinues
  split at h
  · next hdigit =>
    cases h
    refine ⟨(c :: cs).takeWhile Char.isDigit, List.takeWhile_append_dropWhile.symm, ?_, ?_⟩
    · rw [literalValue_eq_min]
      refine .integer ?_ fun x hx => List.all_eq_true.1 List.all_takeWhile x hx
      rw [List.takeWhile_cons_of_pos hdigit]
      exact List.cons_ne_nil _ _
    · exact head?_dropWhile_not _ _
  split at h
  · next hquote =>
    split at h
    · cases h
    · next quote rest' hrest =>
      cases h
      rw [isQuote, beq_iff_eq] at hquote
      have hclose : isQuote quote := by
        have hhead := head?_dropWhile_not (!isQuote ·) cs
        rw [hrest] at hhead
        simpa using hhead quote rfl
      rw [isQuote, beq_iff_eq] at hclose
      subst hquote hclose
      have hcs : cs = cs.takeWhile (!isQuote ·) ++ '"' :: rest := by
        rw [← hrest, List.takeWhile_append_dropWhile]
      refine ⟨_, ?_, @Token.Spelled.string (.ofList (cs.takeWhile (!isQuote ·))) ?_ ?_,
        fun x _ => Bool.false_ne_true⟩
      · rw [String.toList_ofList, List.cons_append, List.append_assoc, List.singleton_append, ← hcs]
      · rw [String.toList_ofList]
        intro hmem
        exact absurd (List.all_eq_true.1 List.all_takeWhile _ hmem) (by decide)
      · rw [String.toList_ofList]
        exact fun hmem => hline ((List.takeWhile_prefix _).subset hmem)
  split at h
  · next hword =>
    cases h
    have hname : isName ((c :: cs).takeWhile isWordChar) := by
      rw [List.takeWhile_cons_of_pos (isWordChar_of_isWordStart hword), isName, hword,
        Bool.true_and]
      exact List.all_takeWhile
    refine ⟨_, List.takeWhile_append_dropWhile.symm, Token.spelled_ofWord hname, fun x hx => ?_⟩
    rw [Token.continues_ofWord]
    exact head?_dropWhile_not _ _ x hx
  · cases h

theorem readToken_ne_exhausted {comment : Option Span} :
    readToken line column c cs ≠ .exhausted column' comment := by
  intro h
  simp only [readToken] at h
  split at h
  · cases h
  split at h
  · cases h
  split at h
  · split at h <;> cases h
  split at h
  · cases h
  · cases h

end readToken
end JackLang
