import JackLang.Proofs.Lexis.Unread

/-! Texts as sequences of tokens, blanks and comments (`Piece`). A text is read to its end just if
it can be divided into such pieces, and its tokens are those among the pieces, each where it stands
(`TokenStream.eq_of_division` and `TokenStream.exists_division`). -/

namespace JackLang

open Text (isBlank splitLines)

/-! ### Pieces -/

inductive Piece
  | blank (c : Char)
  /-- A comment to the end of its line, without the line feed. -/
  | lineComment (text : List Char)
  | blockComment (body : List Char)
  | token (token : Token) (spelling : List Char)
deriving DecidableEq, Repr

/-- A token in a text, and how it is spelled there. -/
structure Lexeme extends Located where
  spelling : List Char
deriving DecidableEq, Repr

namespace Piece

def text : Piece → List Char
  | blank c => [c]
  | lineComment text => '/' :: '/' :: text
  | blockComment body => '/' :: '*' :: (body ++ ['*', '/'])
  | token _ spelling => spelling

/-- A piece is as it should be before some text. A comment that begins with a slash and a star goes
to the first star with a slash behind it, any other to the end of the line. -/
def Fits : Piece → List Char → Prop
  | blank c, _ => isBlank c
  | lineComment text, rest => '\n' ∉ text ∧ ∀ c ∈ rest.head?, c = '\n'
  | blockComment body, _ => ¬ ['*', '/'] <:+: body
  | token t spelling, rest => t.Spelled spelling ∧ t.EndsBefore rest

def lexeme? (place : Span) : Piece → Option Lexeme
  | token t spelling => some ⟨⟨t, place⟩, spelling⟩
  | blank _ | lineComment _ | blockComment _ => none

/-- The text of some pieces. -/
def joined (pieces : List Piece) : List Char := pieces.flatMap text

/-- Each piece fits before the text of those behind it. -/
def AllFit : List Piece → Prop
  | [] => True
  | p :: pieces => p.Fits (joined pieces) ∧ AllFit pieces

theorem joined_append (ps qs : List Piece) : joined (ps ++ qs) = joined ps ++ joined qs :=
  List.flatMap_append

theorem joined_flatMap {α : Type} (f : α → List Piece) (xs : List α) :
    joined (xs.flatMap f) = xs.flatMap fun x => joined (f x) := List.flatMap_assoc

/-- The tokens among some pieces, the first of which stands at a place. -/
def lexemes (place : Span) : List Piece → List Lexeme
  | [] => []
  | p :: pieces => (p.lexeme? place).toList ++ lexemes (p.text.foldl Span.past place) pieces

end Piece

/-! ### Pieces before a scanner -/

namespace Scanner

variable {s s' : Scanner} {place : Span} {text : List Char} {before : List Located}

theorem Before.blockComment {body : List Char} (h : s.Before place (body ++ '*' :: '/' :: text))
    (hopen : s.comment.isSome) (hbody : ¬ ['*', '/'] <:+: body) :
    s.Resumes false ((body ++ ['*', '/']).foldl Span.past place) text := by
  induction body generalizing s place with
  | nil => exact h.closes hopen
  | cons c body ih =>
    rw [List.infix_cons_iff, not_or] at hbody
    have hnext : c = '*' → (body ++ '*' :: '/' :: text).head? ≠ some '/' := by
      rintro rfl hhead
      cases body with
      | nil => cases hhead
      | cons c body =>
        cases hhead
        exact hbody.1 ⟨body, rfl⟩
    obtain ⟨s', hopen', h', hscan⟩ := h.inside hopen hnext
    obtain ⟨s'', hopen'', h'', hscan'⟩ := ih h' hopen' hbody.2
    exact ⟨s'', hopen'', h'', hscan.trans hscan'⟩

/-- A scan goes over a piece that is no token. -/
theorem Before.skip {p : Piece} (h : s.Before place (p.text ++ text)) (hopen : s.comment = none)
    (hfits : p.Fits text) (hlexeme : p.lexeme? place = none) :
    s.Resumes false (p.text.foldl Span.past place) text := by
  cases p with
  | blank c => exact h.blank hopen hfits
  | lineComment line => exact h.lineComment hopen hfits.1 hfits.2
  | blockComment body =>
    rw [Piece.text, List.cons_append, List.cons_append, List.append_assoc] at h
    obtain ⟨s', hopen', h', hscan⟩ := h.opens hopen
    obtain ⟨s'', hopen'', h'', hscan'⟩ := h'.blockComment hopen' hfits
    exact ⟨s'', hopen'', h'', hscan.trans hscan'⟩
  | token t spelling => cases hlexeme

theorem Before.scan_of_nil (h : s.Before place []) (hopen : s.comment = none) :
    ∃ s' : Scanner, s.scan = .ok none s' := by
  obtain ⟨rest, line, column, comment, lines⟩ := s
  obtain ⟨hunread, -, -⟩ := h
  cases hopen
  cases hunread
  exact ⟨_, rfl⟩

theorem Before.fault?_of_nil (h : s.Before place []) {start : Span} (hopen : s.comment = some start)
    (before : List Located) : (s.stream before).fault? ≠ none := by
  obtain ⟨rest, line, column, comment, lines⟩ := s
  obtain ⟨hunread, -, -⟩ := h
  cases hopen
  cases hunread
  rw [stream_of_error rfl]
  exact Option.some_ne_none _

/-- The tokens among the pieces before a scanner are read, and nothing else is. -/
theorem Before.stream_eq {pieces : List Piece} (hfit : Piece.AllFit pieces)
    (h : s.Before place (Piece.joined pieces)) (hopen : s.comment = none) (before : List Located) :
    (s.stream before).tokens =
        before.reverse ++ (Piece.lexemes place pieces).map (·.toLocated) ∧
      (s.stream before).fault? = none := by
  induction pieces generalizing s place before with
  | nil =>
    obtain ⟨s', hscan⟩ := h.scan_of_nil hopen
    rw [stream_of_end hscan]
    exact ⟨(List.append_nil _).symm, rfl⟩
  | cons p pieces ih =>
    obtain ⟨hp, hpieces⟩ := hfit
    rw [Piece.joined, List.flatMap_cons] at h
    rw [Piece.lexemes]
    cases hlexeme : p.lexeme? place with
    | none =>
      obtain ⟨s', hopen', h', hscan⟩ := h.skip hopen hp hlexeme
      rw [stream_congr hscan]
      exact ih hpieces h' (by simpa using hopen') before
    | some lexeme =>
      cases p with
      | blank | lineComment | blockComment => cases hlexeme
      | token t spelling =>
        cases hlexeme
        obtain ⟨s', hopen', h', hscan⟩ := h.scan_of_spelled hopen hp.1 hp.2
        rw [stream_of_token hscan]
        obtain ⟨htokens, hfault⟩ := ih hpieces h' hopen' (⟨t, place⟩ :: before)
        refine ⟨?_, hfault⟩
        rw [htokens, List.reverse_cons, List.append_assoc]
        rfl

end Scanner

/-! ### Dividing what has been read -/

/-- A text from some place on is divided, and has some tokens. -/
def Divided (place : Span) (text : List Char) (tokens : List Located) : Prop :=
  ∃ pieces, Piece.AllFit pieces ∧ Piece.joined pieces = text ∧
    (Piece.lexemes place pieces).map (·.toLocated) = tokens

/-- In a comment, a text is divided behind the end of the comment. -/
def DividedFrom : Bool → Span → List Char → List Located → Prop
  | false, place, text, tokens => Divided place text tokens
  | true, place, text, tokens => ∃ body rest, text = body ++ '*' :: '/' :: rest ∧
    ¬ ['*', '/'] <:+: body ∧ Divided ((body ++ ['*', '/']).foldl Span.past place) rest tokens

section Divided

variable {place : Span} {text : List Char} {tokens : List Located} {c : Char}

theorem Divided.cons {p : Piece} (hfits : p.Fits text)
    (h : Divided (p.text.foldl Span.past place) text tokens) :
    Divided place (p.text ++ text) ((p.lexeme? place).toList.map (·.toLocated) ++ tokens) := by
  obtain ⟨pieces, hfit, rfl, rfl⟩ := h
  exact ⟨p :: pieces, ⟨hfits, hfit⟩, rfl, List.map_append⟩

theorem DividedFrom.inside (hc : c = '*' → text.head? ≠ some '/')
    (h : DividedFrom true (place.past c) text tokens) :
    DividedFrom true place (c :: text) tokens := by
  obtain ⟨body, rest, rfl, hbody, h⟩ := h
  refine ⟨c :: body, rest, rfl, ?_, h⟩
  rw [List.infix_cons_iff, not_or]
  refine ⟨fun hprefix => ?_, hbody⟩
  obtain ⟨more, hmore⟩ := hprefix
  cases hmore
  exact hc rfl rfl

theorem DividedFrom.opens (h : DividedFrom true (['/', '*'].foldl Span.past place) text tokens) :
    Divided place ('/' :: '*' :: text) tokens := by
  obtain ⟨body, rest, rfl, hbody, h⟩ := h
  have hpiece : Divided place _ _ := Divided.cons (p := .blockComment body) hbody h
  rwa [Piece.text, List.cons_append, List.cons_append, List.append_assoc] at hpiece

end Divided

namespace Scanner

variable {s : Scanner} {place : Span} {text : List Char} {before : List Located}

/-- A scan goes over the beginning of a text, which can be put before a division of the rest. -/
def Skips (s : Scanner) (place : Span) (text : List Char) : Prop :=
  ∃ inComment place' text', text'.length < text.length ∧ s.Resumes inComment place' text' ∧
    ∀ tokens, DividedFrom inComment place' text' tokens →
      DividedFrom s.comment.isSome place text tokens

/-- In a comment a scan goes on, behind the comment if it ends here. -/
theorem Before.skips_inside {c : Char} (h : s.Before place (c :: text))
    (hopen : s.comment.isSome) : s.Skips place (c :: text) := by
  by_cases hclose : c = '*' ∧ text.head? = some '/'
  · obtain ⟨rfl, hhead⟩ := hclose
    obtain ⟨text, rfl⟩ := List.head?_eq_some_iff.1 hhead
    refine ⟨false, _, text, ?_, h.closes hopen, fun tokens hdivided => ?_⟩
    · simp only [List.length_cons]
      omega
    · rw [hopen]
      exact ⟨[], text, rfl, by simp, hdivided⟩
  · have hnext : c = '*' → text.head? ≠ some '/' := fun hc hhead => hclose ⟨hc, hhead⟩
    refine ⟨true, _, text, Nat.lt_succ_self _, h.inside hopen hnext, fun tokens hdivided => ?_⟩
    rw [hopen]
    exact hdivided.inside hnext

/-- Outside of comments a scan goes on, unless there is neither a blank nor a comment. -/
theorem Before.skips_outside {c : Char} (h : s.Before place (c :: text))
    (hopen : s.comment = none) :
    s.Skips place (c :: text) ∨
      ¬ isBlank c ∧ (c = '/' → ∀ x ∈ text.head?, x ≠ '/' ∧ x ≠ '*') := by
  have hnone : s.comment.isSome = false := by rw [hopen, Option.isSome_none]
  by_cases hblank : isBlank c
  · refine .inl ⟨false, _, text, Nat.lt_succ_self _, h.blank hopen hblank, fun tokens hdivided => ?_⟩
    rw [hnone]
    exact Divided.cons (p := .blank c) hblank hdivided
  by_cases hline : c = '/' ∧ text.head? = some '/'
  · obtain ⟨rfl, hhead⟩ := hline
    obtain ⟨text, rfl⟩ := List.head?_eq_some_iff.1 hhead
    obtain ⟨line, rest, rfl, hline, hrest⟩ := Text.exists_line text
    refine .inl ⟨false, _, rest, ?_, h.lineComment hopen hline hrest, fun tokens hdivided => ?_⟩
    · simp only [List.length_cons, List.length_append]
      omega
    · rw [hnone]
      exact Divided.cons (p := .lineComment line) ⟨hline, hrest⟩ hdivided
  by_cases hstar : c = '/' ∧ text.head? = some '*'
  · obtain ⟨rfl, hhead⟩ := hstar
    obtain ⟨text, rfl⟩ := List.head?_eq_some_iff.1 hhead
    refine .inl ⟨true, _, text, ?_, h.opens hopen, fun tokens hdivided => ?_⟩
    · simp only [List.length_cons]
      omega
    · rw [hnone]
      exact hdivided.opens
  refine .inr ⟨hblank, ?_⟩
  rintro rfl x hx
  constructor
  · rintro rfl
    exact hline ⟨rfl, hx⟩
  · rintro rfl
    exact hstar ⟨rfl, hx⟩

/-- A text that is read without fault is divided into its tokens and what is between them. -/
theorem Before.exists_divided (h : s.Before place text) (hfault : (s.stream before).fault? = none) :
    ∃ tokens, (s.stream before).tokens = before.reverse ++ tokens ∧
      DividedFrom s.comment.isSome place text tokens := by
  induction hlength : text.length using Nat.strongRecOn generalizing s place text before with
  | ind n ih =>
  subst hlength
  have hskips (hskips : s.Skips place text) :
      ∃ tokens, (s.stream before).tokens = before.reverse ++ tokens ∧
        DividedFrom s.comment.isSome place text tokens := by
    obtain ⟨_, place', text', hlt, ⟨s', rfl, h', hscan⟩, hdivide⟩ := hskips
    rw [stream_congr hscan] at hfault ⊢
    obtain ⟨tokens, htokens, hdivided⟩ := ih _ hlt h' hfault rfl
    exact ⟨tokens, htokens, hdivide tokens hdivided⟩
  cases text with
  | nil =>
    cases hopen : s.comment with
    | some start => exact absurd hfault (h.fault?_of_nil hopen before)
    | none =>
      obtain ⟨s', hscan⟩ := h.scan_of_nil hopen
      rw [stream_of_end hscan]
      exact ⟨[], (List.append_nil _).symm, [], trivial, rfl, rfl⟩
  | cons c text =>
    cases hopen : s.comment with
    | some start => exact hopen ▸ hskips (h.skips_inside (by rw [hopen, Option.isSome_some]))
    | none =>
      obtain hskip | ⟨hblank, hslash⟩ := h.skips_outside hopen
      · exact hopen ▸ hskips hskip
      obtain ⟨fault, s', hscan⟩ | ⟨t, spelling, text', htext, hspelled, hends⟩ :=
        h.exists_spelled hopen hblank hslash
      · rw [stream_of_error hscan] at hfault
        cases hfault
      · have hlt : text'.length < (c :: text).length := by
          have hpos := List.length_pos_of_ne_nil hspelled.ne_nil
          rw [htext, List.length_append]
          omega
        rw [htext] at h
        obtain ⟨s', hopen', h', hscan⟩ := h.scan_of_spelled hopen hspelled hends
        rw [stream_of_token hscan] at hfault ⊢
        obtain ⟨tokens, htokens, hdivided⟩ := ih _ hlt h' hfault rfl
        refine ⟨⟨t, place⟩ :: tokens, ?_, ?_⟩
        · rw [htokens, List.reverse_cons, List.append_assoc]
          rfl
        · rw [hopen'] at hdivided
          rw [htext]
          exact Divided.cons (p := .token t spelling) ⟨hspelled, hends⟩ hdivided

/-- A scan of a text begins before its first character. -/
theorem resumes_ofText (source : String) :
    Scanner.Resumes { lines := Line.ofText source } false ⟨1, 1⟩ source.toList := by
  -- Before the first line a scanner is as at the end of a line.
  have h : Scanner.Before { lines := Line.ofText source } ⟨0, 1⟩ ('\n' :: source.toList) :=
    ⟨unread_splitLines _, fun _ => rfl, fun hne => absurd rfl hne⟩
  exact h.blank rfl (by decide)

end Scanner

/-! ### Tokens of a source -/

namespace TokenStream

variable {source : String} {pieces : List Piece}

/-- A source that is made of pieces has the tokens among them and no others. -/
theorem eq_of_division (hfit : Piece.AllFit pieces) (h : Piece.joined pieces = source.toList) :
    (ofText source).tokens = (Piece.lexemes ⟨1, 1⟩ pieces).map (·.toLocated) ∧
      (ofText source).fault? = none := by
  obtain ⟨s, hopen, hbefore, hscan⟩ := Scanner.resumes_ofText source
  rw [ofText, ofLines, Scanner.stream_congr hscan]
  exact (h ▸ hbefore).stream_eq hfit (by simpa using hopen) []

/-- A source without a fault is made of pieces. -/
theorem exists_division (h : (ofText source).fault? = none) :
    ∃ pieces, Piece.AllFit pieces ∧ Piece.joined pieces = source.toList ∧
      (ofText source).tokens = (Piece.lexemes ⟨1, 1⟩ pieces).map (·.toLocated) := by
  obtain ⟨s, hopen, hbefore, hscan⟩ := Scanner.resumes_ofText source
  rw [ofText, ofLines, Scanner.stream_congr hscan] at h ⊢
  obtain ⟨tokens, htokens, hdivided⟩ := hbefore.exists_divided h
  rw [hopen] at hdivided
  obtain ⟨pieces, hfit, hjoined, hlexemes⟩ := hdivided
  exact ⟨pieces, hfit, hjoined, htokens.trans hlexemes.symm⟩

end TokenStream

/-! ### Places of the tokens -/

namespace Span

/-- A place at or before another. -/
def AtOrBefore (a b : Span) : Prop := a.line < b.line ∨ a.line = b.line ∧ a.column ≤ b.column

theorem AtOrBefore.trans {a b c : Span} (h : a.AtOrBefore b) (h' : b.AtOrBefore c) :
    a.AtOrBefore c := by
  unfold AtOrBefore at *
  omega

theorem atOrBefore_foldl_past (text : List Char) (place : Span) :
    place.AtOrBefore (text.foldl past place) := by
  induction text generalizing place with
  | nil => exact .inr ⟨rfl, Nat.le_refl _⟩
  | cons c text ih =>
    refine AtOrBefore.trans ?_ (ih _)
    have h := before_past place c
    unfold Before AtOrBefore at *
    omega

end Span

namespace Lexeme

/-- A token ends before another begins. -/
def Apart (a b : Lexeme) : Prop :=
  a.span.line < b.span.line ∨
    a.span.line = b.span.line ∧ a.span.column + a.spelling.length ≤ b.span.column

end Lexeme

namespace Piece

variable {pieces : List Piece} {place : Span} {x : Lexeme}

theorem exists_of_lexeme?_eq_some {p : Piece} (h : p.lexeme? place = some x) :
    p = .token x.token x.spelling ∧ x.span = place := by
  cases p with
  | blank | lineComment | blockComment => cases h
  | token =>
    cases h
    exact ⟨rfl, rfl⟩

/-- Where a token is in the text of the pieces. -/
theorem exists_of_mem_lexemes (hfit : AllFit pieces) (hx : x ∈ lexemes place pieces) :
    x.token.Spelled x.spelling ∧ ∃ before after, joined pieces = before ++ (x.spelling ++ after) ∧
      x.span = before.foldl Span.past place ∧ x.token.EndsBefore after := by
  induction pieces generalizing place with
  | nil => cases hx
  | cons p pieces ih =>
    obtain ⟨hp, hpieces⟩ := hfit
    rw [lexemes, List.mem_append, Option.mem_toList] at hx
    rcases hx with hx | hx
    · obtain ⟨rfl, hspan⟩ := exists_of_lexeme?_eq_some hx
      exact ⟨hp.1, [], joined pieces, rfl, hspan, hp.2⟩
    · obtain ⟨hspelled, before, after, hjoined, hspan, hends⟩ := ih hpieces hx
      refine ⟨hspelled, p.text ++ before, after, ?_, ?_, hends⟩
      · rw [joined, List.flatMap_cons, List.append_assoc]
        exact congrArg _ hjoined
      · rw [hspan, List.foldl_append]

theorem pairwise_lexemes (hfit : AllFit pieces) (place : Span) :
    (lexemes place pieces).Pairwise Lexeme.Apart := by
  induction pieces generalizing place with
  | nil => exact .nil
  | cons p pieces ih =>
    obtain ⟨hp, hpieces⟩ := hfit
    rw [lexemes, List.pairwise_append]
    refine ⟨?_, ih hpieces _, fun a ha b hb => ?_⟩
    · cases p.lexeme? place with
      | none => exact .nil
      | some x => exact List.pairwise_singleton _ x
    · obtain ⟨rfl, hspan⟩ := exists_of_lexeme?_eq_some (Option.mem_toList.1 ha)
      obtain ⟨-, before, after, -, hb, -⟩ := exists_of_mem_lexemes hpieces hb
      have hle := Span.atOrBefore_foldl_past before (a.spelling.foldl Span.past place)
      rw [text] at hb
      rw [← hb, Span.foldl_past_of_notMem hp.1.newline_notMem] at hle
      rw [Lexeme.Apart, hspan]
      exact hle

end Piece

namespace TokenStream

variable {source : String}

/-- **The tokens account for the whole source.** A source that is read to its end without a fault is
made of tokens, blanks and comments. The tokens that are read are those among these pieces,
whichever way the source is divided. Each begins behind the end of the last, and at its place the
line goes on with a spelling of it that nothing behind makes longer. -/
theorem divides_source (h : (ofText source).fault? = none) :
    ∃ pieces, Piece.AllFit pieces ∧ Piece.joined pieces = source.toList ∧
      (ofText source).tokens = (Piece.lexemes ⟨1, 1⟩ pieces).map (·.toLocated) ∧
      (∀ pieces', Piece.AllFit pieces' → Piece.joined pieces' = source.toList →
        (ofText source).tokens = (Piece.lexemes ⟨1, 1⟩ pieces').map (·.toLocated)) ∧
      (ofText source).tokens.Pairwise (fun a b => a.span.Before b.span) ∧
      (Piece.lexemes ⟨1, 1⟩ pieces).Pairwise Lexeme.Apart ∧
      ∀ x ∈ Piece.lexemes ⟨1, 1⟩ pieces, x.token.Spelled x.spelling ∧
        ∃ i read rest, (splitLines source.toList)[i]? = some (read ++ (x.spelling ++ rest)) ∧
          x.span = ⟨i + 1, read.length + 1⟩ ∧ x.token.EndsBefore rest := by
  obtain ⟨pieces, hfit, hjoined, htokens⟩ := exists_division h
  refine ⟨pieces, hfit, hjoined, htokens, fun pieces' hfit' hjoined' => ?_, pairwise_ofLines _,
    Piece.pairwise_lexemes hfit _, fun x hx => ?_⟩
  · exact (eq_of_division hfit' hjoined').1
  · obtain ⟨hspelled, before, after, hsplit, hspan, hends⟩ := Piece.exists_of_mem_lexemes hfit hx
    obtain ⟨i, read, rest, hline, hplace, hrest⟩ := Text.exists_getElem?_splitLines before
      hspelled.ne_nil hspelled.newline_notMem hspelled.getLast?_ne after
    refine ⟨hspelled, i, read, rest, ?_, hspan.trans hplace, fun c hc => hends c (hrest c hc)⟩
    rw [← hjoined, hsplit, hline]

/-- A comment over two lines with a quote in it, a number with zeros in front, a comment to the end
of a line, and a string with the beginning of a comment in it. -/
theorem divides_source_mixed :
    (ofText "a/*\"/\n**/007//b\r\n\"/*\"x").fault? = none ∧
      ∃ pieces, Piece.joined pieces = "a/*\"/\n**/007//b\r\n\"/*\"x".toList ∧
        (Piece.lexemes ⟨1, 1⟩ pieces).map (·.toLocated) =
          [⟨.identifier "a", ⟨1, 1⟩⟩, ⟨.integer 7, ⟨2, 4⟩⟩, ⟨.string "/*", ⟨3, 1⟩⟩,
            ⟨.identifier "x", ⟨3, 5⟩⟩] := by
  have h : (ofText "a/*\"/\n**/007//b\r\n\"/*\"x").fault? = none := by decide +kernel
  obtain ⟨pieces, -, hjoined, htokens, -⟩ := divides_source h
  refine ⟨h, pieces, hjoined, ?_⟩
  rw [← htokens]
  decide +kernel

end TokenStream
end JackLang
