import JackLang.Proofs.Lexis.Division

/-! Printed tokens. Whatever separates them, blanks and comments of any shape, tokens that are
printed are read again (`TokenStream.texts_print`). -/

namespace JackLang

/-! ### Tokens -/

namespace Token

/-- How a token is printed. -/
def spelling : Token → List Char
  | .keyword k => k.text.toList
  | .symbol s => [s.char]
  | .integer n => n.repr.toList
  | .string text => '"' :: (text.toList ++ ['"'])
  | .identifier name => name.toList

/-- A token that can stand in a text. -/
def Printable : Token → Prop
  | .keyword _ | .symbol _ => True
  | .integer n => n ≤ maxLiteral
  | .string text => '"' ∉ text.toList ∧ '\n' ∉ text.toList
  | .identifier name => isName name.toList ∧ ∀ k : Keyword, name ≠ k.text

theorem Printable.spelled {t : Token} (h : t.Printable) : t.Spelled t.spelling := by
  cases t with
  | keyword k => exact .keyword k
  | symbol s => exact .symbol s
  | integer n =>
    have hdigits : ∀ c ∈ n.repr.toList, c.isDigit := fun c hc => Text.isDigit_of_mem_repr hc
    have hspelled := Spelled.integer (by simp) hdigits
    rwa [Text.ofDigitChars_repr, Nat.min_eq_left h] at hspelled
  | string text => exact .string h.1 h.2
  | identifier name => exact .identifier h.1 h.2

end Token

/-! ### Separators -/

/-- What may be behind the first blank between two tokens. A comment to the end of its line ends
with the line feed. -/
inductive Filler
  | blank (c : Char) (isBlank : Text.isBlank c)
  | blockComment (body : List Char) (closed : ¬ ['*', '/'] <:+: body)
  | lineComment (text : List Char) (noFeed : '\n' ∉ text)

namespace Filler

def text : Filler → List Char
  | blank c _ => [c]
  | blockComment body _ => '/' :: '*' :: (body ++ ['*', '/'])
  | lineComment text _ => '/' :: '/' :: (text ++ ['\n'])

def pieces : Filler → List Piece
  | blank c _ => [.blank c]
  | blockComment body _ => [.blockComment body]
  | lineComment text _ => [.lineComment text, .blank '\n']

variable (f : Filler) {ps : List Piece}

theorem joined_pieces : Piece.joined f.pieces = f.text := by
  cases f <;> simp [pieces, text, Piece.joined, Piece.text]

theorem allFit_pieces (h : Piece.AllFit ps) : Piece.AllFit (f.pieces ++ ps) := by
  cases f with
  | blank c hblank => exact ⟨hblank, h⟩
  | blockComment body hclosed => exact ⟨hclosed, h⟩
  | lineComment text hfeed =>
    refine ⟨⟨hfeed, fun c hc => (Option.mem_some_iff.1 hc).symm⟩, ?_, h⟩
    exact (by decide : Text.isBlank '\n' = true)

theorem allFit_flatMap_pieces (fillers : List Filler) (h : Piece.AllFit ps) :
    Piece.AllFit (fillers.flatMap pieces ++ ps) := by
  induction fillers with
  | nil => exact h
  | cons f fillers ih =>
    rw [List.flatMap_cons, List.append_assoc]
    exact f.allFit_pieces ih

end Filler

/-- What stands between two tokens: a blank and any fillers. -/
structure Separator where
  first : Char
  isBlank : Text.isBlank first
  fillers : List Filler

namespace Separator

def text (s : Separator) : List Char := s.first :: s.fillers.flatMap Filler.text

def pieces (s : Separator) : List Piece := .blank s.first :: s.fillers.flatMap Filler.pieces

variable (s : Separator) {ps : List Piece}

theorem joined_pieces : Piece.joined s.pieces = s.text := by
  have hfillers :
      Piece.joined (s.fillers.flatMap Filler.pieces) = s.fillers.flatMap Filler.text := by
    simp only [Piece.joined_flatMap, Filler.joined_pieces]
  exact congrArg (s.first :: ·) hfillers

theorem allFit_pieces (h : Piece.AllFit ps) : Piece.AllFit (s.pieces ++ ps) :=
  ⟨s.isBlank, Filler.allFit_flatMap_pieces s.fillers h⟩

end Separator

/-! ### Printing -/

/-- Tokens with what separates them. There may be a separator before the first token, and the last
may stand at the end of the text. -/
structure Printout where
  lead : Option Separator
  items : List (Token × Separator)
  last : Option Token

namespace Printout

variable (p : Printout)

def tokens : List Token := p.items.map (·.1) ++ p.last.toList

def text : List Char :=
  p.lead.toList.flatMap Separator.text ++
    (p.items.flatMap (fun (t, s) => t.spelling ++ s.text) ++ p.last.toList.flatMap Token.spelling)

def pieces : List Piece :=
  p.lead.toList.flatMap Separator.pieces ++
    (p.items.flatMap (fun (t, s) => .token t t.spelling :: s.pieces) ++
      p.last.toList.map fun t => .token t t.spelling)

theorem joined_pieces : Piece.joined p.pieces = p.text := by
  have hitem (x : Token × Separator) :
      Piece.joined (.token x.1 x.1.spelling :: x.2.pieces) = x.1.spelling ++ x.2.text :=
    congrArg (x.1.spelling ++ ·) x.2.joined_pieces
  have hlast (ts : List Token) :
      Piece.joined (ts.map fun t => .token t t.spelling) = ts.flatMap Token.spelling :=
    List.flatMap_map ..
  simp only [pieces, text, Piece.joined_append, Piece.joined_flatMap, Separator.joined_pieces,
    hitem, hlast]

variable {p}

theorem allFit_pieces (h : ∀ t ∈ p.tokens, t.Printable) : Piece.AllFit p.pieces := by
  obtain ⟨lead, items, last⟩ := p
  obtain ⟨hitems, hlast⟩ := List.forall_mem_append.1 h
  have hend : Piece.AllFit (last.toList.map fun t => .token t t.spelling) := by
    cases last with
    | none => trivial
    | some t =>
      refine ⟨⟨(hlast t List.mem_cons_self).spelled, ?_⟩, trivial⟩
      intro x hx
      cases hx
  have hbody : Piece.AllFit (items.flatMap (fun (t, s) => .token t t.spelling :: s.pieces) ++
      last.toList.map fun t => .token t t.spelling) := by
    clear h hlast
    induction items with
    | nil => exact hend
    | cons x items ih =>
      rw [List.map_cons, List.forall_mem_cons] at hitems
      rw [List.flatMap_cons, List.append_assoc]
      refine ⟨⟨hitems.1.spelled, fun c hc => ?_⟩, x.2.allFit_pieces (ih hitems.2)⟩
      -- A separator begins with a blank.
      cases hc
      exact x.1.not_continues_of_isBlank x.2.isBlank
  cases lead with
  | none => exact hbody
  | some s => simpa [pieces] using s.allFit_pieces hbody

end Printout

/-! ### Reading what is printed -/

namespace Piece

def token? : Piece → Option Token
  | token t _ => some t
  | blank _ | lineComment _ | blockComment _ => none

theorem map_token_lexemes (pieces : List Piece) (place : Span) :
    (lexemes place pieces).map (·.token) = pieces.filterMap token? := by
  induction pieces generalizing place with
  | nil => rfl
  | cons p pieces ih =>
    rw [lexemes, List.map_append, ih]
    cases p <;> rfl

end Piece

theorem Separator.filterMap_token? (s : Separator) : s.pieces.filterMap Piece.token? = [] := by
  have hfillers : (s.fillers.flatMap Filler.pieces).filterMap Piece.token? = [] := by
    rw [List.filterMap_eq_nil_iff]
    intro piece hpiece
    obtain ⟨f, -, hpiece⟩ := List.mem_flatMap.1 hpiece
    cases f with
    | blank | blockComment =>
      cases List.mem_singleton.1 hpiece
      rfl
    | lineComment =>
      rcases List.mem_pair.1 hpiece with rfl | rfl
      · rfl
      · rfl
  exact hfillers

theorem Printout.filterMap_token? (p : Printout) : p.pieces.filterMap Piece.token? = p.tokens := by
  have hitem (x : Token × Separator) :
      (.token x.1 x.1.spelling :: x.2.pieces).filterMap Piece.token? = [x.1] := by
    rw [List.filterMap_cons, x.2.filterMap_token?]
    rfl
  have hlast (ts : List Token) :
      (ts.map fun t => .token t t.spelling).filterMap Piece.token? = ts := by
    rw [List.filterMap_map]
    exact List.filterMap_some
  simp only [pieces, tokens, List.filterMap_append, List.filterMap_flatMap,
    Separator.filterMap_token?, hitem, hlast]
  rw [← List.map_eq_flatMap, List.flatMap_eq_nil_iff.2 fun _ _ => rfl, List.nil_append]

/-- **Reading undoes printing.** -/
theorem TokenStream.texts_print {p : Printout} (h : ∀ t ∈ p.tokens, t.Printable) :
    (ofText (.ofList p.text)).texts = p.tokens ∧ (ofText (.ofList p.text)).fault? = none := by
  have hjoined : Piece.joined p.pieces = (String.ofList p.text).toList := by
    rw [p.joined_pieces, String.toList_ofList]
  obtain ⟨htokens, hfault⟩ := eq_of_division (Printout.allFit_pieces h) hjoined
  refine ⟨?_, hfault⟩
  rw [texts, htokens, List.map_map, ← p.filterMap_token?, ← Piece.map_token_lexemes p.pieces ⟨1, 1⟩]
  rfl

/-- Stars, slashes and quotes where they could be taken for the beginning or the end of a comment.
-/
def Printout.mixed : Printout where
  lead := some ⟨'\t', by decide, [.lineComment "/*\r".toList (by decide)]⟩
  items := [
    (.symbol .slash,
      ⟨' ', by decide, [.blockComment "/*\n\"//".toList (by decide), .blank ' ' (by decide)]⟩),
    (.string "*/ //",
      ⟨'\n', by decide, [.blockComment ['*'] (by decide), .blockComment [] (by decide)]⟩),
    (.integer 4294967295, ⟨'\u00a0', by decide, []⟩)]
  last := some (.identifier "classy")

theorem TokenStream.texts_print_mixed :
    (∀ t ∈ Printout.mixed.tokens, t.Printable) ∧
      String.ofList Printout.mixed.text =
        "\t///*\r\n/ /*/*\n\"//*/ \"*/ //\"\n/***//**/4294967295\u00a0classy" ∧
      (ofText (.ofList Printout.mixed.text)).texts =
        [.symbol .slash, .string "*/ //", .integer 4294967295, .identifier "classy"] := by
  have h : ∀ t ∈ Printout.mixed.tokens, t.Printable := by
    intro t ht
    simp only [Printout.tokens, Printout.mixed, List.map_cons, List.map_nil, Option.toList_some,
      List.cons_append, List.nil_append, List.mem_cons, List.not_mem_nil, or_false] at ht
    obtain rfl | rfl | rfl | rfl := ht
    · trivial
    · exact ⟨by decide, by decide⟩
    · exact Nat.le_refl _
    · refine ⟨by decide, fun k => ?_⟩
      cases k <;> decide
  exact ⟨h, by decide, (texts_print h).1⟩

end JackLang
