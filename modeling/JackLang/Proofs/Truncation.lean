import JackLang.Proofs.Compilation
import JackLang.Proofs.Places
import JackLang.Proofs.Scanning

/-! No truncated program compiles. The tokens of a text cut off at some character are those of the
whole text up to the last one, which may be a shorter word or a number (`Text.Cut.scanLine`); if
they end in a brace that closes, all of them are (`TokenStream.prefix_of_cut`). The tokens of a class
end so and begin those of no other class. -/

namespace JackLang

/-! ### Lines cut off -/

namespace Text

/-- Characters that a cut leaves of a line. A carriage return stays whose line feed is cut off. -/
inductive Cut : List Char → List Char → Prop
  | nil (line : List Char) : Cut [] line
  | ret : Cut ['\r'] []
  | cons (c : Char) {part line : List Char} : Cut part line → Cut (c :: part) (c :: line)

/-- Lines that a cut leaves of some lines. -/
inductive CutLines : List Line → List Line → Prop
  | nil (lines : List Line) : CutLines [] lines
  | last {part line : List Char} (lines : List Line) : Cut part line →
    CutLines [.text part] (.text line :: lines)
  | cons (line : Line) {parts lines : List Line} : CutLines parts lines →
    CutLines (line :: parts) (line :: lines)

theorem Cut.append (part line : List Char) : Cut part (part ++ line) := by
  induction part with
  | nil => exact .nil _
  | cons c part ih => exact .cons c ih

theorem Cut.append_ret (line : List Char) : Cut (line ++ ['\r']) line := by
  induction line with
  | nil => exact .ret
  | cons c line ih => exact .cons c ih

theorem Cut.chomp (part line : List Char) : Cut part (chomp '\r' (part ++ line)) := by
  rcases eq_chomp_or '\r' (part ++ line) with h | h
  · rw [← h]
    exact .append part line
  · generalize Text.chomp '\r' (part ++ line) = whole at h ⊢
    rcases List.eq_nil_or_concat line with rfl | ⟨line, c, rfl⟩
    · rw [List.append_nil] at h
      rw [h]
      exact .append_ret whole
    · rw [List.concat_eq_append, ← List.append_assoc] at h
      obtain ⟨rfl, -⟩ := List.append_inj' h rfl
      exact .append part line

/-- The lines of a text that is cut off. -/
theorem cutLines_splitLines (text rest : List Char) :
    CutLines ((splitLines text).map .text) ((splitLines (text ++ rest)).map .text) := by
  induction text using lines_induction with
  | last line hline =>
    rw [splitLines_last hline]
    split
    · exact .nil _
    · by_cases hmem : '\n' ∈ rest
      · obtain ⟨more, rest, rfl, hmore⟩ := List.eq_append_cons_of_mem hmem
        have hnot : '\n' ∉ line ++ more := by
          rw [List.mem_append]
          exact not_or.2 ⟨hline, hmore⟩
        rw [← List.append_assoc, splitLines_line hnot]
        exact .last _ (.chomp line more)
      · have hnot : '\n' ∉ line ++ rest := by
          rw [List.mem_append]
          exact not_or.2 ⟨hline, hmem⟩
        rw [splitLines_last hnot, if_neg (by simp [*])]
        exact .last _ (.append line rest)
  | line first text hfirst ih =>
    rw [List.append_assoc, List.cons_append, splitLines_line hfirst, splitLines_line hfirst]
    exact .cons _ ih

variable {part line : List Char} {c : Char}

/-- The first character of what is left is that of the line, or a carriage return behind it. -/
theorem Cut.of_cons (h : Cut (c :: part) line) :
    (∃ line', line = c :: line' ∧ Cut part line') ∨ c = '\r' ∧ part = [] ∧ line = [] := by
  cases h with
  | ret => exact .inr ⟨rfl, rfl, rfl⟩
  | cons _ h => exact .inl ⟨_, rfl, h⟩

theorem Cut.eq_cons_of_ne (h : Cut (c :: part) line) (hc : c ≠ '\r') :
    ∃ line', line = c :: line' ∧ Cut part line' :=
  h.of_cons.resolve_right fun hret => hc hret.1

/-- Characters in front that do not reach to the cut. -/
theorem Cut.dropWhile {p : Char → Bool} (h : Cut part line) (hp : part.dropWhile p ≠ []) :
    line.takeWhile p = part.takeWhile p ∧ Cut (part.dropWhile p) (line.dropWhile p) := by
  induction h with
  | nil => exact absurd rfl hp
  | ret =>
    by_cases hret : p '\r'
    · simp [hret] at hp
    · simp [hret, Cut.ret]
  | @cons c part line h ih =>
    by_cases hc : p c
    · rw [List.dropWhile_cons_of_pos hc] at hp ⊢
      rw [List.dropWhile_cons_of_pos hc, List.takeWhile_cons_of_pos hc,
        List.takeWhile_cons_of_pos hc]
      exact (ih hp).imp_left (congrArg _)
    · rw [List.dropWhile_cons_of_neg hc, List.dropWhile_cons_of_neg hc,
        List.takeWhile_cons_of_neg hc, List.takeWhile_cons_of_neg hc]
      exact ⟨rfl, .cons c h⟩

end Text

/-! ### Tokens of a line -/

section line

open Text (Cut)

variable {line column column' : Nat} {comment : Option Span} {part whole left : List Char}
  {c : Char} {token : Located}

/-- A token at the cut, which may go on behind it. -/
def AtCut (token : Located) (left : List Char) : Prop :=
  left = [] ∧ token.token ≠ .symbol .closeBrace

/-- A token that is read before a cut, unless it stands right at the cut, is one of the line. -/
theorem Text.Cut.readToken (h : Cut part whole)
    (hread : readToken line column c part = .token token left column') :
    AtCut token left ∨ ∃ left', readToken line column c whole = .token token left' column' ∧
      Cut left left' := by
  have hcons : Cut (c :: part) (c :: whole) := .cons c h
  simp only [JackLang.readToken] at hread ⊢
  split at hread
  · next symbol hsymbol =>
    cases hread
    exact .inr ⟨whole, rfl, h⟩
  next hsymbol =>
  split at hread
  · next hdigit =>
    cases hread
    refine or_iff_not_imp_left.2 fun hcut => ?_
    obtain ⟨htake, hdrop⟩ := hcons.dropWhile fun hnil => hcut ⟨hnil, by rintro ⟨⟩⟩
    rw [if_pos hdigit, htake]
    exact ⟨_, rfl, hdrop⟩
  next hdigit =>
  rw [if_neg hdigit]
  split at hread
  · next hquote =>
    rw [if_pos hquote]
    split at hread
    · cases hread
    · next quote rest hrest =>
      cases hread
      obtain ⟨htake, hdrop⟩ := h.dropWhile (p := (!isQuote ·)) (by simp [hrest])
      have hisQuote : isQuote quote := by
        have := List.head?_dropWhile_not (!isQuote ·) part
        rw [hrest] at this
        simpa using this
      rw [hrest] at hdrop
      obtain ⟨whole', hwhole, hcut⟩ := hdrop.eq_cons_of_ne (by rintro rfl; cases hisQuote)
      rw [hwhole, htake]
      exact .inr ⟨whole', rfl, hcut⟩
  next hquote =>
  rw [if_neg hquote]
  split at hread
  · next hword =>
    cases hread
    refine or_iff_not_imp_left.2 fun hcut => ?_
    obtain ⟨htake, hdrop⟩ := hcons.dropWhile fun hnil => hcut ⟨hnil, Token.ofWord_ne_symbol _ _⟩
    rw [if_pos hword, htake]
    exact ⟨_, rfl, hdrop⟩
  · cases hread

/-- What comes before a token that is read before a cut does not reach to the cut. -/
theorem Text.Cut.scanLine (h : Cut part whole)
    (hscan : scanLine line part column comment = .token token left column') :
    AtCut token left ∨
      ∃ left', JackLang.scanLine line whole column comment = .token token left' column' ∧
        Cut left left' := by
  fun_induction JackLang.scanLine line part column comment generalizing whole with
  | case1 | case4 => cases hscan
  | case2 cs column start ih =>
    obtain ⟨_, rfl, hrest⟩ := h.eq_cons_of_ne (by decide)
    obtain ⟨_, rfl, hcs⟩ := hrest.eq_cons_of_ne (by decide)
    exact ih hcs hscan
  | case3 c cs column start hnot ih =>
    obtain ⟨whole', rfl, hcs⟩ | ⟨rfl, rfl, rfl⟩ := h.of_cons
    · rw [scanLine_of_comment]
      · exact ih hcs hscan
      · rintro whole' rfl rfl
        cases hcs with
        | nil => cases hscan
        | cons _ hcs => exact hnot _ rfl rfl
    · cases hscan
  | case5 cs column ih =>
    obtain ⟨_, rfl, hrest⟩ := h.eq_cons_of_ne (by decide)
    obtain ⟨_, rfl, hcs⟩ := hrest.eq_cons_of_ne (by decide)
    exact ih hcs hscan
  | case6 c cs column _ _ hblank ih =>
    obtain ⟨whole', rfl, hcs⟩ | ⟨rfl, rfl, rfl⟩ := h.of_cons
    · rw [scanLine_of_isBlank hblank]
      exact ih hcs hscan
    · cases hscan
  | case7 c cs column hslash hstar hblank =>
    obtain ⟨whole', rfl, hcs⟩ := h.eq_cons_of_ne (by rintro rfl; exact hblank (by decide))
    by_cases hlast : c = '/' ∧ cs = []
    · obtain ⟨rfl, rfl⟩ := hlast
      cases hscan
      exact .inl ⟨rfl, by rintro ⟨⟩⟩
    · rw [scanLine_of_not_isBlank hblank]
      · exact hcs.readToken hscan
      · rintro rfl x hx
        cases hcs with
        | nil => exact absurd ⟨rfl, rfl⟩ hlast
        | ret => cases hx
        | cons c hcs =>
          cases hx
          refine ⟨?_, ?_⟩
          · rintro rfl
            exact hslash _ rfl rfl
          · rintro rfl
            exact hstar _ rfl rfl

end line

/-! ### Streams -/

namespace Scanner

open Text (Cut CutLines)

variable {s s' t : Scanner} {token : Located} {before : List Located}

/-- A scanner before what a cut leaves of what another scanner has before it. -/
inductive CutOf : Scanner → Scanner → Prop
  | lines {rest : List Char} {line column : Nat} {comment : Option Span} {parts lines : List Line} :
    CutLines parts lines →
    CutOf ⟨rest, line, column, comment, parts⟩ ⟨rest, line, column, comment, lines⟩
  | rest {part whole : List Char} {line column : Nat} {comment : Option Span} (lines : List Line) :
    Cut part whole → CutOf ⟨part, line, column, comment, []⟩ ⟨whole, line, column, comment, lines⟩

/-- A token before a cut is read without the cut too, unless it stands right at the cut. -/
theorem CutOf.scan (h : s.CutOf t) (hscan : s.scan = .ok (some token) s') :
    (s'.Finished ∧ token.token ≠ .symbol .closeBrace) ∨
      ∃ t', t.scan = .ok (some token) t' ∧ s'.CutOf t' := by
  obtain ⟨rest, line, column, comment, parts⟩ := s
  simp only [Scanner.scan] at hscan
  fun_induction scan.go rest line column comment parts generalizing t with
  | case1 parts rest line column comment token left column' hline =>
    cases hscan
    cases h with
    | @lines _ _ _ _ _ lines hlines =>
      refine .inr ⟨⟨left, line, column', none, lines⟩, ?_, .lines hlines⟩
      rw [Scanner.scan, scan.go, hline]
    | @rest _ whole _ _ _ lines hcut =>
      obtain ⟨rfl, hbrace⟩ | ⟨left', hline', hleft⟩ := hcut.scanLine hline
      · exact .inl ⟨⟨rfl, rfl⟩, hbrace⟩
      · refine .inr ⟨⟨left', line, column', none, lines⟩, ?_, .rest lines hleft⟩
        rw [Scanner.scan, scan.go, hline']
  | case3 rest line column comment column' comment' hline chars parts ih =>
    cases h with
    | @lines _ _ _ _ _ lines hlines =>
      cases hlines with
      | @last _ whole lines hcut =>
        rw [Scanner.scan, scan.go, hline]
        exact ih (t := ⟨whole, line + 1, 0, comment', lines⟩) (.rest lines hcut) hscan
      | @cons _ _ lines hlines =>
        rw [Scanner.scan, scan.go, hline]
        exact ih (t := ⟨chars, line + 1, 0, comment', lines⟩) (.lines hlines) hscan
  | case2 | case4 | case5 | case6 => cases hscan

theorem Finished.tokens_stream (h : s.Finished) (before : List Located) :
    (s.stream before).tokens = before.reverse := by
  obtain ⟨rest, line, column, comment, lines⟩ := s
  obtain ⟨rfl, rfl⟩ := h
  cases comment with
  | none => rw [stream_of_end rfl]
  | some start => rw [stream_of_error rfl]

/-- The tokens before a cut, the last of which is a brace that closes, are read without the cut. -/
theorem CutOf.stream (h : s.CutOf t) (before : List Located)
    (hfault : (s.stream before).fault? = none)
    (hlast : ∀ token ∈ (s.stream before).tokens.getLast?, token.token = .symbol .closeBrace) :
    (s.stream before).tokens <+: (t.stream before).tokens := by
  fun_induction s.stream before generalizing t with
  | case1 s before token s' hscan _ ih =>
    obtain ⟨hfinished, hbrace⟩ | ⟨t', hscan', h'⟩ := h.scan hscan
    · rw [hfinished.tokens_stream, List.reverse_cons, List.getLast?_concat] at hlast
      exact absurd (hlast token rfl) hbrace
    · rw [stream_of_token hscan']
      exact ih h' hfault hlast
  | case2 => exact reverse_prefix_stream _ _
  | case3 => cases hfault

end Scanner

/-- The tokens of a text that is cut off behind a brace that closes are tokens of the text. -/
theorem TokenStream.prefix_of_cut {text source : String} (h : text.toList <+: source.toList)
    (hfault : (TokenStream.ofText text).fault? = none)
    (hlast : ∀ token ∈ (TokenStream.ofText text).tokens.getLast?,
      token.token = .symbol .closeBrace) :
    (TokenStream.ofText text).tokens <+: (TokenStream.ofText source).tokens := by
  obtain ⟨rest, hrest⟩ := h
  refine Scanner.CutOf.stream (.lines ?_) [] hfault hlast
  rw [Line.ofText, Line.ofText, ← hrest]
  exact Text.cutLines_splitLines _ _

/-! ### Programs cut off -/

namespace Syntax

theorem Class.getLast?_tokens (c : Class) : c.tokens.getLast? = some (.symbol .closeBrace) := by
  rw [tokens, inBraces, ← List.cons_append, ← List.cons_append, ← List.cons_append,
    List.getLast?_concat]

end Syntax

namespace Compilation

/-- What compiles has a class for its tokens. -/
theorem exists_class_of_outcome {name source : String} {traced : Bool} {output : Output}
    (h : (ofText name source traced).outcome = .ok output) :
    (TokenStream.ofText source).fault? = none ∧
      ∃ c : Syntax.Class, c.tokens = (TokenStream.ofText source).texts := by
  obtain ⟨t, hparse, -⟩ := outcome_eq_ok_iff.1 h
  obtain ⟨hfault, c, htokens, -⟩ := parse_sound hparse
  exact ⟨hfault, c, htokens⟩

/-- The last token of what compiles is a brace that closes. -/
theorem exists_getLast? {source : String} {c : Syntax.Class}
    (h : c.tokens = (TokenStream.ofText source).texts) :
    ∃ before after, source.toList = before ++ '}' :: after ∧
      (TokenStream.ofText source).tokens.getLast? = some ⟨.symbol .closeBrace, Text.behind before⟩ := by
  have hlast := c.getLast?_tokens
  rw [h, TokenStream.texts, List.getLast?_map, Option.map_eq_some_iff] at hlast
  obtain ⟨⟨token, span⟩, hlast, rfl⟩ := hlast
  obtain ⟨before, ch, after, hsource, rfl, hsymbol⟩ :=
    TokenStream.exists_behind (List.mem_of_getLast? hlast)
  obtain rfl := hsymbol _ rfl
  exact ⟨before, after, hsource, hlast⟩

/-- **No truncated program compiles.** The last token of a source that compiles is the brace that
closes its class, and no text compiles that the source begins with before this brace. -/
theorem truncated_not_ok {name source : String} {traced : Bool} {output : Output}
    (h : (ofText name source traced).outcome = .ok output) :
    ∃ before after, source.toList = before ++ '}' :: after ∧
      (TokenStream.ofText source).tokens.getLast? = some ⟨.symbol .closeBrace, Text.behind before⟩ ∧
      ∀ text : String, text.toList <+: before → ∀ (name' : String) (traced' : Bool),
        ∃ error, (ofText name' text traced').outcome = .error error := by
  obtain ⟨-, c, hc⟩ := exists_class_of_outcome h
  obtain ⟨before, after, hsource, hlast⟩ := exists_getLast? hc
  refine ⟨before, after, hsource, hlast, fun text htext name' traced' => ?_⟩
  cases houtcome : (ofText name' text traced').outcome with
  | error error => exact ⟨error, rfl⟩
  | ok output' =>
    exfalso
    obtain ⟨hfault, c', hc'⟩ := exists_class_of_outcome houtcome
    obtain ⟨before', after', htext', hlast'⟩ := exists_getLast? hc'
    have hprefix : (TokenStream.ofText text).tokens <+: (TokenStream.ofText source).tokens := by
      refine TokenStream.prefix_of_cut ?_ hfault fun token htoken => ?_
      · rw [hsource]
        exact htext.trans (List.prefix_append _ _)
      · rw [hlast'] at htoken
        cases htoken
        rfl
    -- The class of the text is that of the source, so both have the same last token.
    obtain ⟨rest, hrest⟩ := hprefix
    have htokens : c'.tokens ++ rest.map (·.token) = c.tokens ++ [] := by
      rw [List.append_nil, hc, hc', TokenStream.texts, TokenStream.texts, ← hrest, List.map_append]
    obtain ⟨-, hnil⟩ := Syntax.Class.tokens_append_inj htokens
    rw [List.map_eq_nil_iff.1 hnil, List.append_nil] at hrest
    rw [← hrest, hlast'] at hlast
    -- But that of the text stands before its end, and that of the source behind it.
    obtain ⟨more, rfl⟩ := htext
    rw [htext', List.append_assoc, List.cons_append] at hlast
    have hbefore := Text.before_behind_append before' '}' (after' ++ more)
    simp only [Option.some.injEq, Located.mk.injEq, true_and] at hlast
    exact hbefore.ne hlast

/-- A class with a comment, a block inside a block, a string and numbers to be cut off in. -/
def hallSource : String :=
  "class Hall \x7b /* \x7d */ function int call() \x7b\n" ++
    "while (10) \x7b do Output.print(\"\x7d a\"); \x7d return 12; \x7d \x7d // end"

theorem length_of_behind {before after : List Char} (hsource : hallSource.toList = before ++ after)
    (h : Text.behind before = ⟨2, 53⟩) : before.length = 95 := by
  have honly : ∀ i < 104, Text.behind (hallSource.toList.take i) = ⟨2, 53⟩ → i = 95 := by
    decide +kernel
  have hlength : hallSource.toList.length = 103 := by decide +kernel
  rw [hsource, List.length_append] at hlength
  refine honly _ (by omega) ?_
  rw [hsource, List.take_left, h]

/-- Wherever the class is cut off before its last brace, be it in the comment, in the inner block, in
the string or in a number, the rest does not compile. -/
theorem truncated_not_ok_hall :
    (∃ output, (ofText "Hall" hallSource false).outcome = .ok output) ∧
      ∀ n ≤ 95, ∃ error,
        (ofText "Hall" (.ofList (hallSource.toList.take n)) false).outcome = .error error := by
  have hsome : (parse (Line.ofText hallSource)).toOption.isSome := by decide +kernel
  cases hparse : parse (Line.ofText hallSource) with
  | error fault =>
    rw [hparse] at hsome
    cases hsome
  | ok t =>
    have h : (ofText "Hall" hallSource false).outcome = .ok ⟨t.emit.render, none⟩ :=
      outcome_eq_ok_iff.2 ⟨t, hparse, rfl⟩
    refine ⟨⟨_, h⟩, fun n hn => ?_⟩
    obtain ⟨before, after, hsource, hlast, hfails⟩ := truncated_not_ok h
    have hplace : (TokenStream.ofText hallSource).tokens.getLast? =
        some ⟨.symbol .closeBrace, ⟨2, 53⟩⟩ := by decide +kernel
    have hbehind : Text.behind before = ⟨2, 53⟩ :=
      (Located.mk.inj (Option.some.inj (hlast.symm.trans hplace))).2
    refine hfails _ ?_ "Hall" false
    rw [String.toList_ofList, hsource,
      List.take_append_of_le_length (length_of_behind hsource hbehind ▸ hn)]
    exact List.take_prefix _ _

end Compilation
end JackLang
