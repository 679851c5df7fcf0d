import JackLang.Proofs.Caret
import JackLang.Proofs.Errors
import JackLang.Proofs.Lexis.Recovery
import JackLang.Proofs.Source

/-! Errors shown in their source. The place of an error is in a line of the source or right behind
its end, the diagnostic shows this line, and it is the line that the lexer reads under its number
(`Compilation.error_stands_in_source`). A syntax error names the token that begins at its place, or
the end of the input behind the last line. -/

namespace JackLang

open Line (texts HasAt Spells)

/-! ### Lines of a source -/

namespace Line

theorem texts_ofText (source : String) :
    texts (ofText source) = Text.splitLines source.toList := texts_map_text _

end Line

namespace Text

theorem splitLines_ne_nil {text : List Char} (h : text ≠ []) : splitLines text ≠ [] := by
  induction text using lines_induction with
  | last line hline =>
    rw [splitLines_last hline, if_neg h]
    exact List.cons_ne_nil _ _
  | line line rest hline _ =>
    rw [splitLines_line hline]
    exact List.cons_ne_nil _ _

end Text

/-- Whatever has been requested of a lexer, it has read a line from its start. -/
theorem Lexer.rest_eq_drop {lines : List Line} {requests : List Request} {n : Nat}
    {text : List Char} (hn : 1 ≤ n) (hline : ((ofLines lines).serveAll requests).2.scanner.line = n)
    (htext : (Line.texts lines)[n - 1]? = some text) :
    ((ofLines lines).serveAll requests).2.scanner.column ≤ text.length ∧
      ((ofLines lines).serveAll requests).2.scanner.rest =
        text.drop ((ofLines lines).serveAll requests).2.scanner.column := by
  have hstart : (ofLines lines).scanner.HasRead lines [] := Scanner.hasRead_ofLines lines
  obtain ⟨done, hread⟩ := exists_hasRead hstart requests
  generalize ((ofLines lines).serveAll requests).2.scanner = s at hline hread ⊢
  obtain ⟨i, read, hi, hcolumn, hdone⟩ := hread.exists_text (hline ▸ Nat.ne_of_gt hn)
  have hlines : (Line.texts lines)[i]? = some (read ++ s.rest) :=
    hread.lines ▸ Line.getElem?_texts_append hdone s.lines
  rw [← hline, hi, Nat.add_sub_cancel, hlines] at htext
  cases htext
  rw [hcolumn, List.length_append, List.drop_left]
  exact ⟨Nat.le_add_right _ _, rfl⟩

/-! ### Where errors are -/

namespace Scanner

variable {lines : List Line} {s s' : Scanner} {fault : Fault} {span : Span}

/-- Faults in which no token can be read stand at a character. -/
theorem Stops.exists_hasAt (h : Stops lines s fault s') (hlexical : fault.Lexical)
    (hspan : fault.report.span? = some span) : ∃ c, HasAt lines span c := by
  cases h with
  | unexpectedCharacter hat | unterminatedComment hat =>
    cases hspan
    exact ⟨_, hat⟩
  | @unterminatedString before read more s' hlines =>
    cases hspan
    exact ⟨'"', hlines ▸ Line.hasAt_append_cons before s'.lines read more '"'⟩
  | unreadable => cases hlexical

end Scanner

theorem Fault.Lexical.report_ne_syntactic {fault : Fault} (h : fault.Lexical) (span : Span)
    (expected found : String) : fault.report ≠ .syntactic span expected found := by
  cases h <;> exact nofun

/-- A place in a stream: of a token, or of the end of the input, which a syntax error names. -/
inductive TokenStream.Places (s : TokenStream) (error : Error) (span : Span) : Prop
  | token {token : Located} : token ∈ s.tokens → token.span = span →
    (∀ expected found, error = .syntactic span expected found → found = token.token.describe) →
    Places s error span
  | finish {expected : String} : s.fault? = none → span = s.position →
    error = .syntactic span expected "end of input" → Places s error span

namespace Parser

variable {source : String} {fault : Fault} {span : Span} {ls : List Syntax.Leaf} {s' : TokenStream}

/-- What a parser finds where it stops is at the place that it names. -/
theorem places_of_reads {expected : Expectation}
    (hr : (TokenStream.ofText source).Reads (Syntax.texts ls) s')
    (hlive : (TokenStream.ofText source).Live) :
    (TokenStream.ofText source).Places (Fault.unexpected s'.span expected s'.current?).report
      s'.span := by
  rcases hr.shows hlive with ⟨token, htoken, hfound⟩ | ⟨-, hfault, hspan, hfound⟩
  · refine .token (List.mem_of_getElem? htoken) rfl fun expected' found' herror => ?_
    cases herror
    exact hfound
  · have herror := congrArg (Error.syntactic s'.span expected.text) hfound
    exact .finish hfault hspan herror

/-- What is blamed on the leaves that have been read is at the place of a token, or where there are
too many levels. -/
theorem Mistake.places (h : Mistake (.ofText source) fault ls)
    (hspan : fault.report.span? = some span)
    (hlive : ¬ fault.Lexical → (TokenStream.ofText source).Live) :
    (TokenStream.ofText source).Places fault.report span := by
  have htoken {token : Located} (hmem : token ∈ (TokenStream.ofText source).tokens)
      (hplace : token.span = span)
      (hne : ∀ expected found, fault.report ≠ .syntactic span expected found) :
      (TokenStream.ofText source).Places fault.report span :=
    .token hmem hplace fun expected found herror => absurd herror (hne expected found)
  cases h with
  | lexical hlexical hmem hplace =>
    have hplace' := Option.some.inj (hplace.symm.trans hspan)
    exact htoken hmem hplace' (hlexical.report_ne_syntactic span)
  | nested hr =>
    cases hspan
    exact places_of_reads hr (hlive nofun)
  | tooManyVariables | tooManyFields => cases hspan
  | duplicate hmem _ | assigned hmem _ | read hmem _ _ _ | this hmem _ | called hmem _ _ =>
    cases hspan
    exact htoken (List.mem_of_getElem? hmem) rfl nofun

end Parser

namespace Compilation

variable {name source : String} {traced : Bool} {error : Error} {span : Span}

/-- The place of an error is one of the stream, or that of the fault in which the stream ends. -/
theorem exists_places (h : (ofText name source traced).outcome = .error error)
    (hspan : error.span? = some span) : (TokenStream.ofText source).Places error span ∨
      ∃ fault, (TokenStream.ofText source).fault? = some fault ∧ error = fault.report := by
  obtain ⟨fault, s', -, rfl, hrun, hfails⟩ := exists_fault h
  cases hfails with
  | stream hfault => exact .inr ⟨fault, hfault, rfl⟩
  | blamed ls us _ _ hmistake =>
    rw [List.nil_append] at hmistake
    exact .inl (hmistake.places hspan (Parser.live_of_program hrun))
  | rejected ls us _ hr hfault =>
    subst hfault
    cases hspan
    exact .inl (Parser.places_of_reads hr (Parser.live_of_program hrun nofun))

end Compilation

/-! ### Lines of places -/

namespace Error

variable {source : String} {error : Error} {span : Span} {i : Nat} {text : List Char}

/-- What a syntax error names is at its place in a line: a token that is spelled there, or the end
of the input behind the last line. -/
def Finds (error : Error) (span : Span) (source : String) (text : List Char) : Prop :=
  ∀ expected found, error = .syntactic span expected found →
    (∃ token spelling rest, ⟨token, span⟩ ∈ (TokenStream.ofText source).tokens ∧
      found = token.describe ∧ text.drop (span.column - 1) = spelling ++ rest ∧
      token.Spelled spelling ∧ token.EndsBefore rest) ∨
    found = "end of input" ∧ span.line = (Text.splitLines source.toList).length ∧
      span.column = text.length + 1

/-- A line of a source has the place of an error in it or right behind its end. -/
structure StandsIn (error : Error) (span : Span) (source : String) (text : List Char) : Prop where
  line_pos : 1 ≤ span.line
  line_le : span.line ≤ (Text.splitLines source.toList).length
  line : (Text.splitLines source.toList)[span.line - 1]? = some text
  column_pos : 1 ≤ span.column
  column_le : span.column ≤ text.length + 1
  finds : error.Finds span source text

theorem standsIn_of_getElem? (hi : (Text.splitLines source.toList)[i]? = some text)
    (hline : span.line = i + 1) (hcolumn : 1 ≤ span.column) (hle : span.column ≤ text.length + 1)
    (hfinds : error.Finds span source text) : error.StandsIn span source text where
  line_pos := hline ▸ Nat.succ_pos i
  line_le := hline ▸ (List.getElem?_eq_some_iff.1 hi).1
  line := by rw [hline, Nat.add_sub_cancel, hi]
  column_pos := hcolumn
  column_le := hle
  finds := hfinds

theorem StandsIn.sourceLine? (h : error.StandsIn span source text) :
    Error.sourceLine? source span.line = some text := by
  rw [Error.sourceLine?, if_neg (Nat.ne_of_gt h.line_pos), h.line]

end Error

namespace TokenStream

variable {source : String} {error : Error} {span : Span}

theorem exists_standsIn_of_fault? {fault : Fault} (hfault : (ofText source).fault? = some fault)
    (hspan : fault.report.span? = some span) :
    ∃ text, fault.report.StandsIn span source text := by
  have hlexical := lexical_of_ofText hfault
  obtain ⟨s₁, s₂, hstops⟩ :=
    Scanner.exists_stops_of_stream (Scanner.hasRead_ofLines (Line.ofText source)) hfault
  obtain ⟨c, i, j, text, hi, hj, rfl⟩ := hstops.exists_hasAt hlexical hspan
  rw [Line.texts_ofText] at hi
  have hlt := (List.getElem?_eq_some_iff.1 hj).1
  refine ⟨text, Error.standsIn_of_getElem? hi rfl (Nat.succ_pos j) ?_ fun expected found h => ?_⟩
  · exact Nat.succ_le_succ (Nat.le_of_lt hlt)
  · exact absurd h (hlexical.report_ne_syntactic _ expected found)

theorem exists_standsIn_of_mem {token : Located} (hmem : token ∈ (ofText source).tokens)
    (hfound : ∀ expected found, error = .syntactic token.span expected found →
      found = token.token.describe) : ∃ text, error.StandsIn token.span source text := by
  have hlines : ∀ chars ∈ Line.texts (Line.ofText source), '\n' ∉ chars := by
    rw [Line.texts_ofText]
    exact fun _ => Text.newline_notMem_of_mem_splitLines
  obtain ⟨i, read, spelling, rest, hi, hspelled, hends, hspan⟩ :=
    Scanner.spells_of_mem_stream (Scanner.hasRead_ofLines (Line.ofText source)) hlines
      (List.forall_mem_nil _) token hmem
  rw [Line.texts_ofText] at hi
  obtain ⟨token, place⟩ := token
  obtain rfl : place = _ := hspan
  refine ⟨_, Error.standsIn_of_getElem? hi rfl (Nat.succ_pos _) ?_ fun expected found h => ?_⟩
  · rw [List.length_append]
    exact Nat.succ_le_succ (Nat.le_add_right _ _)
  · exact .inl ⟨token, spelling, rest, hmem, hfound expected found h, List.drop_left, hspelled,
      hends⟩

/-- The end of a source is behind the last character of its last line. -/
theorem exists_standsIn_of_finish {expected : String} (hne : source ≠ "")
    (hfault : (ofText source).fault? = none) :
    ∃ text, (Error.syntactic (ofText source).position expected "end of input").StandsIn
      (ofText source).position source text := by
  obtain ⟨s, hread, hrest, hposition⟩ :=
    Scanner.exists_position_of_stream (Scanner.hasRead_ofLines (Line.ofText source)) hfault
  have hlines : Text.splitLines source.toList ≠ [] := by
    apply Text.splitLines_ne_nil
    rwa [ne_eq, String.toList_eq_nil_iff]
  have hlast := hread.line
  rw [Line.texts_ofText] at hlast
  have hline : s.line ≠ 0 := by
    rw [hlast, ne_eq, List.length_eq_zero_iff]
    exact hlines
  obtain ⟨i, text, hi, hcolumn, htext⟩ := hread.exists_text hline
  rw [hrest, List.append_nil, Line.texts_ofText] at htext
  have hplace : (ofText source).position = ⟨i + 1, text.length + 1⟩ := by
    show TokenStream.position (Scanner.stream _ _) = _
    rw [hposition, Scanner.position, hi, hcolumn, Nat.max_eq_left (Nat.succ_pos i)]
  rw [hplace]
  refine ⟨text, Error.standsIn_of_getElem? htext rfl (Nat.succ_pos _) (Nat.le_refl _) ?_⟩
  rintro _ _ ⟨⟩
  exact .inr ⟨rfl, hi ▸ hlast, rfl⟩

end TokenStream

namespace Compilation

variable {name source : String} {traced : Bool} {error : Error} {span : Span}

theorem exists_standsIn (h : (ofText name source traced).outcome = .error error)
    (hspan : error.span? = some span) (hne : source ≠ "") :
    ∃ text, error.StandsIn span source text := by
  rcases exists_places h hspan with hplaces | ⟨fault, hfault, rfl⟩
  · cases hplaces with
    | token hmem hplace hfound =>
      subst hplace
      exact TokenStream.exists_standsIn_of_mem hmem hfound
    | finish hfault hplace herror =>
      subst hplace herror
      exact TokenStream.exists_standsIn_of_finish hne hfault
  · exact TokenStream.exists_standsIn_of_fault? hfault hspan

/-- **Errors in their source.** The place of an error in a source that is not empty is in a line of
it or right behind its end, where a syntax error finds what it names. The diagnostic shows this line
behind a margin and above the caret, unless the caret is too far to the right; then there is none. A
reader of the bytes of the source delivers the same lines, and whatever is requested of a lexer on
these, it reads this line under the number that the error gives it. -/
theorem error_stands_in_source (h : (ofText name source traced).outcome = .error error)
    (hspan : error.span? = some span) (hne : source ≠ "") :
    ∃ text, error.StandsIn span source text ∧
      (span.column ≤ maxWidth + 1 → ∃ shown,
        (ofText name source traced).diagnostic? = some (.ok shown) ∧
        shown.toList = (error.heading name span).toList ++ '\n' ::
          (Error.lineMargin span.line ++ text ++ '\n' ::
            (Error.caretMargin span.column ++ ['^', '\n']))) ∧
      (maxWidth + 1 < span.column →
        (ofText name source traced).diagnostic? = some (.error ⟨span.column - 1⟩)) ∧
      Line.ofChunks [.bytes source.toUTF8.data.toList] =
        (Text.splitLines source.toList).map .text ∧
      ∀ requests s, ((Lexer.ofLines (Line.ofChunks [.bytes source.toUTF8.data.toList])).serveAll
        requests).2.scanner = s → s.line = span.line →
          s.column ≤ text.length ∧ s.rest = text.drop s.column := by
  obtain ⟨text, hstands⟩ := exists_standsIn h hspan hne
  rw [Line.ofChunks_toUTF8]
  have hline := hstands.sourceLine?
  have hdiagnostic : (ofText name source traced).diagnostic? =
      some (error.diagnostic (some source) (some name)) := by
    have hempty : ¬ source.isEmpty := mt String.isEmpty_iff.1 hne
    have hsource : (ofText name source traced).source = source := rfl
    rw [diagnostic?, h, hsource, if_neg hempty]
    rfl
  refine ⟨text, hstands, fun hcolumn => ?_, fun hcolumn => ?_, rfl, ?_⟩
  · obtain ⟨shown, hshown, htext⟩ :=
      @Error.exists_diagnostic _ _ (some name) _ _ hspan hline hcolumn
    exact ⟨shown, hshown ▸ hdiagnostic, htext⟩
  · rw [hdiagnostic, Error.diagnostic_eq_error hspan hline hcolumn]
  · rintro requests s rfl hline
    apply Lexer.rest_eq_drop hstands.line_pos hline
    rw [Line.texts_ofText, hstands.line]

/-- A name is missing in the second of three lines, of which two end in a carriage return. -/
theorem error_stands_in_source_field : ∃ source : String, ∃ text : List Char,
    (ofText "A" source false).outcome =
        .error (.syntactic ⟨2, 13⟩ "identifier" "symbol '='") ∧ source ≠ "" ∧
      (Error.syntactic ⟨2, 13⟩ "identifier" "symbol '='").StandsIn ⟨2, 13⟩ source text ∧
      text = "  field int = x;".toList ∧
      (ofText "A" source false).diagnostic? = some (.ok
        ("error: Syntax error at 2:13: expected identifier, got symbol '='\n  --> A:2:13\n   |\n" ++
          "  2 |   field int = x;\n   |             ^\n")) := by
  let source := "class A \x7b\r\n  field int = x;\r\n\x7d"
  have h : (ofText "A" source false).outcome =
      .error (.syntactic ⟨2, 13⟩ "identifier" "symbol '='") := by decide +kernel
  have hne : source ≠ "" := by decide
  have hline : (Text.splitLines source.toList)[1]? = some "  field int = x;".toList := by
    decide +kernel
  obtain ⟨text, hstands, hshown, -⟩ := error_stands_in_source h rfl hne
  obtain rfl := Option.some.inj (hstands.line.symm.trans hline)
  obtain ⟨shown, hdiagnostic, htext⟩ := hshown (by decide)
  refine ⟨source, _, h, hne, hstands, rfl, ?_⟩
  rw [hdiagnostic, ← String.ofList_toList (s := shown), htext]
  have heq : (Error.syntactic ⟨2, 13⟩ "identifier" "symbol '='").heading "A" ⟨2, 13⟩ =
      "error: Syntax error at 2:13: expected identifier, got symbol '='\n  --> A:2:13\n   |" := by
    decide
  rw [heq]
  decide +kernel

end Compilation
end JackLang
