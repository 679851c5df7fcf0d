import JackLang.Proofs.Lexis.Spelling
import JackLang.Proofs.Scanning

/-! How far a scanner has read. It stands behind some of the lines of its reader, in the last of
them that is a text (`Scanner.HasRead`), and so it does after each scan, which ends with a token, at
the end of the lines, or in one of four faults (`Scanner.HasRead.scan`). -/

namespace JackLang

/-! ### Lines -/

namespace Line

def text? : Line → Option (List Char)
  | text chars => some chars
  | unreadable _ => none

/-- The lines that can be read, which are those that are counted. -/
def texts (lines : List Line) : List (List Char) := lines.filterMap text?

theorem texts_append (lines more : List Line) : texts (lines ++ more) = texts lines ++ texts more :=
  List.filterMap_append

theorem texts_concat_text (lines : List Line) (chars : List Char) :
    texts (lines ++ [text chars]) = texts lines ++ [chars] := texts_append _ _

theorem texts_concat_unreadable (lines : List Line) (reason : String) :
    texts (lines ++ [unreadable reason]) = texts lines := by
  rw [texts_append]
  exact List.append_nil _

theorem texts_map_text (texts' : List (List Char)) : texts (texts'.map text) = texts' := by
  rw [texts, List.filterMap_map]
  exact List.filterMap_some

theorem getElem?_texts_append {lines : List Line} {i : Nat} {chars : List Char}
    (h : (texts lines)[i]? = some chars) (more : List Line) :
    (texts (lines ++ more))[i]? = some chars := by
  rw [texts_append, List.getElem?_append_left (List.getElem?_eq_some_iff.1 h).1, h]

/-- A character stands at a place. -/
def HasAt (lines : List Line) (place : Span) (c : Char) : Prop :=
  ∃ i j chars, (texts lines)[i]? = some chars ∧ chars[j]? = some c ∧ place = ⟨i + 1, j + 1⟩

/-- At its place a line goes on with a spelling of a token, which nothing behind makes longer. -/
def Spells (lines : List Line) (token : Located) : Prop :=
  ∃ i read spelling rest, (texts lines)[i]? = some (read ++ (spelling ++ rest)) ∧
    token.token.Spelled spelling ∧ token.token.EndsBefore rest ∧
    token.span = ⟨i + 1, read.length + 1⟩

theorem hasAt_append_cons (before after : List Line) (read more : List Char) (c : Char) :
    HasAt (before ++ .text (read ++ c :: more) :: after)
      ⟨(texts before).length + 1, read.length + 1⟩ c := by
  refine ⟨(texts before).length, read.length, read ++ c :: more, ?_, ?_, rfl⟩
  · rw [texts_append, List.getElem?_append_right (Nat.le_refl _), Nat.sub_self]
    rfl
  · rw [List.getElem?_append_right (Nat.le_refl _), Nat.sub_self]
    rfl

theorem HasAt.append {lines : List Line} {place : Span} {c : Char} (h : HasAt lines place c)
    (more : List Line) : HasAt (lines ++ more) place c := by
  obtain ⟨i, j, chars, hi, hj, hplace⟩ := h
  exact ⟨i, j, chars, getElem?_texts_append hi more, hj, hplace⟩

theorem Spells.append {lines : List Line} {token : Located} (h : Spells lines token)
    (more : List Line) : Spells (lines ++ more) token := by
  obtain ⟨i, read, spelling, rest, hi, hspelled⟩ := h
  exact ⟨i, read, spelling, rest, getElem?_texts_append hi more, hspelled⟩

end Line

/-! ### The rest of a line -/

section scanLine

variable {line column : Nat} {comment comment' : Option Span} {cs : List Char} {scan : LineScan}

/-- A token is spelled among some characters, which begin behind a column, in front of the last. -/
def SpelledIn (line column : Nat) (cs : List Char) (token : Located) (rest : List Char) : Prop :=
  ∃ skipped spelling, cs = skipped ++ (spelling ++ rest) ∧ token.token.Spelled spelling ∧
    token.token.EndsBefore rest ∧ token.span = ⟨line, column + skipped.length + 1⟩

/-- A comment starts among some characters, which begin behind a column. -/
def OpensAt (line column : Nat) (cs : List Char) (start : Span) : Prop :=
  ∃ skipped more, cs = skipped ++ '/' :: more ∧ start = ⟨line, column + skipped.length + 1⟩

/-- What scanning the rest of a line can end with: a token of it; a character that no token starts
with, which is found again; a quote that is the last of the line; or the end of the line. -/
inductive LineScan.From (line column : Nat) (comment : Option Span) (cs : List Char) :
    LineScan → Prop
  | token {token rest column'} : TakenFrom line column cs token rest column' →
    ('\n' ∉ cs → SpelledIn line column cs token rest) →
    From line column comment cs (.token token rest column')
  | unexpectedCharacter {skipped c more fault} : cs = skipped ++ c :: more →
    fault = .unexpectedCharacter ⟨line, column + skipped.length + 1⟩ c →
    scanLine line (c :: more) (column + skipped.length) none =
      .fault fault (c :: more) (column + skipped.length) →
    From line column comment cs (.fault fault (c :: more) (column + skipped.length))
  | unterminatedString {skipped more} : cs = skipped ++ '"' :: more → '"' ∉ more →
    From line column comment cs
      (.fault (.unterminatedString ⟨line, column + skipped.length + 1⟩) [] (column + cs.length))
  | exhausted {comment' : Option Span} :
    (∀ start ∈ comment', start ∈ comment ∨ OpensAt line column cs start) →
    From line column comment cs (.exhausted (column + cs.length) comment')

theorem SpelledIn.skip {token : Located} {rest : List Char} (skipped : List Char)
    (h : SpelledIn line (column + skipped.length) cs token rest) :
    SpelledIn line column (skipped ++ cs) token rest := by
  obtain ⟨before, spelling, rfl, hspelled, hends, hspan⟩ := h
  refine ⟨skipped ++ before, spelling, (List.append_assoc ..).symm, hspelled, hends, ?_⟩
  rw [hspan, List.length_append, Nat.add_assoc column]

theorem OpensAt.skip {start : Span} (skipped : List Char)
    (h : OpensAt line (column + skipped.length) cs start) :
    OpensAt line column (skipped ++ cs) start := by
  obtain ⟨before, more, rfl, rfl⟩ := h
  refine ⟨skipped ++ before, more, (List.append_assoc ..).symm, ?_⟩
  rw [List.length_append, Nat.add_assoc column]

theorem LineScan.From.skip (skipped : List Char)
    (hcomment : ∀ start ∈ comment', start ∈ comment ∨ OpensAt line column (skipped ++ cs) start)
    (h : scan.From line (column + skipped.length) comment' cs) :
    scan.From line column comment (skipped ++ cs) := by
  cases h with
  | token htaken hspelled =>
    refine .token (htaken.skip skipped) fun hline => (hspelled fun hmem => ?_).skip skipped
    exact hline (List.mem_append_right _ hmem)
  | @unexpectedCharacter before c more fault hcs hfault hagain =>
    subst hcs hfault
    rw [Nat.add_assoc column, ← List.length_append] at hagain ⊢
    exact .unexpectedCharacter (List.append_assoc ..).symm rfl hagain
  | @unterminatedString before more hcs hmore =>
    subst hcs
    simp only [Nat.add_assoc column skipped.length, ← List.length_append]
    exact .unterminatedString (List.append_assoc ..).symm hmore
  | exhausted hopen =>
    rw [Nat.add_assoc, ← List.length_append]
    refine .exhausted fun start hstart => ?_
    exact (hopen start hstart).elim (hcomment start) fun h => .inr (h.skip skipped)

/-- A fault at the first character behind blanks and comments. -/
theorem fault_of_readToken {c : Char} {fault : Fault} {rest : List Char} {column' : Nat}
    (h : readToken line column c cs = .fault fault rest column') :
    (fault = .unexpectedCharacter ⟨line, column + 1⟩ c ∧ rest = c :: cs ∧ column' = column) ∨
      c = '"' ∧ '"' ∉ cs ∧ fault = .unterminatedString ⟨line, column + 1⟩ ∧ rest = [] ∧
        column' = column + (c :: cs).length := by
  simp only [readToken] at h
  split at h
  · cases h
  split at h
  · cases h
  split at h
  · next hquote =>
    split at h
    · next hrest =>
      cases h
      refine .inr ⟨by simpa [isQuote] using hquote, fun hmem => ?_, rfl, rfl, ?_⟩
      · rw [← List.takeWhile_append_dropWhile (p := (!isQuote ·)) (l := cs), hrest,
          List.append_nil] at hmem
        exact absurd (List.all_eq_true.1 List.all_takeWhile _ hmem) (by decide)
      · rw [List.length_cons, Nat.add_assoc, Nat.add_comm 1]
    · cases h
  split at h
  · cases h
  · cases h
    exact .inl ⟨rfl, rfl, rfl⟩

theorem from_scanLine (line column : Nat) (comment : Option Span) (cs : List Char) :
    (scanLine line cs column comment).From line column comment cs := by
  fun_induction scanLine line cs column comment with
  | case1 column comment => exact .exhausted fun start hstart => .inl hstart
  | case2 cs column start ih =>
    exact ih.skip ['*', '/'] fun _ hmem => absurd hmem (Option.not_mem_none _)
  | case3 c cs column start _ ih => exact ih.skip [c] fun _ h => .inl h
  | case4 cs column =>
    have hcolumn : column + 2 + cs.length = column + ('/' :: '/' :: cs).length := by
      simp only [List.length_cons]
      omega
    rw [hcolumn]
    exact .exhausted fun _ hmem => absurd hmem (Option.not_mem_none _)
  | case5 cs column ih =>
    refine ih.skip ['/', '*'] fun start hstart => .inr ?_
    cases hstart
    exact ⟨[], '*' :: cs, rfl, rfl⟩
  | case6 c cs column _ _ hblank ih => exact ih.skip [c] fun _ h => .inl h
  | case7 c cs column hslash hstar hblank =>
    have hscan : scanLine line (c :: cs) column none = readToken line column c cs := by
      rw [scanLine, if_neg hblank]
      · exact hslash
      · exact hstar
    cases hread : readToken line column c cs with
    | token token rest column' =>
      have hnext : c = '/' → ∀ x ∈ cs.head?, x ≠ '/' ∧ x ≠ '*' := by
        rintro rfl x hx
        obtain ⟨cs, rfl⟩ := List.head?_eq_some_iff.1 hx
        exact ⟨fun h => hslash cs rfl (h ▸ rfl), fun h => hstar cs rfl (h ▸ rfl)⟩
      refine .token (takenFrom_of_readToken hread) fun hline => ?_
      have hline' : '\n' ∉ cs := fun hmem => hline (List.mem_cons_of_mem _ hmem)
      obtain ⟨spelling, hcs, hspelled, hends⟩ := exists_spelled_of_readToken hread hline' hnext
      exact ⟨[], spelling, hcs, hspelled, hends, (readToken_spec hread).1⟩
    | exhausted column' comment' => exact absurd hread readToken_ne_exhausted
    | fault fault rest column' =>
      have hcs : c :: cs = [] ++ c :: cs := rfl
      rcases fault_of_readToken hread with ⟨hfault, rfl, rfl⟩ | ⟨rfl, hquote, rfl, rfl, rfl⟩
      · exact .unexpectedCharacter hcs hfault (hscan.trans hread)
      · exact .unterminatedString hcs hquote

end scanLine

/-! ### Scanners -/

namespace Scanner

open Line

variable {lines done left : List Line} {s s' : Scanner} {comment : Option Span}
  {chars taken rest : List Char} {c : Char}

/-- A scanner of some lines that has read the first of them, the last one perhaps in part. -/
structure HasRead (lines done : List Line) (s : Scanner) : Prop where
  lines : lines = done ++ s.lines
  line : s.line = (texts done).length
  column : ∃ read, (texts done).getLast?.getD [] = read ++ s.rest ∧ s.column = read.length
  rest : s.rest ≠ [] → ∃ before chars, done = before ++ [.text chars]
  comment : ∀ start ∈ s.comment, HasAt done start '/'

theorem hasRead_ofLines (lines : List Line) : HasRead lines [] { lines } :=
  ⟨rfl, rfl, ⟨[], rfl, rfl⟩, fun h => absurd rfl h,
    fun _ hmem => absurd hmem (Option.not_mem_none _)⟩

/-- The line that a scanner is in. -/
theorem HasRead.exists_text (h : s.HasRead lines done) (hline : s.line ≠ 0) :
    ∃ i read, s.line = i + 1 ∧ s.column = read.length ∧
      (texts done)[i]? = some (read ++ s.rest) := by
  obtain ⟨read, hread, hcolumn⟩ := h.column
  rw [h.line] at hline ⊢
  rcases List.eq_nil_or_concat (texts done) with hnil | ⟨before, chars, hdone⟩
  · rw [hnil] at hline
    exact absurd rfl hline
  · rw [List.concat_eq_append] at hdone
    rw [hdone, List.getLast?_concat, Option.getD_some] at hread
    refine ⟨before.length, read, ?_, hcolumn, ?_⟩
    · rw [hdone, List.length_append, List.length_singleton]
    · rw [hdone, List.getElem?_concat_length, hread]

theorem HasRead.append {place : Span} (h : s.HasRead lines done) (hat : HasAt done place c) :
    HasAt lines place c :=
  h.lines ▸ hat.append s.lines

theorem HasRead.line_ne_zero (h : s.HasRead lines done) (hrest : s.rest ≠ []) : s.line ≠ 0 := by
  obtain ⟨before, chars, rfl⟩ := h.rest hrest
  rw [h.line, texts_concat_text, List.length_append, List.length_singleton]
  exact Nat.succ_ne_zero _

theorem HasRead.spells {token : Located} (h : s.HasRead lines done)
    (hspelled : SpelledIn s.line s.column s.rest token rest) : Spells done token := by
  obtain ⟨skipped, spelling, hrest, hspelled, hends, hspan⟩ := hspelled
  have hne : s.rest ≠ [] := by simp [hrest, hspelled.ne_nil]
  obtain ⟨i, read, hline, hcolumn, hi⟩ := h.exists_text (h.line_ne_zero hne)
  refine ⟨i, read ++ skipped, spelling, rest, ?_, hspelled, hends, ?_⟩
  · rw [hi, hrest, List.append_assoc]
  · rw [hspan, hline, hcolumn, List.length_append]

theorem HasRead.exists_before (h : s.HasRead lines done) (hrest : s.rest ≠ []) :
    ∃ before read, lines = before ++ .text (read ++ s.rest) :: s.lines ∧
      done = before ++ [.text (read ++ s.rest)] ∧ s.line = (texts before).length + 1 ∧
      s.column = read.length := by
  obtain ⟨before, chars, rfl⟩ := h.rest hrest
  obtain ⟨read, hread, hcolumn⟩ := h.column
  rw [texts_concat_text, List.getLast?_concat, Option.getD_some] at hread
  subst hread
  refine ⟨before, read, ?_, rfl, ?_, hcolumn⟩
  · rw [h.lines, List.append_assoc]
    rfl
  · rw [h.line, texts_concat_text, List.length_append, List.length_singleton]

theorem HasRead.hasAt (h : s.HasRead lines done) (hrest : s.rest = taken ++ c :: rest) :
    HasAt done ⟨s.line, s.column + taken.length + 1⟩ c := by
  obtain ⟨before, read, -, rfl, hline, hcolumn⟩ := h.exists_before (by simp [hrest])
  rw [hline, hcolumn, hrest, ← List.append_assoc, ← List.length_append]
  exact hasAt_append_cons before [] (read ++ taken) rest c

theorem HasRead.newline_notMem (h : s.HasRead lines done)
    (hlines : ∀ chars ∈ texts lines, '\n' ∉ chars) : '\n' ∉ s.rest := by
  intro hmem
  obtain ⟨before, read, rfl, -, -, -⟩ := h.exists_before (List.ne_nil_of_mem hmem)
  refine hlines (read ++ s.rest) ?_ (List.mem_append_right _ hmem)
  rw [texts_append]
  exact List.mem_append_right _ List.mem_cons_self

/-- A scanner reads on in its line. -/
theorem HasRead.read (h : s.HasRead lines done) (hrest : s.rest = taken ++ rest)
    (hcomment : ∀ start ∈ comment, HasAt done start '/') :
    HasRead lines done ⟨rest, s.line, s.column + taken.length, comment, s.lines⟩ := by
  obtain ⟨read, hread, hcolumn⟩ := h.column
  refine ⟨h.lines, h.line, ⟨read ++ taken, ?_, ?_⟩, fun hne => h.rest ?_, hcomment⟩
  · rw [hread, hrest, List.append_assoc]
  · rw [hcolumn, List.length_append]
  · rw [hrest]
    exact List.append_ne_nil_of_right_ne_nil _ hne

theorem HasRead.readOut (h : s.HasRead lines done) (hrest : s.rest = taken ++ rest) :
    HasRead lines done ⟨rest, s.line, s.column + taken.length, none, s.lines⟩ :=
  h.read hrest fun _ hmem => absurd hmem (Option.not_mem_none _)

/-- A scanner reads its line to the end, where the comment that is open was open or has started. -/
theorem HasRead.exhaust {column : Nat} (h : s.HasRead lines done)
    (hline : scanLine s.line s.rest s.column s.comment = .exhausted column comment) :
    HasRead lines done ⟨[], s.line, column, comment, s.lines⟩ := by
  have hfrom := from_scanLine s.line s.column s.comment s.rest
  rw [hline] at hfrom
  cases hfrom with
  | exhausted hopen =>
    refine h.read (List.append_nil _).symm fun start hstart => ?_
    rcases hopen start hstart with hstart | ⟨skipped, more, hrest, rfl⟩
    · exact h.comment start hstart
    · exact h.hasAt hrest

/-- A scanner goes on to the next line. -/
theorem HasRead.turn (h : s.HasRead lines done) (hlines : s.lines = .text chars :: left) :
    HasRead lines (done ++ [.text chars]) ⟨chars, s.line + 1, 0, s.comment, left⟩ := by
  refine ⟨?_, ?_, ⟨[], ?_, rfl⟩, fun _ => ⟨done, chars, rfl⟩, fun start hstart => ?_⟩
  · rw [h.lines, hlines, List.append_assoc]
    rfl
  · rw [texts_concat_text, List.length_append, h.line]
    rfl
  · rw [texts_concat_text, List.getLast?_concat]
    rfl
  · exact (h.comment start hstart).append _

/-- A scanner goes over a line that cannot be read. -/
theorem HasRead.fail {reason : String} (h : s.HasRead lines done) (hrest : s.rest = [])
    (hlines : s.lines = .unreadable reason :: left) :
    HasRead lines (done ++ [.unreadable reason]) { s with lines := left } := by
  refine ⟨?_, ?_, ?_, fun hne => absurd hrest hne, fun start hstart => ?_⟩
  · rw [h.lines, hlines, List.append_assoc]
    rfl
  · rw [texts_concat_unreadable]
    exact h.line
  · rw [texts_concat_unreadable]
    exact h.column
  · exact (h.comment start hstart).append _

/-- The four faults in which a scan of some lines can end, and the scanner after each: before a
character or behind the lines with a comment, where it meets the fault again; or behind the line
with a quote or the line that could not be read, as if these were not there. -/
inductive Stops (lines : List Line) (s : Scanner) : Fault → Scanner → Prop
  | unexpectedCharacter {span c s'} : HasAt lines span c →
    s'.scan = .error (.unexpectedCharacter span c) s' →
    Stops lines s (.unexpectedCharacter span c) s'
  | unterminatedComment {start s'} : HasAt lines start '/' →
    s'.scan = .error (.unterminatedComment start) s' →
    Stops lines s (.unterminatedComment start) s'
  | unterminatedString {before read more s'} :
    lines = before ++ .text (read ++ '"' :: more) :: s'.lines → '"' ∉ more → s'.rest = [] →
    s'.line = (texts before).length + 1 → s'.comment = none →
    Stops lines s (.unterminatedString ⟨(texts before).length + 1, read.length + 1⟩) s'
  | unreadable {before reason s'} {read : List (List Char)} :
    lines = before ++ .unreadable reason :: s'.lines →
    s.lines = read.map .text ++ .unreadable reason :: s'.lines → s'.rest = [] →
    s'.line = (texts before).length →
    (∀ more, ({ s with lines := read.map .text ++ more } : Scanner).scan =
      ({ s' with lines := more } : Scanner).scan) →
    Stops lines s (.unreadable ((texts before).length + 1) reason) s'

/-- How a scan of some lines ends, behind the lines that are done then. -/
inductive Scanned (lines : List Line) (s : Scanner) :
    EStateM.Result Fault Scanner (Option Located) → Prop
  | token {done token c} {s' : Scanner} : s'.HasRead lines done → HasAt done token.span c →
    ((∀ chars ∈ texts lines, '\n' ∉ chars) → Spells done token) →
    Scanned lines s (.ok (some token) s')
  | finish {s' : Scanner} : s'.HasRead lines lines → s'.rest = [] → Scanned lines s (.ok none s')
  | fault {done fault} {s' : Scanner} : s'.HasRead lines done → Stops lines s fault s' →
    Scanned lines s (.error fault s')

/-- What is scanned from the next line on is scanned from the line before it. -/
theorem Scanned.turn {result : EStateM.Result Fault Scanner (Option Located)} (s' : Scanner)
    (hlines : s.lines = .text chars :: s'.lines)
    (hscan : ∀ more, ({ s with lines := .text chars :: more } : Scanner).scan =
      ({ s' with lines := more } : Scanner).scan)
    (h : s'.Scanned lines result) : s.Scanned lines result := by
  cases h with
  | token hread hat hspells => exact .token hread hat hspells
  | finish hread hrest => exact .finish hread hrest
  | fault hread hstops =>
    refine .fault hread ?_
    cases hstops with
    | unexpectedCharacter hat hagain => exact .unexpectedCharacter hat hagain
    | unterminatedComment hat hagain => exact .unterminatedComment hat hagain
    | unterminatedString hbefore hmore hrest hline hcomment =>
      exact .unterminatedString hbefore hmore hrest hline hcomment
    | @unreadable before reason _ read hbefore hahead hrest hline hreplace =>
      have hlines' := hlines.trans (congrArg (.text chars :: ·) hahead)
      exact @Stops.unreadable _ _ _ _ _ (chars :: read) hbefore hlines' hrest hline
        fun more => (hscan _).trans (hreplace more)

/-- A scan leaves a scanner as far in the lines as it has read. -/
theorem HasRead.scan (h : s.HasRead lines done) : s.Scanned lines s.scan := by
  obtain ⟨rest, line, column, comment, left⟩ := s
  show Scanned lines _ (scan.go rest line column comment left)
  fun_induction scan.go rest line column comment left generalizing done with
  | case1 left rest line column comment token rest' column' hline =>
    have hfrom := from_scanLine line column comment rest
    rw [hline] at hfrom
    cases hfrom with
    | token htaken hspelled =>
      obtain ⟨⟨skipped, c, more, hrest, hspan, -⟩, taken, htaken, rfl⟩ := htaken
      refine .token (h.readOut htaken) (hspan ▸ h.hasAt hrest) fun hlines => ?_
      exact h.spells (hspelled (h.newline_notMem hlines))
  | case2 left rest line column comment fault rest' column' hline =>
    have hfrom := from_scanLine line column comment rest
    rw [hline] at hfrom
    cases hfrom with
    | unexpectedCharacter hrest hfault hagain =>
      subst hfault
      refine .fault (h.readOut hrest) (.unexpectedCharacter (h.append (h.hasAt hrest)) ?_)
      rw [Scanner.scan, scan.go, hagain]
    | @unterminatedString skipped more hrest hmore =>
      obtain ⟨before, read, hlines, -, rfl, rfl⟩ := h.exists_before (by simp [hrest])
      have hread := h.readOut (List.append_nil _).symm
      rw [hrest, ← List.append_assoc] at hlines
      rw [← List.length_append]
      exact .fault hread (.unterminatedString hlines hmore rfl rfl rfl)
  | case3 rest line column comment column' comment' hline chars left ih =>
    refine .turn ⟨chars, line + 1, 0, comment', left⟩ rfl (fun more => ?_)
      (ih ((h.exhaust hline).turn rfl))
    rw [Scanner.scan, Scanner.scan, scan.go, hline]
  | case4 rest line column comment column' comment' hline reason left =>
    have hread := h.exhaust hline
    obtain rfl : line = (texts done).length := h.line
    have hahead : .unreadable reason :: left = [].map .text ++ .unreadable reason :: left := rfl
    refine .fault (hread.fail rfl rfl) (.unreadable h.lines hahead rfl rfl fun more => ?_)
    rw [Scanner.scan, Scanner.scan, scan.go, scan.go, hline, scanLine]
    rfl
  | case5 rest line column comment column' start hline =>
    have hread := h.exhaust hline
    refine .fault hread (.unterminatedComment (hread.append (hread.comment start rfl)) ?_)
    rw [Scanner.scan, scan.go, scanLine]
  | case6 rest line column comment column' hline =>
    have hdone : lines = done := h.lines.trans (List.append_nil _)
    exact .finish (hdone ▸ h.exhaust hline) rfl

theorem HasRead.scan_token {token : Located} (h : s.HasRead lines done)
    (hscan : s.scan = .ok (some token) s') : ∃ done' c, s'.HasRead lines done' ∧
      HasAt done' token.span c ∧ ((∀ chars ∈ texts lines, '\n' ∉ chars) → Spells done' token) := by
  have hscanned := h.scan
  rw [hscan] at hscanned
  cases hscanned with
  | token h' hat hspells => exact ⟨_, _, h', hat, hspells⟩

theorem HasRead.scan_end (h : s.HasRead lines done) (hscan : s.scan = .ok none s') :
    s'.HasRead lines lines ∧ s'.rest = [] := by
  have hscanned := h.scan
  rw [hscan] at hscanned
  cases hscanned with
  | finish h' hrest => exact ⟨h', hrest⟩

theorem HasRead.scan_fault {fault : Fault} (h : s.HasRead lines done)
    (hscan : s.scan = .error fault s') :
    ∃ done', s'.HasRead lines done' ∧ Stops lines s fault s' := by
  have hscanned := h.scan
  rw [hscan] at hscanned
  cases hscanned with
  | fault h' hstops => exact ⟨_, h', hstops⟩

/-! ### Streams -/

variable {before : List Located}

/-- The tokens of some lines are spelled where they stand. -/
theorem spells_of_mem_stream (h : s.HasRead lines done)
    (hlines : ∀ chars ∈ texts lines, '\n' ∉ chars)
    (hbefore : ∀ token ∈ before, Spells lines token) :
    ∀ token ∈ (s.stream before).tokens, Spells lines token := by
  fun_induction s.stream before generalizing done with
  | case1 s before token s' hscan _ ih =>
    obtain ⟨done', -, h', -, hspells⟩ := h.scan_token hscan
    have htoken : Spells lines token := h'.lines ▸ (hspells hlines).append s'.lines
    exact ih h' (List.forall_mem_cons.2 ⟨htoken, hbefore⟩)
  | case2 | case3 => simpa using hbefore

/-- The fault that ends a stream is one in which a scan of its lines stops. -/
theorem exists_stops_of_stream {fault : Fault} (h : s.HasRead lines done)
    (hfault : (s.stream before).fault? = some fault) : ∃ s₁ s₂, Stops lines s₁ fault s₂ := by
  fun_induction s.stream before generalizing done with
  | case1 s before token s' hscan _ ih =>
    obtain ⟨done', -, h', -, -⟩ := h.scan_token hscan
    exact ih h' hfault
  | case2 => cases hfault
  | case3 s before fault' s' hscan =>
    cases hfault
    obtain ⟨-, -, hstops⟩ := h.scan_fault hscan
    exact ⟨s, s', hstops⟩

/-- A stream without a fault ends behind its last line. -/
theorem exists_position_of_stream (h : s.HasRead lines done)
    (hfault : (s.stream before).fault? = none) : ∃ s' : Scanner, s'.HasRead lines lines ∧
      s'.rest = [] ∧ (s.stream before).position = s'.position := by
  fun_induction s.stream before generalizing done with
  | case1 s before token s' hscan _ ih =>
    obtain ⟨done', -, h', -, -⟩ := h.scan_token hscan
    exact ih h' hfault
  | case2 s before s' hscan =>
    obtain ⟨h', hrest⟩ := h.scan_end hscan
    exact ⟨s', h', hrest, rfl⟩
  | case3 => cases hfault

end Scanner

end JackLang
