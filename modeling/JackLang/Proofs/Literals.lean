import JackLang.Compilation
import JackLang.Proofs.Lexis.Spelling
import JackLang.Proofs.Listing
import JackLang.Proofs.Traffic

/-! Integer literals of any length. A literal is read as its value or the largest number that there
is, and a term that starts at it is compiled to the value or ends the compilation: no literal stands
for another number (`literal_exact_or_rejected`). -/

namespace JackLang

/-! ### Reading -/

/-- Digits that no other digit follows are one literal, and the lexer stops behind them. -/
theorem Lexer.advance_digits {digits rest : List Char} (hne : digits ≠ [])
    (hdigits : ∀ c ∈ digits, c.isDigit) (hrest : ∀ c ∈ rest.head?, ¬ c.isDigit)
    (line column : Nat) (lines : List Line) (current : Option Located) :
    let literal : Located :=
      ⟨.integer (min (Nat.ofDigitChars 10 digits 0) maxLiteral), ⟨line, column + 1⟩⟩
    (⟨⟨digits ++ rest, line, column, none, lines⟩, none, current⟩ : Lexer).advance =
      .ok (some literal)
        ⟨⟨rest, line, column + digits.length, none, lines⟩, none, some literal⟩ := by
  intro literal
  obtain ⟨c, cs, rfl⟩ := List.exists_cons_of_ne_nil hne
  have hc := isWordChar_of_isDigit (hdigits c List.mem_cons_self)
  have hslash : c ≠ '/' := by
    rintro rfl
    exact absurd hc (by decide)
  have hline : scanLine line (c :: cs ++ rest) column none =
      .token literal rest (column + (c :: cs).length) := by
    rw [List.cons_append, scanLine_of_not_isBlank (not_isBlank_of_isWordChar hc)
      fun heq => absurd heq hslash]
    exact readToken_of_spelled (.integer hne hdigits) hrest
  refine Lexer.advance_of_peek (Lexer.peek_of_scan rfl ?_)
  rw [Scanner.scan, Scanner.scan.go, hline]

/-! ### Terms -/

namespace Procedure

variable {α β : Type} {p : Procedure α} {reader reader' : Reader} {events : List Event}
  {answer : Except Fault α} {cx : Context} {value : Nat}

/-- What comes behind a first part that has nothing to do. -/
theorem runs_bind_iff {next : α → Procedure β} {answer : Except Fault β} {a : α}
    (h : p.Runs reader [] (.ok a) reader) :
    (p >>= next).Runs reader events answer reader' ↔
      (next a).Runs reader events answer reader' := by
  refine ⟨fun h' => ?_, fun h' => .bind h h'⟩
  cases h' with
  | bind hfirst hnext =>
    obtain ⟨rfl, heq, rfl⟩ := h.unique hfirst
    cases heq
    exact hnext
  | bindFault hfirst => cases (h.unique hfirst).2.1

/-- A term that starts at an integer has that and nothing else to look at. -/
theorem runs_integer_iff (hcurrent : reader.view.current? = some (.integer value))
    {answer : Except Fault Term} :
    (termBody cx).Runs reader events answer reader' ↔
      Runs (do
        if maxConstant < value then peek (throw (.integerTooLarge reader.view.span value))
        advance
        return Term.integer value) reader events answer reader' := by
  have hspan : (peek Parser.span).Runs reader [] (.ok reader.view.span) reader := by
    rw [← View.span_stream]
    exact .look (.answer _ _)
  have hfound : (peek Parser.current).Runs reader [] (.ok (some (.integer value))) reader := by
    rw [← hcurrent, ← View.current?_stream]
    exact .look (.answer _ _)
  rw [termBody, runs_bind_iff hspan, runs_bind_iff hfound]

/-- An integer that is too large is no term. -/
theorem error_of_integer (hcurrent : reader.view.current? = some (.integer value))
    (hlarge : maxConstant < value) {answer : Except Fault Term}
    (h : (call (.termBody cx)).Runs reader events answer reader') :
    answer = .error (.integerTooLarge reader.view.span value) := by
  cases h with | call h
  have hthrow : (peek (throw (.integerTooLarge reader.view.span value) : Parser Unit)).Runs
      reader [] (.error (.integerTooLarge reader.view.span value)) reader :=
    .look (.answer _ _)
  rw [Production.procedure, runs_integer_iff hcurrent] at h
  dsimp only at h
  rw [if_pos hlarge] at h
  exact ((Runs.bindFault hthrow).unique h).2.1

/-- Another integer is a term of its own. -/
theorem eq_of_integer (hcurrent : reader.view.current? = some (.integer value))
    (hsmall : value ≤ maxConstant) {t : Term}
    (h : (call (.termBody cx)).Runs reader events (.ok t) reader') : t = .integer value := by
  cases h with | call h
  rw [Production.procedure, runs_integer_iff hcurrent] at h
  dsimp only at h
  rw [if_neg (Nat.not_lt.2 hsmall)] at h
  cases h with | bind _ hreturn
  cases hreturn
  rfl

/-- A term that cannot be compiled ends every run that comes to it. -/
theorem Runs.error_of_reach {view : View} {fault : Fault}
    (hfatal : ∀ {cx : Context} {reader reader' : Reader} {events : List Event}
      {answer : Except Fault Term}, reader.view = view →
      (Procedure.call (.termBody cx)).Runs reader events answer reader' → answer = .error fault)
    (h : p.Runs reader events answer reader') (hmem : .reach .termBody view ∈ events) :
    answer = .error fault := by
  -- What goes on behind a part that comes to the term has an answer of it, which there is not.
  induction h with
  | answer => cases hmem
  | look _ ih => exact ih hmem
  | read _ _ ih => exact ih ((List.mem_cons.1 hmem).resolve_left nofun)
  | readFault => cases (List.mem_cons.1 hmem).resolve_left nofun
  | descend _ ih => exact ih hmem
  | ascend _ ih => exact ih hmem
  | @call _ p reader _ _ _ hrun ih =>
    obtain heq | hmem := List.mem_cons.1 hmem
    · cases p with
      | termBody cx => exact hfatal (Event.reach.inj heq).2.symm (.call hrun)
      | _ => cases heq
    · exact ih hmem
  | done _ ih => cases ih ((List.mem_cons.1 hmem).resolve_left nofun)
  | yield _ _ ih ih' =>
    obtain hmem | hmem := List.mem_append.1 ((List.mem_cons.1 hmem).resolve_left nofun)
    · cases ih hmem
    · exact ih' hmem
  | loopFault _ ih =>
    cases ih ((List.mem_cons.1 hmem).resolve_left nofun)
    rfl
  | bind _ _ ih ih' =>
    obtain hmem | hmem := List.mem_append.1 hmem
    · cases ih hmem
    · exact ih' hmem
  | bindFault _ ih =>
    cases ih hmem
    rfl

end Procedure

open Procedure (program call)

/-- **Integer literals are exact or rejected.** Digits, however many, are read as one literal that
holds their value, or the largest number if that is smaller. A compilation that comes to a term
starting there fails at the literal if the value is too large for a constant; otherwise the term is
compiled, if it is, to the one line that pushes the value. -/
theorem literal_exact_or_rejected {digits : List Char} (hne : digits ≠ [])
    (hdigits : ∀ c ∈ digits, c.isDigit) :
    let value := Nat.ofDigitChars 10 digits 0
    let token := Token.integer (min value maxLiteral)
    (∀ rest line column lines current, (∀ c ∈ rest.head?, ¬ c.isDigit) →
      (⟨⟨digits ++ rest, line, column, none, lines⟩, none, current⟩ : Lexer).advance =
        .ok (some ⟨token, ⟨line, column + 1⟩⟩)
          ⟨⟨rest, line, column + digits.length, none, lines⟩, none,
            some ⟨token, ⟨line, column + 1⟩⟩⟩) ∧
    (∀ lines traced events answer reader view,
      program.Runs (.ofLines lines) events answer reader → .reach .termBody view ∈ events →
      view.current? = some token → maxConstant < value →
      ∃ fault, compile lines traced = .error fault ∧ fault.report =
        .lexical view.span
          s!"integer constant {min value maxLiteral} exceeds maximum value {maxConstant}") ∧
    ∀ cx reader events term reader' code,
      (call (.termBody cx)).Runs reader events (.ok term) reader' →
      reader.view.current? = some token → value ≤ maxConstant →
      (term.emit code).render = code.render ++ s!"push constant {value}\n" := by
  intro value token
  refine ⟨fun rest line column lines current hrest => ?_, ?_, ?_⟩
  · exact Lexer.advance_digits hne hdigits hrest line column lines current
  · intro lines traced events answer reader view hrun hmem hcurrent hlarge
    have hlarge : maxConstant < min value maxLiteral := Nat.lt_min.2 ⟨hlarge, by decide⟩
    have hanswer : answer = .error (.integerTooLarge view.span (min value maxLiteral)) := by
      refine hrun.error_of_reach (fun heq hterm => ?_) hmem
      subst heq
      exact Procedure.error_of_integer hcurrent hlarge hterm
    obtain ⟨_, _, _, _, hparse, -⟩ := Procedure.exists_run lines
    rw [← (hrun.unique hparse).2.1] at hanswer
    refine ⟨.integerTooLarge view.span (min value maxLiteral), ?_, rfl⟩
    rw [compile_eq, hanswer]
    rfl
  · intro cx reader events term reader' code hrun hcurrent hsmall
    have hmin : min value maxLiteral = value :=
      Nat.min_eq_left (Nat.le_trans hsmall (by decide))
    obtain rfl := Procedure.eq_of_integer hcurrent (hmin.symm ▸ hsmall) hrun
    have hcount : value ≤ maxCount := Nat.le_trans hsmall (by decide)
    rw [Term.emit, Code.render_push, hmin, Instr.text, writeCount_eq hcount, ← String.toList_inj]
    simp [Segment.text, toString]

/-- Zeros in front: a literal that saturates, one that is just too large, and one that is not. -/
theorem literal_exact_or_rejected_zeros :
    (⟨⟨"004294967296;".toList, 1, 0, none, []⟩, none, none⟩ : Lexer).advance =
        .ok (some ⟨.integer 4294967295, ⟨1, 1⟩⟩)
          ⟨⟨[';'], 1, 12, none, []⟩, none, some ⟨.integer 4294967295, ⟨1, 1⟩⟩⟩ ∧
      (∃ fault, compile [.text "class A { function int f() { return 00032768; } }".toList] false =
          .error fault ∧
        fault.report = .lexical ⟨1, 37⟩ "integer constant 32768 exceeds maximum value 32767") ∧
      ∃ events term reader,
        (call (.termBody ⟨"A", .function, {}⟩)).Runs
            { lexer := { scanner := { lines := [] }, current := some ⟨.integer 32767, ⟨1, 1⟩⟩ } }
            events (.ok term) reader ∧
          (term.emit #[]).render = "push constant 32767\n" := by
  refine ⟨?_, ?_, ?_⟩
  · have hread := (literal_exact_or_rejected
      (by decide : ['0', '0', '4', '2', '9', '4', '9', '6', '7', '2', '9', '6'] ≠ [])
      (List.all_eq_true.1 (by decide))).1 [';'] 1 0 [] none (by rintro _ ⟨⟩; decide)
    exact hread
  · have hreach : (program.run? 60
        (.ofLines [.text "class A { function int f() { return 00032768; } }".toList])).any
        (fun run => decide (.reach .termBody ⟨some (.integer 32768), ⟨1, 37⟩, 2⟩ ∈ run.1)) =
          true := by decide +kernel
    obtain ⟨⟨events, answer, reader⟩, hrun, hmem⟩ := (Option.any_eq_true _ _).1 hreach
    have hrejected := (literal_exact_or_rejected
      (by decide : ['0', '0', '0', '3', '2', '7', '6', '8'] ≠ [])
      (List.all_eq_true.1 (by decide))).2.1 _ false events answer reader _
      (Procedure.runs_of_run? hrun) (of_decide_eq_true hmem) rfl (by decide)
    exact hrejected
  · have hdone : ((call (.termBody ⟨"A", .function, {}⟩)).run? 20
        { lexer := { scanner := { lines := [] }, current := some ⟨.integer 32767, ⟨1, 1⟩⟩ } }).any
        (fun run => run.2.1.toOption.isSome) = true := by decide +kernel
    obtain ⟨⟨events, answer, reader⟩, hrun, hsome⟩ := (Option.any_eq_true _ _).1 hdone
    cases answer with
    | error fault => cases hsome
    | ok term =>
      have hruns := Procedure.runs_of_run? hrun
      have hexact := (literal_exact_or_rejected
        (by decide : ['0', '0', '0', '3', '2', '7', '6', '7'] ≠ [])
        (List.all_eq_true.1 (by decide))).2.2 _ _ events term reader #[] hruns rfl (by decide)
      exact ⟨events, term, reader, hruns, hexact⟩

end JackLang
