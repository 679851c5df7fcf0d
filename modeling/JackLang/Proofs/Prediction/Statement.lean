import JackLang.Parser.Statement
import JackLang.Proofs.Prediction.Expression

/-! Statements are parsed predictively. The keyword at the start of a statement tells what may stand
behind it (`statementTails`), and `else` is all that could still belong to a statement that is
complete. -/

namespace JackLang.Parser

open TokenStream Syntax
open scoped Computability

/-! ### Languages -/

/-- A statement in a list does not go on with another branch. -/
def EndsStatement (t : Option Token) : Prop := t ≠ some (.keyword .else)

def statementWords : Language Leaf := wordsOf Statement.leaves

/-- Statements in braces. -/
def blocks : Language Leaf := between .openBrace .closeBrace (wordsOf Statement.leavesAll)

def conditions : Language Leaf := between .openParen .closeParen expressions

/-- The value of an assignment. -/
def values : Language Leaf := word [.symbol .equal] * (expressions * word [.symbol .semicolon])

theorem exists_mem_blocks : ∃ us, us ∈ blocks := exists_mem_between ⟨_, [], rfl⟩

theorem exists_mem_values : ∃ us, us ∈ values :=
  exists_mem_mul (exists_mem_word _) (exists_mem_mul ⟨_, this_mem⟩ (exists_mem_word _))

/-- What stands behind the keyword of a statement. -/
def statementTails : Keyword → Language Leaf
  | .let => names .assigned * (between .openBracket .closeBracket expressions * values + values)
  | .if => conditions * (blocks * (1 + word [.keyword .else] * blocks))
  | .while => conditions * blocks
  | .do => names .called * (callTails * word [.symbol .semicolon])
  | .return => (1 + expressions) * word [.symbol .semicolon]
  | _ => 0

theorem wordsOf_leavesAll : wordsOf Statement.leavesAll = statementWords∗ := by
  have hall (statements : List Syntax.Statement) :
      Statement.leavesAll statements = statements.flatMap Statement.leaves := by
    induction statements with
    | nil => rfl
    | cons statement rest ih => simp [Statement.leavesAll, ih]
  rw [statementWords, kstar_wordsOf, funext hall]

theorem mem_values_iff {us : List Leaf} : us ∈ values ↔
    ∃ e : Syntax.Expression, us = .symbol .equal :: (e.leaves ++ [.symbol .semicolon]) := by
  rw [values, mem_word_mul_iff]
  refine ⟨?_, ?_⟩
  · rintro ⟨_, ⟨_, ⟨e, rfl⟩, _, rfl, rfl⟩, rfl⟩
    exact ⟨e, rfl⟩
  · rintro ⟨e, rfl⟩
    exact ⟨_, ⟨_, ⟨e, rfl⟩, _, rfl, rfl⟩, rfl⟩

/-- A keyword and what may stand behind it make a statement. -/
theorem mem_statementWords {k : Keyword} {us : List Leaf} (hus : us ∈ statementTails k) :
    .keyword k :: us ∈ statementWords := by
  cases k with
  | «let» =>
    obtain ⟨name, us, htarget, rfl⟩ := mem_names_mul_iff.1 hus
    rcases htarget with htarget | htarget
    · obtain ⟨_, hindex, _, hvalue, rfl⟩ := Language.mem_mul.1 htarget
      obtain ⟨_, ⟨index, rfl⟩, rfl⟩ := mem_between_iff.1 hindex
      obtain ⟨value, rfl⟩ := mem_values_iff.1 hvalue
      exact ⟨.assignElement name index value, rfl⟩
    · obtain ⟨value, rfl⟩ := mem_values_iff.1 htarget
      exact ⟨.assign name value, rfl⟩
  | «if» =>
    obtain ⟨_, hcondition, _, ⟨_, hbody, us, helse, rfl⟩, rfl⟩ := Language.mem_mul.1 hus
    obtain ⟨_, ⟨condition, rfl⟩, rfl⟩ := mem_between_iff.1 hcondition
    obtain ⟨_, ⟨body, rfl⟩, rfl⟩ := mem_between_iff.1 hbody
    rcases helse with hnone | helse
    · obtain rfl := (Language.mem_one us).1 hnone
      exact ⟨.ifThen condition body, by simp [Statement.leaves]⟩
    · obtain ⟨_, halternative, rfl⟩ := mem_word_mul_iff.1 helse
      obtain ⟨_, ⟨alternative, rfl⟩, rfl⟩ := mem_between_iff.1 halternative
      exact ⟨.ifElse condition body alternative, rfl⟩
  | «while» =>
    obtain ⟨us, hcondition, us', hbody, rfl⟩ := Language.mem_mul.1 hus
    obtain ⟨_, ⟨condition, rfl⟩, rfl⟩ := mem_between_iff.1 hcondition
    obtain ⟨_, ⟨body, rfl⟩, rfl⟩ := mem_between_iff.1 hbody
    exact ⟨.while condition body, rfl⟩
  | «do» =>
    obtain ⟨name, _, ⟨us, hcall, _, rfl, rfl⟩, rfl⟩ := mem_names_mul_iff.1 hus
    obtain ⟨qualifier, subroutine, arguments, heq⟩ := exists_call name hcall
    refine ⟨.call qualifier subroutine arguments, ?_⟩
    rw [Statement.leaves, ← List.append_assoc, heq]
    rfl
  | «return» =>
    obtain ⟨us, hvalue, _, rfl, rfl⟩ := Language.mem_mul.1 hus
    rcases hvalue with hvalue | ⟨value, rfl⟩
    · obtain rfl := (Language.mem_one us).1 hvalue
      exact ⟨.return none, rfl⟩
    · exact ⟨.return (some value), rfl⟩
  | _ => cases hus

theorem exists_statementTail {us : List Leaf} (hus : us ∈ statementWords) :
    ∃ k, ∃ vs ∈ statementTails k, us = .keyword k :: vs := by
  obtain ⟨statement, rfl⟩ := hus
  have hcondition (e : Syntax.Expression) :
      enclosed .openParen .closeParen e.leaves ∈ conditions := mem_between_iff.2 ⟨_, ⟨e, rfl⟩, rfl⟩
  have hblock (statements : List Syntax.Statement) :
      enclosed .openBrace .closeBrace (Statement.leavesAll statements) ∈ blocks :=
    mem_between_iff.2 ⟨_, ⟨statements, rfl⟩, rfl⟩
  cases statement with
  | assign target value =>
    exact ⟨.let, _, mem_names_mul_iff.2 ⟨target, _, .inr (mem_values_iff.2 ⟨value, rfl⟩), rfl⟩, rfl⟩
  | assignElement array index value =>
    have hindex : enclosed .openBracket .closeBracket index.leaves ∈
        between .openBracket .closeBracket expressions := mem_between_iff.2 ⟨_, ⟨index, rfl⟩, rfl⟩
    have hvalue := mem_values_iff.2 ⟨value, rfl⟩
    exact ⟨.let, _, mem_names_mul_iff.2
      ⟨array, _, .inl (Language.append_mem_mul hindex hvalue), rfl⟩, rfl⟩
  | ifThen condition body =>
    refine ⟨.if, _, Language.append_mem_mul (hcondition condition)
      (Language.append_mem_mul (hblock body) (.inl Language.nil_mem_one)), ?_⟩
    simp [Statement.leaves]
  | ifElse condition body alternative =>
    exact ⟨.if, _, Language.append_mem_mul (hcondition condition)
      (Language.append_mem_mul (hblock body) (.inr (mem_word_mul_iff.2 ⟨_, hblock alternative, rfl⟩))), rfl⟩
  | «while» condition body =>
    exact ⟨.while, _, Language.append_mem_mul (hcondition condition) (hblock body), rfl⟩
  | call qualifier subroutine arguments =>
    obtain ⟨name, us, hus, heq⟩ := exists_callTail qualifier subroutine arguments
    refine ⟨.do, _, mem_names_mul_iff.2 ⟨name, _, Language.append_mem_mul hus rfl, rfl⟩, ?_⟩
    rw [Statement.leaves, ← List.append_assoc, heq]
    rfl
  | «return» value =>
    cases value with
    | none =>
      exact ⟨.return, _, Language.append_mem_mul (.inl Language.nil_mem_one) rfl, rfl⟩
    | some value =>
      exact ⟨.return, _, Language.append_mem_mul (.inr ⟨value, rfl⟩) rfl, rfl⟩

/-! ### Parsers -/

variable {α : Type} {origin : TokenStream} {cx : Context} {B : Blame} {Follow : Option Token → Prop}
  {Q : α → List Leaf → Prop} {h : List Leaf} {s : TokenStream} {expression : Parser Expression}
  {block : Parser (List Statement)}

/-- The keyword of a statement is read, and then its tail. -/
theorem statement_bind {k : Keyword} {f : Unit → Parser α} (hk : s.current? = some (.keyword k))
    (hf : Predicts origin B (statementTails k) Follow Q (f ()) (h ++ [.keyword k]) s.tail) :
    Predicts origin B statementWords Follow Q (advance >>= f) h s := by
  refine .advance_bind (.keyword k) _ hk (fun _ => mem_statementWords) ?_ hf
  intro us hus r _ hbegins
  obtain ⟨k', vs, hvs, rfl⟩ := exists_statementTail hus
  cases (begins_cons_iff.1 hbegins).1
  exact ⟨vs, hvs, rfl⟩

section parsers

variable (hexpression : ∀ h s,
  Predicts origin (Misuse origin cx) expressions EndsExpression Unknown expression h s)

include hexpression

theorem value_predicts {f : Expression → α} :
    Predicts origin (Misuse origin cx) values Follow Unknown
      (do expectSymbol .equal; let value ← expression; expectSymbol .semicolon; return f value) h s :=
  .expectSymbol_bind ⟨_, Language.append_mem_mul this_mem rfl⟩ fun _ _ =>
    .closed (hexpression _ _) (endsExpression_of_mem (by simp)) fun _ _ _ _ => trivial

theorem letStatement_predicts (hk : s.current? = some (.keyword .let)) :
    Predicts origin (Misuse origin cx) statementWords EndsStatement Unknown
      (letStatement cx expression) h s := by
  have hvalue : ∃ us, us ∈ between .openBracket .closeBracket expressions * values + values :=
    exists_mem_values.imp fun _ => .inr
  refine statement_bind hk (.bind hvalue (fun _ _ _ _ => trivial) (.identifier .assigned)
    fun (name, span) ls s₁ _ _ hname => ?_)
  obtain ⟨heq, hplace⟩ := hname
  rw [heq]
  refine .resolve_bind hvalue (.assigned hplace) fun target => .look currentSymbol_run ?_
  split
  · next hbracket =>
    refine .left (fun us hus r _ hstart => ?_) ?_
    · obtain ⟨e, rfl⟩ := mem_values_iff.1 hus
      cases hstart.trans (symbol?_eq_some_iff.1 hbracket)
    · rw [between_mul]
      refine .advance_word_bind (.symbol .openBracket) (symbol?_eq_some_iff.1 hbracket) ?_
      exact .closed_bind exists_mem_values (hexpression _ _) (endsExpression_of_mem (by simp))
        fun _ _ _ _ _ => value_predicts hexpression
  · next hbracket =>
    refine .right (fun us hus r _ hstart => ?_) (value_predicts hexpression)
    rw [between_mul] at hus
    obtain ⟨vs, -, rfl⟩ := mem_word_mul_iff.1 hus
    exact hbracket (symbol?_eq_some_iff.2 hstart.symm)

theorem condition_predicts : Predicts origin (Misuse origin cx) conditions Anything Unknown
    (condition expression) h s :=
  .expectSymbol_bind ⟨_, Language.append_mem_mul this_mem rfl⟩ fun _ _ =>
    .closed (hexpression _ _) (endsExpression_of_mem (by simp)) fun _ _ _ _ => trivial

theorem doStatement_predicts (hk : s.current? = some (.keyword .do)) :
    Predicts origin (Misuse origin cx) statementWords EndsStatement Unknown
      (doStatement cx expression) h s := by
  obtain ⟨us, hus⟩ := exists_mem_callTails
  refine statement_bind hk (.bind ⟨_, Language.append_mem_mul hus rfl⟩
    (fun _ _ _ _ => trivial) (.identifier .called) fun (name, span) ls s₁ _ _ hname => ?_)
  obtain ⟨heq, hplace⟩ := hname
  rw [heq]
  exact .closed (callOf_predicts hexpression hplace) trivial fun _ _ _ _ => trivial

theorem returnStatement_predicts (hk : s.current? = some (.keyword .return)) :
    Predicts origin (Misuse origin cx) statementWords EndsStatement Unknown
      (returnStatement expression) h s := by
  refine statement_bind hk (.look currentSymbol_run ?_)
  split
  · next hnone =>
    have hvalue : Predicts origin (Misuse origin cx) (1 + expressions)
        (· = some (.symbol .semicolon)) Unknown (Pure.pure none : Parser (Option Expression))
        (h ++ [.keyword .return]) s.tail := by
      refine .left (fun us hus r _ hstart => ?_) (.pure trivial)
      obtain ⟨e, rfl⟩ := hus
      obtain ⟨t, ts, hts, -, ht⟩ := e.exists_tokens_eq_cons
      rw [Expression.texts_leaves, hts, symbol?_eq_some_iff.1 hnone] at hstart
      exact ht (Option.some.inj hstart)
    exact .closed hvalue rfl fun _ _ _ _ => trivial
  · next hsome =>
    have hvalue : Predicts origin (Misuse origin cx) (1 + expressions)
        (· = some (.symbol .semicolon)) Unknown (some <$> expression)
        (h ++ [.keyword .return]) s.tail := by
      refine .right (fun us hus r hfollow hstart => ?_) ?_
      · rw [(Language.mem_one us).1 hus, texts_nil, List.nil_append, hfollow] at hstart
        exact hsome (symbol?_eq_some_iff.2 hstart.symm)
      · refine .map ((hexpression _ _).mono (fun _ _ _ _ hB => hB) ?_ fun _ _ _ hQ => hQ)
          fun _ _ _ _ => trivial
        rintro _ rfl
        exact endsExpression_of_mem (by simp)
    exact .closed hvalue rfl fun _ _ _ _ => trivial

variable (hblock : ∀ h s, Predicts origin (Misuse origin cx) blocks Anything Unknown block h s)

include hblock

theorem ifStatement_predicts (hk : s.current? = some (.keyword .if)) :
    Predicts origin (Misuse origin cx) statementWords EndsStatement Unknown
      (ifStatement expression block) h s := by
  have halternative : ∃ us, us ∈ 1 + word [.keyword .else] * blocks :=
    ⟨[], .inl Language.nil_mem_one⟩
  refine statement_bind hk (.bind (exists_mem_mul exists_mem_blocks halternative)
    (fun _ _ _ _ => trivial) (condition_predicts hexpression) fun condition ls s₁ _ _ _ => ?_)
  refine .bind halternative (fun _ _ _ _ => trivial) (hblock _ _)
    fun body ls' s₂ _ _ _ => .look currentKeyword_run ?_
  split
  · next helse =>
    have hcurrent := keyword?_eq_some_iff.1 helse
    refine .right (fun us hus r hfollow hstart => ?_) ?_
    · rw [(Language.mem_one us).1 hus, texts_nil, List.nil_append] at hstart
      exact hfollow (hstart.trans hcurrent)
    · refine .advance_word_bind (.keyword .else) hcurrent ?_
      exact .bind_pure (hblock _ _).followed fun _ _ _ _ => trivial
  · next helse =>
    refine .left (fun us hus r _ hstart => ?_) (.pure trivial)
    obtain ⟨vs, -, rfl⟩ := mem_word_mul_iff.1 hus
    exact helse (keyword?_eq_some_iff.2 hstart.symm)

theorem whileStatement_predicts (hk : s.current? = some (.keyword .while)) :
    Predicts origin (Misuse origin cx) statementWords EndsStatement Unknown
      (whileStatement expression block) h s := by
  refine statement_bind hk (.bind exists_mem_blocks (fun _ _ _ _ => trivial)
    (condition_predicts hexpression) fun condition ls s₁ _ _ _ => ?_)
  exact .bind_pure (hblock _ _).followed fun _ _ _ _ => trivial

end parsers

/-! ### Lists of statements -/

theorem separates_statements :
    Separates statementWords (· = some (.symbol .closeBrace)) EndsStatement where
  starts us hus := by
    obtain ⟨k, vs, hvs, rfl⟩ := exists_statementTail hus
    refine ⟨_, _, rfl, ?_⟩
    rintro ⟨⟩
    cases hvs
  follow := by
    rintro _ rfl
    exact nofun

theorem statements_predicts (levels : Nat) : ∀ h s,
    Predicts origin (Misuse origin cx) (wordsOf Statement.leavesAll) (· = some (.symbol .closeBrace))
      Unknown (statements cx levels) h s := by
  induction levels with
  | zero => exact fun h s => .of_at fun hat => .blame rfl ⟨_, [], rfl⟩ (.nested hat)
  | succ levels ih =>
    intro h s
    have hexpression (h : List Leaf) (s : TokenStream) : Predicts origin (Misuse origin cx) expressions
        EndsExpression Unknown (Parser.expression cx levels) h s :=
      expressionOf_predicts (term_predicts levels)
    have hblock (h : List Leaf) (s : TokenStream) : Predicts origin (Misuse origin cx) blocks Anything
        Unknown (braced (statements cx levels)) h s :=
      .expectSymbol_bind ⟨_, Language.append_mem_mul ⟨[], rfl⟩ rfl⟩ fun _ _ =>
        .closed (ih _ _) rfl fun _ _ _ _ => trivial
    rw [wordsOf_leavesAll]
    refine .many (P := fun _ => True) separates_statements (fun h s _ => ?_) trivial
    by_cases hk : ∃ k ∈ [Keyword.let, .if, .while, .do, .return], s.keyword? = some k
    · obtain ⟨k, hmem, hk⟩ := hk
      have hcurrent := keyword?_eq_some_iff.1 hk
      refine .inl ⟨?_, .look currentKeyword_run ?_⟩
      · intro hend
        cases hcurrent.symm.trans hend
      rw [hk]
      simp only [List.mem_cons, List.not_mem_nil, or_false] at hmem
      rcases hmem with rfl | rfl | rfl | rfl | rfl
      · exact .map (letStatement_predicts hexpression hcurrent) fun _ _ _ _ => ⟨_, rfl, trivial⟩
      · exact .map (ifStatement_predicts hexpression hblock hcurrent) fun _ _ _ _ => ⟨_, rfl, trivial⟩
      · exact .map (whileStatement_predicts hexpression hblock hcurrent) fun _ _ _ _ =>
          ⟨_, rfl, trivial⟩
      · exact .map (doStatement_predicts hexpression hcurrent) fun _ _ _ _ => ⟨_, rfl, trivial⟩
      · exact .map (returnStatement_predicts hexpression hcurrent) fun _ _ _ _ => ⟨_, rfl, trivial⟩
    · refine .inr ⟨?_, ?_⟩
      · rintro ⟨us, hus, hstart⟩
        obtain ⟨k, vs, hvs, rfl⟩ := exists_statementTail hus
        refine hk ⟨k, ?_, keyword?_eq_some_iff.2 hstart.symm⟩
        cases k with
        | «let» | «if» | «while» | «do» | «return» => simp
        | _ => cases hvs
      · rw [statement?, bind_of_ok currentKeyword_run]
        split
        case h_6 => rfl
        all_goals
          next hkeyword => exact absurd ⟨_, by simp, hkeyword⟩ hk

end JackLang.Parser
