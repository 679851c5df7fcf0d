import JackLang.Proofs.Syntax.Tree

/-! The grammar is unambiguous: a class is determined by its tokens (`Class.tokens_injective`). Each
phrase is determined by any token sequence that begins with it, provided that what stands behind
could not go on with the phrase (`Term.tokens_append_inj`, `Statement.tokens_append_inj`). -/

namespace JackLang

theorem Operator.symbol_injective {op op' : Operator} (h : op.symbol = op'.symbol) : op = op' := by
  cases op <;> cases op' <;> first | rfl | cases h

theorem UnaryOperator.symbol_injective {op op' : UnaryOperator} (h : op.symbol = op'.symbol) :
    op = op' := by
  cases op <;> cases op' <;> first | rfl | cases h

theorem Constant.keyword_injective {c c' : Constant} (h : c.keyword = c'.keyword) : c = c' := by
  cases c <;> cases c' <;> first | rfl | cases h

theorem VarType.token_injective {type type' : VarType} (h : type.token = type'.token) :
    type = type' := by
  cases type <;> cases type' <;> cases h <;> rfl

theorem SubroutineKind.keyword_injective {kind kind' : SubroutineKind}
    (h : kind.keyword = kind'.keyword) : kind = kind' := by
  cases kind <;> cases kind' <;> first | rfl | cases h

namespace Syntax

/-! ### Expressions -/

/-- A token that goes on with a term behind a name. -/
def continuesTerm : Token → Bool
  | .symbol .openBracket | .symbol .openParen | .symbol .dot => true
  | _ => false

/-- A token that goes on with an expression. -/
def continuesExpression : Token → Bool
  | .symbol s => continuesTerm (.symbol s) || (Operator.ofSymbol? s).isSome
  | _ => false

/-- What stands behind a phrase does not go on with it. -/
def Stops (continues : Token → Bool) (rest : List Token) : Prop :=
  ∀ t ∈ rest.head?, continues t = false

theorem Stops.term {rest : List Token} (h : Stops continuesExpression rest) :
    Stops continuesTerm rest := by
  intro t ht
  have := h t ht
  cases t with
  | symbol s => exact (Bool.or_eq_false_iff.1 this).1
  | _ => rfl

theorem stops_cons {continues : Token → Bool} {t : Token} {rest : List Token}
    (h : continues t = false) : Stops continues (t :: rest) := by
  rintro _ ⟨⟩
  exact h

theorem not_stops_cons {continues : Token → Bool} {t : Token} {rest : List Token}
    (h : continues t) : ¬ Stops continues (t :: rest) := by
  intro hstops
  have := hstops t rfl
  rw [h] at this
  cases this

theorem not_stops_operator (op : Operator) (rest : List Token) :
    ¬ Stops continuesExpression (.symbol op.symbol :: rest) :=
  not_stops_cons (by cases op <;> rfl)

theorem stops_tokensRest {rest : List (Operator × Term)} {r : List Token}
    (hr : Stops continuesExpression r) : Stops continuesTerm (Expression.tokensRest rest ++ r) := by
  cases rest with
  | nil => exact hr.term
  | cons p rest =>
    obtain ⟨op, operand⟩ := p
    exact stops_cons (by cases op <;> rfl)

theorem stops_tokensMore (rest : List Expression) (r : List Token) :
    Stops continuesExpression (Expression.tokensMore rest ++ .symbol .closeParen :: r) := by
  cases rest with
  | nil => exact stops_cons rfl
  | cons expression rest => exact stops_cons rfl

/-- No expression begins with a parenthesis that closes, or a semicolon. -/
theorem Expression.tokens_append_ne {expression : Expression} {r r' : List Token} {s : Symbol}
    (hs : s = .closeParen ∨ s = .semicolon) :
    expression.tokens ++ r ≠ .symbol s :: r' := by
  obtain ⟨first, rest⟩ := expression
  intro h
  rw [Expression.tokens] at h
  cases first with
  | call qualifier => cases qualifier <;> simp [Term.tokens, callNames] at h
  | group => rcases hs with rfl | rfl <;> simp [Term.tokens, inParens] at h
  | unary op =>
    rcases hs with rfl | rfl <;> cases op <;> simp [Term.tokens, UnaryOperator.symbol] at h
  | _ => simp [Term.tokens] at h

/-- The names of a call up to the parenthesis that opens. -/
theorem callNames_append_inj {qualifier qualifier' : Option String}
    {subroutine subroutine' : String} {r r' : List Token}
    (h : callNames subroutine qualifier ++ .symbol .openParen :: r =
      callNames subroutine' qualifier' ++ .symbol .openParen :: r') :
    qualifier = qualifier' ∧ subroutine = subroutine' ∧ r = r' := by
  cases qualifier <;> cases qualifier' <;> cases h <;> exact ⟨rfl, rfl, rfl⟩

mutual

theorem Term.tokens_append_inj : ∀ {t t' : Term} {r r' : List Token}, Stops continuesTerm r →
    Stops continuesTerm r' → t.tokens ++ r = t'.tokens ++ r' → t = t' ∧ r = r'
  | .integer value, t', r, r', _, _, h => by
    cases t' with
    | integer value' =>
      cases h
      exact ⟨rfl, rfl⟩
    | call qualifier => cases qualifier <;> cases h
    | _ => cases h
  | .string text, t', r, r', _, _, h => by
    cases t' with
    | string text' =>
      cases h
      exact ⟨rfl, rfl⟩
    | call qualifier => cases qualifier <;> cases h
    | _ => cases h
  | .constant constant, t', r, r', _, _, h => by
    cases t' with
    | constant constant' =>
      simp only [Term.tokens, List.singleton_append, List.cons.injEq, Token.keyword.injEq] at h
      exact ⟨congrArg Term.constant (Constant.keyword_injective h.1), h.2⟩
    | this => cases constant <;> cases h
    | call qualifier => cases qualifier <;> cases h
    | _ => cases h
  | .this, t', r, r', _, _, h => by
    cases t' with
    | this =>
      cases h
      exact ⟨rfl, rfl⟩
    | constant constant' => cases constant' <;> cases h
    | call qualifier => cases qualifier <;> cases h
    | _ => cases h
  | .variable name, t', r, r', hr, _, h => by
    cases t' with
    | «variable» name' =>
      cases h
      exact ⟨rfl, rfl⟩
    | element =>
      cases h
      exact absurd hr (not_stops_cons rfl)
    | call qualifier =>
      cases qualifier <;> cases h <;> exact absurd hr (not_stops_cons rfl)
    | _ => cases h
  | .element array index, t', r, r', hr, hr', h => by
    cases t' with
    | element array' index' =>
      simp only [Term.tokens, inBrackets, List.cons_append, List.append_assoc, List.nil_append,
        List.cons.injEq, Token.identifier.injEq, true_and] at h
      obtain ⟨rfl, h⟩ := h
      obtain ⟨rfl, hrest⟩ := Expression.tokens_append_inj (stops_cons rfl) (stops_cons rfl) h
      cases hrest
      exact ⟨rfl, rfl⟩
    | «variable» name' =>
      cases h
      exact absurd hr' (not_stops_cons rfl)
    | call qualifier => cases qualifier <;> cases h
    | _ => cases h
  | .call qualifier subroutine arguments, t', r, r', _, hr', h => by
    cases t' with
    | call qualifier' subroutine' arguments' =>
      simp only [Term.tokens, inParens, List.cons_append, List.append_assoc, List.nil_append] at h
      obtain ⟨rfl, rfl, hrest⟩ := callNames_append_inj h
      obtain ⟨rfl, rfl⟩ := Expression.tokensAll_append_inj hrest
      exact ⟨rfl, rfl⟩
    | «variable» name' =>
      cases qualifier <;> cases h <;> exact absurd hr' (not_stops_cons rfl)
    | _ => cases qualifier <;> cases h
  | .group inner, t', r, r', _, _, h => by
    cases t' with
    | group inner' =>
      simp only [Term.tokens, inParens, List.cons_append, List.append_assoc, List.nil_append,
        List.cons.injEq, true_and] at h
      obtain ⟨rfl, hrest⟩ := Expression.tokens_append_inj (stops_cons rfl) (stops_cons rfl) h
      cases hrest
      exact ⟨rfl, rfl⟩
    | unary op => cases op <;> cases h
    | call qualifier => cases qualifier <;> cases h
    | _ => cases h
  | .unary op operand, t', r, r', hr, hr', h => by
    cases t' with
    | unary op' operand' =>
      simp only [Term.tokens, List.cons_append, List.cons.injEq, Token.symbol.injEq] at h
      obtain ⟨hop, h⟩ := h
      obtain rfl := UnaryOperator.symbol_injective hop
      obtain ⟨rfl, rfl⟩ := Term.tokens_append_inj hr hr' h
      exact ⟨rfl, rfl⟩
    | group => cases op <;> cases h
    | call qualifier => cases qualifier <;> cases h
    | _ => cases h
termination_by structural t => t

theorem Expression.tokens_append_inj : ∀ {e e' : Expression} {r r' : List Token},
    Stops continuesExpression r → Stops continuesExpression r' → e.tokens ++ r = e'.tokens ++ r' →
      e = e' ∧ r = r'
  | .mk first rest, .mk first' rest', r, r', hr, hr', h => by
    rw [Expression.tokens, Expression.tokens, List.append_assoc, List.append_assoc] at h
    obtain ⟨rfl, hrest⟩ := Term.tokens_append_inj (stops_tokensRest hr) (stops_tokensRest hr') h
    obtain ⟨rfl, rfl⟩ := Expression.tokensRest_append_inj hr hr' hrest
    exact ⟨rfl, rfl⟩
termination_by structural e => e

theorem Expression.tokensRest_append_inj : ∀ {rest rest' : List (Operator × Term)}
    {r r' : List Token}, Stops continuesExpression r → Stops continuesExpression r' →
      Expression.tokensRest rest ++ r = Expression.tokensRest rest' ++ r' → rest = rest' ∧ r = r'
  | [], [], _, _, _, _, h => ⟨rfl, h⟩
  | [], (op, operand) :: rest, r, r', hr, _, h => by
    rw [show r = _ from h] at hr
    exact absurd hr (not_stops_operator op _)
  | (op, operand) :: rest, [], r, r', _, hr', h => by
    rw [← show _ = r' from h] at hr'
    exact absurd hr' (not_stops_operator op _)
  | (op, operand) :: rest, (op', operand') :: rest', r, r', hr, hr', h => by
    simp only [Expression.tokensRest, List.cons_append, List.append_assoc, List.cons.injEq,
      Token.symbol.injEq] at h
    obtain ⟨hop, h⟩ := h
    obtain rfl := Operator.symbol_injective hop
    obtain ⟨rfl, hrest⟩ := Term.tokens_append_inj (stops_tokensRest hr) (stops_tokensRest hr') h
    obtain ⟨rfl, rfl⟩ := Expression.tokensRest_append_inj hr hr' hrest
    exact ⟨rfl, rfl⟩
termination_by structural rest => rest

/-- Expressions up to the parenthesis that closes. -/
theorem Expression.tokensAll_append_inj : ∀ {es es' : List Expression} {r r' : List Token},
    Expression.tokensAll es ++ .symbol .closeParen :: r =
      Expression.tokensAll es' ++ .symbol .closeParen :: r' → es = es' ∧ r = r'
  | [], [], _, _, h => by
    cases h
    exact ⟨rfl, rfl⟩
  | [], e :: es, r, r', h => by
    rw [Expression.tokensAll, Expression.tokensAll, List.append_assoc] at h
    exact absurd h.symm (Expression.tokens_append_ne (.inl rfl))
  | e :: es, [], r, r', h => by
    rw [Expression.tokensAll, Expression.tokensAll, List.append_assoc] at h
    exact absurd h (Expression.tokens_append_ne (.inl rfl))
  | e :: es, e' :: es', r, r', h => by
    rw [Expression.tokensAll, Expression.tokensAll, List.append_assoc, List.append_assoc] at h
    obtain ⟨rfl, hrest⟩ :=
      Expression.tokens_append_inj (stops_tokensMore es r) (stops_tokensMore es' r') h
    obtain ⟨rfl, rfl⟩ := Expression.tokensMore_append_inj hrest
    exact ⟨rfl, rfl⟩
termination_by structural es => es

theorem Expression.tokensMore_append_inj : ∀ {es es' : List Expression} {r r' : List Token},
    Expression.tokensMore es ++ .symbol .closeParen :: r =
      Expression.tokensMore es' ++ .symbol .closeParen :: r' → es = es' ∧ r = r'
  | [], [], _, _, h => by
    cases h
    exact ⟨rfl, rfl⟩
  | [], e :: es, _, _, h => by cases h
  | e :: es, [], _, _, h => by cases h
  | e :: es, e' :: es', r, r', h => by
    simp only [Expression.tokensMore, List.cons_append, List.append_assoc, List.cons.injEq,
      true_and] at h
    obtain ⟨rfl, hrest⟩ :=
      Expression.tokens_append_inj (stops_tokensMore es r) (stops_tokensMore es' r') h
    obtain ⟨rfl, rfl⟩ := Expression.tokensMore_append_inj hrest
    exact ⟨rfl, rfl⟩
termination_by structural es => es

end

/-! ### Statements -/

/-- The token that goes on with a statement. -/
def continuesStatement : Token → Bool
  | .keyword .else => true
  | _ => false

/-- Statements begin with their keywords. -/
theorem stops_tokensAll {continues : Token → Bool}
    (hbrace : continues (.symbol .closeBrace) = false)
    (hkeyword : ∀ k ∈ [Keyword.let, .if, .while, .do, .return], continues (.keyword k) = false)
    (statements : List Statement) (r : List Token) :
    Stops continues (Statement.tokensAll statements ++ .symbol .closeBrace :: r) := by
  cases statements with
  | nil => exact stops_cons hbrace
  | cons statement rest =>
    rw [Statement.tokensAll]
    cases statement with
    | «return» value => cases value <;> exact stops_cons (hkeyword .return (by simp))
    | _ => exact stops_cons (hkeyword _ (by simp))

theorem Statement.tokens_append_ne {statement : Statement} {r r' : List Token} :
    statement.tokens ++ r ≠ .symbol .closeBrace :: r' := by
  cases statement with
  | «return» value => cases value <;> exact nofun
  | _ => exact nofun

theorem of_inBraces_append {ts ts' r r' : List Token} (h : inBraces ts ++ r = inBraces ts' ++ r') :
    ts ++ .symbol .closeBrace :: r = ts' ++ .symbol .closeBrace :: r' := by
  simpa [inBraces] using h

theorem Expression.tokens_inParens_append_inj {condition condition' : Expression}
    {r r' : List Token}
    (h : inParens condition.tokens ++ r = inParens condition'.tokens ++ r') :
    condition = condition' ∧ r = r' := by
  simp only [inParens, List.cons_append, List.append_assoc, List.nil_append, List.cons.injEq,
    true_and] at h
  obtain ⟨rfl, hrest⟩ := Expression.tokens_append_inj (stops_cons rfl) (stops_cons rfl) h
  cases hrest
  exact ⟨rfl, rfl⟩

mutual

theorem Statement.tokens_append_inj : ∀ {s s' : Statement} {r r' : List Token},
    Stops continuesStatement r → Stops continuesStatement r' → s.tokens ++ r = s'.tokens ++ r' →
      s = s' ∧ r = r'
  | .assign target value, s', r, r', _, _, h => by
    cases s' with
    | assign target' value' =>
      simp only [Statement.tokens, List.cons_append, List.append_assoc, List.nil_append,
        List.cons.injEq, Token.identifier.injEq, true_and] at h
      obtain ⟨rfl, h⟩ := h
      obtain ⟨rfl, hrest⟩ := Expression.tokens_append_inj (stops_cons rfl) (stops_cons rfl) h
      cases hrest
      exact ⟨rfl, rfl⟩
    | «return» value => cases value <;> cases h
    | _ => cases h
  | .assignElement array index value, s', r, r', _, _, h => by
    cases s' with
    | assignElement array' index' value' =>
      simp only [Statement.tokens, inBrackets, List.cons_append, List.append_assoc, List.nil_append,
        List.cons.injEq, Token.identifier.injEq, true_and] at h
      obtain ⟨rfl, h⟩ := h
      obtain ⟨rfl, hvalue⟩ := Expression.tokens_append_inj (stops_cons rfl) (stops_cons rfl) h
      simp only [List.cons.injEq, true_and] at hvalue
      obtain ⟨rfl, hrest⟩ := Expression.tokens_append_inj (stops_cons rfl) (stops_cons rfl) hvalue
      cases hrest
      exact ⟨rfl, rfl⟩
    | «return» value => cases value <;> cases h
    | _ => cases h
  | .ifThen condition body, s', r, r', hr, _, h => by
    cases s' with
    | ifThen condition' body' =>
      simp only [Statement.tokens, List.cons_append, List.append_assoc, List.cons.injEq,
        true_and] at h
      obtain ⟨rfl, hblock⟩ := Expression.tokens_inParens_append_inj h
      obtain ⟨rfl, rfl⟩ := Statement.tokensAll_append_inj (of_inBraces_append hblock)
      exact ⟨rfl, rfl⟩
    | ifElse condition' body' alternative' =>
      simp only [Statement.tokens, List.cons_append, List.append_assoc, List.cons.injEq,
        true_and] at h
      obtain ⟨rfl, hblock⟩ := Expression.tokens_inParens_append_inj h
      obtain ⟨rfl, rfl⟩ := Statement.tokensAll_append_inj (of_inBraces_append hblock)
      exact absurd hr (not_stops_cons rfl)
    | «return» value => cases value <;> cases h
    | _ => cases h
  | .ifElse condition body alternative, s', r, r', _, hr', h => by
    cases s' with
    | ifElse condition' body' alternative' =>
      simp only [Statement.tokens, List.cons_append, List.append_assoc, List.cons.injEq,
        true_and] at h
      obtain ⟨rfl, hblock⟩ := Expression.tokens_inParens_append_inj h
      obtain ⟨rfl, helse⟩ := Statement.tokensAll_append_inj (of_inBraces_append hblock)
      rw [List.cons.injEq] at helse
      obtain ⟨rfl, rfl⟩ := Statement.tokensAll_append_inj (of_inBraces_append helse.2)
      exact ⟨rfl, rfl⟩
    | ifThen condition' body' =>
      simp only [Statement.tokens, List.cons_append, List.append_assoc, List.cons.injEq,
        true_and] at h
      obtain ⟨rfl, hblock⟩ := Expression.tokens_inParens_append_inj h
      obtain ⟨rfl, rfl⟩ := Statement.tokensAll_append_inj (of_inBraces_append hblock)
      exact absurd hr' (not_stops_cons rfl)
    | «return» value => cases value <;> cases h
    | _ => cases h
  | .while condition body, s', r, r', _, _, h => by
    cases s' with
    | «while» condition' body' =>
      simp only [Statement.tokens, List.cons_append, List.append_assoc, List.cons.injEq,
        true_and] at h
      obtain ⟨rfl, hblock⟩ := Expression.tokens_inParens_append_inj h
      obtain ⟨rfl, rfl⟩ := Statement.tokensAll_append_inj (of_inBraces_append hblock)
      exact ⟨rfl, rfl⟩
    | «return» value => cases value <;> cases h
    | _ => cases h
  | .call qualifier subroutine arguments, s', r, r', _, _, h => by
    cases s' with
    | call qualifier' subroutine' arguments' =>
      simp only [Statement.tokens, inParens, List.cons_append, List.append_assoc, List.nil_append,
        List.cons.injEq, true_and] at h
      obtain ⟨rfl, rfl, harguments⟩ := callNames_append_inj h
      obtain ⟨rfl, hrest⟩ := Expression.tokensAll_append_inj harguments
      cases hrest
      exact ⟨rfl, rfl⟩
    | «return» value => cases value <;> cases h
    | _ => cases h
  | .return none, s', r, r', _, _, h => by
    cases s' with
    | «return» value =>
      cases value with
      | none =>
        cases h
        exact ⟨rfl, rfl⟩
      | some value =>
        simp only [Statement.tokens, List.cons_append, List.append_assoc, List.nil_append,
          List.cons.injEq, true_and] at h
        exact absurd h.symm (Expression.tokens_append_ne (.inr rfl))
    | _ => cases h
  | .return (some value), s', r, r', _, _, h => by
    cases s' with
    | «return» value' =>
      cases value' with
      | none =>
        simp only [Statement.tokens, List.cons_append, List.append_assoc, List.nil_append,
          List.cons.injEq, true_and] at h
        exact absurd h (Expression.tokens_append_ne (.inr rfl))
      | some value' =>
        simp only [Statement.tokens, List.cons_append, List.append_assoc, List.nil_append,
          List.cons.injEq, true_and] at h
        obtain ⟨rfl, hrest⟩ := Expression.tokens_append_inj (stops_cons rfl) (stops_cons rfl) h
        cases hrest
        exact ⟨rfl, rfl⟩
    | _ => cases h
termination_by structural s => s

theorem Statement.tokensAll_append_inj : ∀ {ss ss' : List Statement} {r r' : List Token},
    Statement.tokensAll ss ++ .symbol .closeBrace :: r =
      Statement.tokensAll ss' ++ .symbol .closeBrace :: r' → ss = ss' ∧ r = r'
  | [], [], _, _, h => by
    cases h
    exact ⟨rfl, rfl⟩
  | [], s :: ss, r, r', h => by
    rw [Statement.tokensAll, Statement.tokensAll, List.append_assoc] at h
    exact absurd h.symm Statement.tokens_append_ne
  | s :: ss, [], r, r', h => by
    rw [Statement.tokensAll, Statement.tokensAll, List.append_assoc] at h
    exact absurd h Statement.tokens_append_ne
  | s :: ss, s' :: ss', r, r', h => by
    rw [Statement.tokensAll, Statement.tokensAll, List.append_assoc, List.append_assoc] at h
    obtain ⟨rfl, hrest⟩ := Statement.tokens_append_inj (stops_tokensAll rfl (by decide) ss r)
      (stops_tokensAll rfl (by decide) ss' r') h
    obtain ⟨rfl, rfl⟩ := Statement.tokensAll_append_inj hrest
    exact ⟨rfl, rfl⟩
termination_by structural ss => ss

end

/-! ### Declarations -/

/-- Phrases that begin with tokens of some kind are told apart up to what begins with no such
token. -/
theorem flatMap_append_inj {α : Type} {tokens : α → List Token} (starts : Token → Bool)
    (hstarts : ∀ a, ∃ t ts, tokens a = t :: ts ∧ starts t)
    (hinj : ∀ {a a' : α} {r r' : List Token}, tokens a ++ r = tokens a' ++ r' → a = a' ∧ r = r') :
    ∀ {as as' : List α} {r r' : List Token}, Stops starts r → Stops starts r' →
      as.flatMap tokens ++ r = as'.flatMap tokens ++ r' → as = as' ∧ r = r'
  | [], [], _, _, _, _, h => ⟨rfl, h⟩
  | [], a :: as, r, r', hr, _, h => by
    obtain ⟨t, ts, ha, ht⟩ := hstarts a
    rw [List.flatMap_cons, ha, List.flatMap_nil, List.nil_append] at h
    exact absurd (h ▸ hr) (not_stops_cons ht)
  | a :: as, [], r, r', _, hr', h => by
    obtain ⟨t, ts, ha, ht⟩ := hstarts a
    rw [List.flatMap_cons, ha, List.flatMap_nil, List.nil_append] at h
    exact absurd (h ▸ hr') (not_stops_cons ht)
  | a :: as, a' :: as', r, r', hr, hr', h => by
    rw [List.flatMap_cons, List.flatMap_cons, List.append_assoc, List.append_assoc] at h
    obtain ⟨rfl, hrest⟩ := hinj h
    obtain ⟨rfl, rfl⟩ := flatMap_append_inj starts hstarts hinj hr hr' hrest
    exact ⟨rfl, rfl⟩

/-- The comma between two phrases. -/
def isComma : Token → Bool
  | .symbol .comma => true
  | _ => false

theorem Declaration.tokens_append_inj {d d' : Declaration} {r r' : List Token}
    (h : d.tokens ++ r = d'.tokens ++ r') : d = d' ∧ r = r' := by
  obtain ⟨type, first, rest⟩ := d
  obtain ⟨type', first', rest'⟩ := d'
  simp only [tokens, names, List.map_cons, withCommas, List.flatMap_map, List.cons_append,
    List.append_assoc, List.nil_append, List.cons.injEq, Token.identifier.injEq] at h
  obtain ⟨htype, rfl, hnames⟩ := h
  obtain rfl := VarType.token_injective htype
  have hname {name name' : String} {r r' : List Token}
      (h : [.symbol .comma, .identifier name] ++ r = [.symbol .comma, .identifier name'] ++ r') :
      name = name' ∧ r = r' := by
    cases h
    exact ⟨rfl, rfl⟩
  obtain ⟨rfl, hrest⟩ := flatMap_append_inj isComma (fun name => ⟨_, _, rfl, rfl⟩) hname
    (stops_cons rfl) (stops_cons rfl) hnames
  cases hrest
  exact ⟨rfl, rfl⟩

theorem Parameter.tokens_append_inj {p p' : Parameter} {r r' : List Token}
    (h : p.tokens ++ r = p'.tokens ++ r') : p = p' ∧ r = r' := by
  obtain ⟨type, name⟩ := p
  obtain ⟨type', name'⟩ := p'
  simp only [tokens, List.cons_append, List.nil_append, List.cons.injEq,
    Token.identifier.injEq] at h
  obtain ⟨htype, rfl, rfl⟩ := h
  obtain rfl := VarType.token_injective htype
  exact ⟨rfl, rfl⟩

theorem Parameter.tokens_append_ne {p : Parameter} {r r' : List Token} :
    p.tokens ++ r ≠ .symbol .closeParen :: r' := by
  obtain ⟨type, name⟩ := p
  cases type <;> exact nofun

/-- Parameters up to the parenthesis that closes. -/
theorem Parameter.withCommas_append_inj {ps ps' : List Parameter} {r r' : List Token}
    (h : withCommas (ps.map Parameter.tokens) ++ .symbol .closeParen :: r =
      withCommas (ps'.map Parameter.tokens) ++ .symbol .closeParen :: r') : ps = ps' ∧ r = r' := by
  cases ps with
  | nil =>
    cases ps' with
    | nil =>
      cases h
      exact ⟨rfl, rfl⟩
    | cons p ps =>
      rw [List.map_cons, withCommas, List.append_assoc] at h
      exact absurd h.symm Parameter.tokens_append_ne
  | cons p ps =>
    cases ps' with
    | nil =>
      rw [List.map_cons, withCommas, List.append_assoc] at h
      exact absurd h Parameter.tokens_append_ne
    | cons p' ps' =>
      rw [List.map_cons, List.map_cons, withCommas, withCommas, List.append_assoc,
        List.append_assoc, List.flatMap_map, List.flatMap_map] at h
      obtain ⟨rfl, hps⟩ := Parameter.tokens_append_inj h
      have hcomma {p p' : Parameter} {r r' : List Token}
          (h : (.symbol .comma :: p.tokens) ++ r = (.symbol .comma :: p'.tokens) ++ r') :
          p = p' ∧ r = r' := Parameter.tokens_append_inj (List.cons.inj h).2
      obtain ⟨rfl, hrest⟩ := flatMap_append_inj isComma (fun p => ⟨_, _, rfl, rfl⟩) hcomma
        (stops_cons rfl) (stops_cons rfl) hps
      cases hrest
      exact ⟨rfl, rfl⟩

/-! ### Classes -/

def isVar : Token → Bool
  | .keyword .var => true
  | _ => false

theorem returnToken_inj {type type' : Option VarType}
    (h : (type.map VarType.token).getD (.keyword .void) =
      (type'.map VarType.token).getD (.keyword .void)) : type = type' := by
  cases type with
  | none =>
    cases type' with
    | none => rfl
    | some type' => cases type' <;> cases h
  | some type =>
    cases type' with
    | none => cases type <;> cases h
    | some type' => exact congrArg some (VarType.token_injective h)

theorem Subroutine.tokens_append_inj {s s' : Subroutine} {r r' : List Token}
    (h : s.tokens ++ r = s'.tokens ++ r') : s = s' ∧ r = r' := by
  obtain ⟨kind, type, name, parameters, locals, body⟩ := s
  obtain ⟨kind', type', name', parameters', locals', body'⟩ := s'
  simp only [tokens, bodyTokens, inParens, inBraces, List.cons_append, List.append_assoc,
    List.nil_append, List.cons.injEq, Token.keyword.injEq, Token.identifier.injEq,
    true_and] at h
  obtain ⟨hkind, htype, rfl, hparameters⟩ := h
  obtain rfl := SubroutineKind.keyword_injective hkind
  obtain rfl := returnToken_inj htype
  obtain ⟨rfl, hbody⟩ := Parameter.withCommas_append_inj hparameters
  rw [List.cons.injEq] at hbody
  have hvar {d d' : Declaration} {r r' : List Token}
      (h : (.keyword .var :: d.tokens) ++ r = (.keyword .var :: d'.tokens) ++ r') :
      d = d' ∧ r = r' := Declaration.tokens_append_inj (List.cons.inj h).2
  obtain ⟨rfl, hstatements⟩ := flatMap_append_inj isVar (fun d => ⟨_, _, rfl, rfl⟩) hvar
    (stops_tokensAll rfl (by decide) body r) (stops_tokensAll rfl (by decide) body' r') hbody.2
  obtain ⟨rfl, rfl⟩ := Statement.tokensAll_append_inj hstatements
  exact ⟨rfl, rfl⟩

def startsClassVar : Token → Bool
  | .keyword .static | .keyword .field => true
  | _ => false

def startsSubroutine : Token → Bool
  | .keyword .constructor | .keyword .function | .keyword .method => true
  | _ => false

theorem Subroutine.exists_tokens_eq_cons (s : Subroutine) :
    ∃ t ts, s.tokens = t :: ts ∧ startsSubroutine t := by
  refine ⟨_, _, rfl, ?_⟩
  cases s.kind <;> rfl

theorem stops_startsClassVar_flatMap (subroutines : List Subroutine) (r : List Token) :
    Stops startsClassVar (subroutines.flatMap Subroutine.tokens ++ .symbol .closeBrace :: r) := by
  cases subroutines with
  | nil => exact stops_cons rfl
  | cons s rest =>
    refine stops_cons ?_
    cases s.kind <;> rfl

/-- The tokens of a class begin those of no other. -/
theorem Class.tokens_append_inj {c c' : Class} {r r' : List Token}
    (h : c.tokens ++ r = c'.tokens ++ r') : c = c' ∧ r = r' := by
  obtain ⟨name, declarations, subroutines⟩ := c
  obtain ⟨name', declarations', subroutines'⟩ := c'
  simp only [tokens, inBraces, List.cons_append, List.append_assoc, List.nil_append,
    List.cons.injEq, Token.identifier.injEq, true_and] at h
  obtain ⟨rfl, hdeclarations⟩ := h
  have hvar {d d' : ClassLevel × Declaration} {r r' : List Token}
      (h : (.keyword d.1.keyword :: d.2.tokens) ++ r =
        (.keyword d'.1.keyword :: d'.2.tokens) ++ r') : d = d' ∧ r = r' := by
    obtain ⟨level, d⟩ := d
    obtain ⟨level', d'⟩ := d'
    rw [List.cons_append, List.cons_append, List.cons.injEq] at h
    obtain ⟨rfl, rfl⟩ := Declaration.tokens_append_inj h.2
    cases level <;> cases level' <;> first | exact ⟨rfl, rfl⟩ | cases h.1
  have hstarts (d : ClassLevel × Declaration) : ∃ t ts,
      Token.keyword d.1.keyword :: d.2.tokens = t :: ts ∧ startsClassVar t := by
    refine ⟨_, _, rfl, ?_⟩
    cases d.1 <;> rfl
  obtain ⟨rfl, hsubroutines⟩ := flatMap_append_inj startsClassVar hstarts hvar
    (stops_startsClassVar_flatMap subroutines r) (stops_startsClassVar_flatMap subroutines' r')
    hdeclarations
  obtain ⟨rfl, hrest⟩ := flatMap_append_inj startsSubroutine Subroutine.exists_tokens_eq_cons
    Subroutine.tokens_append_inj (stops_cons rfl) (stops_cons rfl) hsubroutines
  cases hrest
  exact ⟨rfl, rfl⟩

/-- **Unambiguity.** A class has no other tree than its own. -/
theorem Class.tokens_injective : Function.Injective Class.tokens := by
  intro c c' h
  exact (Class.tokens_append_inj (congrArg (· ++ []) h)).1

end Syntax
end JackLang
