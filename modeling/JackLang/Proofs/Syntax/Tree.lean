import JackLang.Program

/-! The grammar of the language as data: a tree of `Syntax.Class` is a derivation of the class
grammar, its names still unresolved, and `tokens` is the token sequence that it derives. Beside
these stand the phrases that a tree contains (`subterms`, `substatements`), how deep they are nested
(`depth`), and that the tokens of a phrase are tokens of what contains it. -/

namespace JackLang

namespace VarType

/-- The token that names a type. -/
def token : VarType → Token
  | int => .keyword .int
  | char => .keyword .char
  | boolean => .keyword .boolean
  | object className => .identifier className

end VarType

namespace Syntax

/-! ### Token sequences -/

def inParens (tokens : List Token) : List Token :=
  .symbol .openParen :: (tokens ++ [.symbol .closeParen])

def inBrackets (tokens : List Token) : List Token :=
  .symbol .openBracket :: (tokens ++ [.symbol .closeBracket])

def inBraces (tokens : List Token) : List Token :=
  .symbol .openBrace :: (tokens ++ [.symbol .closeBrace])

/-- Phrases with commas between them. -/
def withCommas : List (List Token) → List Token
  | [] => []
  | first :: rest => first ++ rest.flatMap (.symbol .comma :: ·)

/-! ### Expressions -/

mutual

inductive Term
  | integer (value : Nat)
  | string (text : String)
  | constant (constant : Constant)
  | this
  | variable (name : String)
  | element (array : String) (index : Expression)
  /-- `subroutine(arguments)`, or `qualifier.subroutine(arguments)` on a variable or a class. -/
  | call (qualifier : Option String) (subroutine : String) (arguments : List Expression)
  | group (inner : Expression)
  | unary (op : UnaryOperator) (operand : Term)

inductive Expression
  | mk (first : Term) (rest : List (Operator × Term))

end

/-- The names of a call, before its arguments. -/
def callNames (subroutine : String) : Option String → List Token
  | none => [.identifier subroutine]
  | some qualifier => [.identifier qualifier, .symbol .dot, .identifier subroutine]

mutual

def Term.tokens : Term → List Token
  | .integer value => [.integer value]
  | .string text => [.string text]
  | .constant constant => [.keyword constant.keyword]
  | .this => [.keyword .this]
  | .variable name => [.identifier name]
  | .element array index => .identifier array :: inBrackets index.tokens
  | .call qualifier subroutine arguments =>
    callNames subroutine qualifier ++ inParens (Expression.tokensAll arguments)
  | .group inner => inParens inner.tokens
  | .unary op operand => .symbol op.symbol :: operand.tokens
termination_by structural term => term

def Expression.tokens : Expression → List Token
  | .mk first rest => first.tokens ++ Expression.tokensRest rest
termination_by structural expression => expression

def Expression.tokensRest : List (Operator × Term) → List Token
  | [] => []
  | (op, operand) :: rest => .symbol op.symbol :: (operand.tokens ++ Expression.tokensRest rest)
termination_by structural rest => rest

/-- Expressions with commas between them. -/
def Expression.tokensAll : List Expression → List Token
  | [] => []
  | expression :: rest => expression.tokens ++ Expression.tokensMore rest
termination_by structural expressions => expressions

/-- Further expressions, each behind a comma. -/
def Expression.tokensMore : List Expression → List Token
  | [] => []
  | expression :: rest => .symbol .comma :: (expression.tokens ++ Expression.tokensMore rest)
termination_by structural expressions => expressions

end

theorem Expression.tokensRest_eq (rest : List (Operator × Term)) :
    Expression.tokensRest rest = rest.flatMap fun p => .symbol p.1.symbol :: p.2.tokens := by
  induction rest with
  | nil => rfl
  | cons p rest ih => simp [Expression.tokensRest, ih]

theorem Expression.tokensMore_eq (expressions : List Expression) :
    Expression.tokensMore expressions =
      (expressions.map Expression.tokens).flatMap (.symbol .comma :: ·) := by
  induction expressions with
  | nil => rfl
  | cons expression rest ih => simp [Expression.tokensMore, ih]

theorem Expression.tokensAll_eq (expressions : List Expression) :
    Expression.tokensAll expressions = withCommas (expressions.map Expression.tokens) := by
  cases expressions with
  | nil => rfl
  | cons expression rest =>
    rw [Expression.tokensAll, Expression.tokensMore_eq, List.map_cons, withCommas]

/-! ### Statements -/

inductive Statement
  | assign (target : String) (value : Expression)
  | assignElement (array : String) (index value : Expression)
  | ifThen (condition : Expression) (body : List Statement)
  | ifElse (condition : Expression) (body alternative : List Statement)
  | «while» (condition : Expression) (body : List Statement)
  | call (qualifier : Option String) (subroutine : String) (arguments : List Expression)
  | «return» (value : Option Expression)

mutual

def Statement.tokens : Statement → List Token
  | .assign target value =>
    .keyword .let :: .identifier target :: .symbol .equal :: (value.tokens ++ [.symbol .semicolon])
  | .assignElement array index value =>
    .keyword .let :: .identifier array :: (inBrackets index.tokens ++
      .symbol .equal :: (value.tokens ++ [.symbol .semicolon]))
  | .ifThen condition body =>
    .keyword .if :: (inParens condition.tokens ++ inBraces (Statement.tokensAll body))
  | .ifElse condition body alternative =>
    .keyword .if :: (inParens condition.tokens ++ (inBraces (Statement.tokensAll body) ++
      .keyword .else :: inBraces (Statement.tokensAll alternative)))
  | .while condition body =>
    .keyword .while :: (inParens condition.tokens ++ inBraces (Statement.tokensAll body))
  | .call qualifier subroutine arguments =>
    .keyword .do :: (callNames subroutine qualifier ++
      (inParens (Expression.tokensAll arguments) ++ [.symbol .semicolon]))
  | .return none => [.keyword .return, .symbol .semicolon]
  | .return (some value) => .keyword .return :: (value.tokens ++ [.symbol .semicolon])
termination_by structural statement => statement

def Statement.tokensAll : List Statement → List Token
  | [] => []
  | statement :: rest => statement.tokens ++ Statement.tokensAll rest
termination_by structural statements => statements

end

theorem Statement.tokensAll_eq (statements : List Statement) :
    Statement.tokensAll statements = statements.flatMap Statement.tokens := by
  induction statements with
  | nil => rfl
  | cons statement rest ih => simp [Statement.tokensAll, ih]

/-! ### Declarations and classes -/

/-- `type name (, name)* ;` -/
structure Declaration where
  type : VarType
  first : String
  rest : List String

namespace Declaration

def names (d : Declaration) : List String := d.first :: d.rest

def tokens (d : Declaration) : List Token :=
  d.type.token :: (withCommas (d.names.map ([.identifier ·])) ++ [.symbol .semicolon])

end Declaration

/-- The two kinds of variables that belong to a class. -/
inductive ClassLevel
  | static | field
deriving DecidableEq, Repr

namespace ClassLevel

def kind : ClassLevel → VarKind
  | static => .static
  | field => .field

def keyword : ClassLevel → Keyword
  | static => .static
  | field => .field

end ClassLevel

structure Parameter where
  type : VarType
  name : String

structure Subroutine where
  kind : SubroutineKind
  /-- None for `void`. -/
  returnType : Option VarType
  name : String
  parameters : List Parameter
  locals : List Declaration
  body : List Statement

structure Class where
  name : String
  declarations : List (ClassLevel × Declaration)
  subroutines : List Subroutine

namespace Parameter

def tokens (p : Parameter) : List Token := [p.type.token, .identifier p.name]

end Parameter

namespace Subroutine

/-- A body in braces: the locals before the statements. -/
def bodyTokens (s : Subroutine) : List Token :=
  inBraces (s.locals.flatMap (fun d => .keyword .var :: d.tokens) ++ Statement.tokensAll s.body)

def tokens (s : Subroutine) : List Token :=
  .keyword s.kind.keyword :: (s.returnType.map VarType.token).getD (.keyword .void) ::
    .identifier s.name :: (inParens (withCommas (s.parameters.map Parameter.tokens)) ++ s.bodyTokens)

end Subroutine

namespace Class

def tokens (c : Class) : List Token :=
  .keyword .class :: .identifier c.name :: inBraces
    (c.declarations.flatMap (fun d => .keyword d.1.keyword :: d.2.tokens) ++
      c.subroutines.flatMap Subroutine.tokens)

end Class

/-! ### What a tree contains -/

mutual

/-- A term and all terms inside it. -/
def Term.subterms (term : Term) : List Term :=
  term :: match term with
    | .integer _ | .string _ | .constant _ | .this | .variable _ => []
    | .element _ index => index.subterms
    | .call _ _ arguments => Expression.subtermsAll arguments
    | .group inner => inner.subterms
    | .unary _ operand => operand.subterms
termination_by structural term

def Expression.subterms : Expression → List Term
  | .mk first rest => first.subterms ++ Expression.subtermsRest rest
termination_by structural expression => expression

def Expression.subtermsRest : List (Operator × Term) → List Term
  | [] => []
  | (_, operand) :: rest => operand.subterms ++ Expression.subtermsRest rest
termination_by structural rest => rest

def Expression.subtermsAll : List Expression → List Term
  | [] => []
  | expression :: rest => expression.subterms ++ Expression.subtermsAll rest
termination_by structural expressions => expressions

end

theorem Expression.subtermsAll_singleton (expression : Expression) :
    Expression.subtermsAll [expression] = expression.subterms := List.append_nil _

mutual

/-- What a term inside another contains, the other contains. -/
theorem Term.subterms_subset {u : Term} :
    ∀ {term : Term}, u ∈ term.subterms → u.subterms ⊆ term.subterms
  | .integer _, h | .string _, h | .constant _, h | .this, h | .variable _, h => by
    rw [Term.subterms, List.mem_singleton] at h
    rw [h]
    exact List.Subset.refl _
  | .element _ index, h => by
    rw [Term.subterms, List.mem_cons] at h
    rcases h with rfl | h
    · exact List.Subset.refl _
    · exact List.subset_cons_of_subset _ (Expression.subterms_subset h)
  | .call _ _ arguments, h => by
    rw [Term.subterms, List.mem_cons] at h
    rcases h with rfl | h
    · exact List.Subset.refl _
    · exact List.subset_cons_of_subset _ (Expression.subtermsAll_subset h)
  | .group inner, h => by
    rw [Term.subterms, List.mem_cons] at h
    rcases h with rfl | h
    · exact List.Subset.refl _
    · exact List.subset_cons_of_subset _ (Expression.subterms_subset h)
  | .unary _ operand, h => by
    rw [Term.subterms, List.mem_cons] at h
    rcases h with rfl | h
    · exact List.Subset.refl _
    · exact List.subset_cons_of_subset _ (Term.subterms_subset h)
termination_by structural term => term

theorem Expression.subterms_subset {u : Term} :
    ∀ {expression : Expression}, u ∈ expression.subterms → u.subterms ⊆ expression.subterms
  | .mk first rest, h => by
    rw [Expression.subterms, List.mem_append] at h
    rw [Expression.subterms]
    rcases h with h | h
    · exact List.subset_append_of_subset_left _ (Term.subterms_subset h)
    · exact List.subset_append_of_subset_right _ (Expression.subtermsRest_subset h)
termination_by structural expression => expression

theorem Expression.subtermsRest_subset {u : Term} : ∀ {rest : List (Operator × Term)},
    u ∈ Expression.subtermsRest rest → u.subterms ⊆ Expression.subtermsRest rest
  | [], h => by cases h
  | (_, operand) :: rest, h => by
    rw [Expression.subtermsRest, List.mem_append] at h
    rw [Expression.subtermsRest]
    rcases h with h | h
    · exact List.subset_append_of_subset_left _ (Term.subterms_subset h)
    · exact List.subset_append_of_subset_right _ (Expression.subtermsRest_subset h)
termination_by structural rest => rest

theorem Expression.subtermsAll_subset {u : Term} : ∀ {expressions : List Expression},
    u ∈ Expression.subtermsAll expressions → u.subterms ⊆ Expression.subtermsAll expressions
  | [], h => by cases h
  | expression :: rest, h => by
    rw [Expression.subtermsAll, List.mem_append] at h
    rw [Expression.subtermsAll]
    rcases h with h | h
    · exact List.subset_append_of_subset_left _ (Expression.subterms_subset h)
    · exact List.subset_append_of_subset_right _ (Expression.subtermsAll_subset h)
termination_by structural expressions => expressions

end

mutual

/-- The tokens of a term inside another are tokens of that. -/
theorem Term.tokens_subset {u : Term} : ∀ {term : Term}, u ∈ term.subterms → u.tokens ⊆ term.tokens
  | .integer _, h | .string _, h | .constant _, h | .this, h | .variable _, h => by
    rw [Term.subterms, List.mem_singleton] at h
    rw [h]
    exact List.Subset.refl _
  | .element _ index, h => by
    rw [Term.subterms, List.mem_cons] at h
    rcases h with rfl | h
    · exact List.Subset.refl _
    · intro t ht
      simp [Term.tokens, inBrackets, Expression.tokens_subset h ht]
  | .call qualifier _ arguments, h => by
    rw [Term.subterms, List.mem_cons] at h
    rcases h with rfl | h
    · exact List.Subset.refl _
    · intro t ht
      simp [Term.tokens, inParens, Expression.tokensAll_subset h ht]
  | .group inner, h => by
    rw [Term.subterms, List.mem_cons] at h
    rcases h with rfl | h
    · exact List.Subset.refl _
    · intro t ht
      simp [Term.tokens, inParens, Expression.tokens_subset h ht]
  | .unary _ operand, h => by
    rw [Term.subterms, List.mem_cons] at h
    rcases h with rfl | h
    · exact List.Subset.refl _
    · intro t ht
      simp [Term.tokens, Term.tokens_subset h ht]
termination_by structural term => term

theorem Expression.tokens_subset {u : Term} :
    ∀ {expression : Expression}, u ∈ expression.subterms → u.tokens ⊆ expression.tokens
  | .mk first rest, h => by
    rw [Expression.subterms, List.mem_append] at h
    rw [Expression.tokens]
    rcases h with h | h
    · exact List.subset_append_of_subset_left _ (Term.tokens_subset h)
    · exact List.subset_append_of_subset_right _ (Expression.tokensRest_subset h)
termination_by structural expression => expression

theorem Expression.tokensRest_subset {u : Term} : ∀ {rest : List (Operator × Term)},
    u ∈ Expression.subtermsRest rest → u.tokens ⊆ Expression.tokensRest rest
  | [], h => by
    rw [Expression.subtermsRest] at h
    cases h
  | (op, operand) :: rest, h => by
    rw [Expression.subtermsRest, List.mem_append] at h
    rw [Expression.tokensRest]
    refine List.subset_cons_of_subset _ ?_
    rcases h with h | h
    · exact List.subset_append_of_subset_left _ (Term.tokens_subset h)
    · exact List.subset_append_of_subset_right _ (Expression.tokensRest_subset h)
termination_by structural rest => rest

theorem Expression.tokensAll_subset {u : Term} : ∀ {expressions : List Expression},
    u ∈ Expression.subtermsAll expressions → u.tokens ⊆ Expression.tokensAll expressions
  | [], h => by
    rw [Expression.subtermsAll] at h
    cases h
  | expression :: rest, h => by
    rw [Expression.subtermsAll, List.mem_append] at h
    rw [Expression.tokensAll]
    rcases h with h | h
    · exact List.subset_append_of_subset_left _ (Expression.tokens_subset h)
    · exact List.subset_append_of_subset_right _ (Expression.tokensMore_subset h)
termination_by structural expressions => expressions

theorem Expression.tokensMore_subset {u : Term} : ∀ {expressions : List Expression},
    u ∈ Expression.subtermsAll expressions → u.tokens ⊆ Expression.tokensMore expressions
  | [], h => by
    rw [Expression.subtermsAll] at h
    cases h
  | expression :: rest, h => by
    rw [Expression.subtermsAll, List.mem_append] at h
    rw [Expression.tokensMore]
    refine List.subset_cons_of_subset _ ?_
    rcases h with h | h
    · exact List.subset_append_of_subset_left _ (Expression.tokens_subset h)
    · exact List.subset_append_of_subset_right _ (Expression.tokensMore_subset h)
termination_by structural expressions => expressions

end

mutual

/-- How many terms enclose each other in a term, itself among them. -/
def Term.depth : Term → Nat
  | .integer _ | .string _ | .constant _ | .this | .variable _ => 1
  | .element _ index => index.depth + 1
  | .call _ _ arguments => Expression.depthAll arguments + 1
  | .group inner => inner.depth + 1
  | .unary _ operand => operand.depth + 1
termination_by structural term => term

def Expression.depth : Expression → Nat
  | .mk first rest => max first.depth (Expression.depthRest rest)
termination_by structural expression => expression

def Expression.depthRest : List (Operator × Term) → Nat
  | [] => 0
  | (_, operand) :: rest => max operand.depth (Expression.depthRest rest)
termination_by structural rest => rest

def Expression.depthAll : List Expression → Nat
  | [] => 0
  | expression :: rest => max expression.depth (Expression.depthAll rest)
termination_by structural expressions => expressions

end

mutual

/-- A statement and all statements inside it. -/
def Statement.substatements (statement : Statement) : List Statement :=
  statement :: match statement with
    | .assign .. | .assignElement .. | .call .. | .return _ => []
    | .ifThen _ body | .while _ body => Statement.substatementsAll body
    | .ifElse _ body alternative =>
      Statement.substatementsAll body ++ Statement.substatementsAll alternative
termination_by structural statement

def Statement.substatementsAll : List Statement → List Statement
  | [] => []
  | statement :: rest => statement.substatements ++ Statement.substatementsAll rest
termination_by structural statements => statements

end

/-- The expressions of a statement itself, not those of the statements inside it. -/
def Statement.expressions : Statement → List Expression
  | .assign _ value => [value]
  | .assignElement _ index value => [index, value]
  | .ifThen condition _ | .ifElse condition _ _ | .while condition _ => [condition]
  | .call _ _ arguments => arguments
  | .return value => value.toList

/-- The tokens of a term of a statement are tokens of the statement. -/
theorem Statement.tokens_subset_of_mem_subtermsAll {u : Term} {statement : Statement}
    (h : u ∈ Expression.subtermsAll statement.expressions) : u.tokens ⊆ statement.tokens := by
  intro t ht
  cases statement with
  | call qualifier subroutine arguments =>
    have hmem : t ∈ Expression.tokensAll arguments := Expression.tokensAll_subset h ht
    simp [Statement.tokens, inParens, hmem]
  | assignElement array index value =>
    simp only [Statement.expressions, Expression.subtermsAll, List.append_nil, List.mem_append] at h
    rcases h with h | h <;>
      simp [Statement.tokens, inBrackets, Expression.tokens_subset h ht]
  | «return» value =>
    cases value with
    | none => cases h
    | some value =>
      simp only [Statement.expressions, Option.toList, Expression.subtermsAll, List.append_nil] at h
      simp [Statement.tokens, Expression.tokens_subset h ht]
  | _ =>
    simp only [Statement.expressions, Expression.subtermsAll, List.append_nil] at h
    simp [Statement.tokens, inParens, Expression.tokens_subset h ht]

mutual

/-- The tokens of a statement inside another are tokens of that. -/
theorem Statement.tokens_subset {u : Statement} :
    ∀ {statement : Statement}, u ∈ statement.substatements → u.tokens ⊆ statement.tokens
  | .assign .., h | .assignElement .., h | .call .., h | .return _, h => by
    rw [Statement.substatements, List.mem_singleton] at h
    rw [h]
    exact List.Subset.refl _
  | .ifThen condition body, h | .while condition body, h => by
    rw [Statement.substatements, List.mem_cons] at h
    rcases h with rfl | h
    · exact List.Subset.refl _
    · intro t ht
      simp [Statement.tokens, inBraces, Statement.tokensAll_subset h ht]
  | .ifElse condition body alternative, h => by
    rw [Statement.substatements, List.mem_cons, List.mem_append] at h
    rcases h with rfl | h | h
    · exact List.Subset.refl _
    · intro t ht
      simp [Statement.tokens, inBraces, Statement.tokensAll_subset h ht]
    · intro t ht
      simp [Statement.tokens, inBraces, Statement.tokensAll_subset h ht]
termination_by structural statement => statement

theorem Statement.tokensAll_subset {u : Statement} : ∀ {statements : List Statement},
    u ∈ Statement.substatementsAll statements → u.tokens ⊆ Statement.tokensAll statements
  | [], h => by
    rw [Statement.substatementsAll] at h
    cases h
  | statement :: rest, h => by
    rw [Statement.substatementsAll, List.mem_append] at h
    rw [Statement.tokensAll]
    rcases h with h | h
    · exact List.subset_append_of_subset_left _ (Statement.tokens_subset h)
    · exact List.subset_append_of_subset_right _ (Statement.tokensAll_subset h)
termination_by structural statements => statements

end

mutual

/-- How many blocks and terms enclose each other inside a statement. -/
def Statement.depth : Statement → Nat
  | .assign _ value => value.depth
  | .assignElement _ index value => max index.depth value.depth
  | .ifThen condition body | .while condition body =>
    max condition.depth (Statement.depthAll body + 1)
  | .ifElse condition body alternative =>
    max condition.depth (max (Statement.depthAll body + 1) (Statement.depthAll alternative + 1))
  | .call _ _ arguments => Expression.depthAll arguments
  | .return none => 0
  | .return (some value) => value.depth
termination_by structural statement => statement

def Statement.depthAll : List Statement → Nat
  | [] => 0
  | statement :: rest => max statement.depth (Statement.depthAll rest)
termination_by structural statements => statements

end

namespace Subroutine

/-- All statements of the body, at any depth. -/
def statements (s : Subroutine) : List Statement := Statement.substatementsAll s.body

/-- All terms of the body, at any depth. -/
def terms (s : Subroutine) : List Term :=
  s.statements.flatMap fun statement => Expression.subtermsAll statement.expressions

/-- How many blocks and terms enclose each other in the body, the body itself among them. -/
def depth (s : Subroutine) : Nat := Statement.depthAll s.body + 1

theorem tokens_subset_of_mem_statements {s : Subroutine} {statement : Statement}
    (h : statement ∈ s.statements) : statement.tokens ⊆ s.tokens := by
  intro t ht
  simp [tokens, bodyTokens, inBraces, Statement.tokensAll_subset h ht]

theorem tokens_subset_of_mem_terms {s : Subroutine} {term : Term} (h : term ∈ s.terms) :
    term.tokens ⊆ s.tokens := by
  obtain ⟨statement, hs, hterm⟩ := List.mem_flatMap.1 h
  exact List.Subset.trans (Statement.tokens_subset_of_mem_subtermsAll hterm)
    (tokens_subset_of_mem_statements hs)

end Subroutine

theorem Class.tokens_subset_of_mem_subroutines {c : Class} {s : Subroutine}
    (h : s ∈ c.subroutines) : s.tokens ⊆ c.tokens := by
  intro t ht
  have : t ∈ c.subroutines.flatMap Subroutine.tokens := List.mem_flatMap.2 ⟨s, h, ht⟩
  rw [Class.tokens, inBraces]
  simp only [List.mem_cons, List.mem_append, this, or_true, true_or]

end Syntax
end JackLang
