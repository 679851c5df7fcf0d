import JackLang.Proofs.Syntax.Tree
import Mathlib.Computability.Language

/-! Token sequences with the parts that names play in them. The leaves of a tree are its tokens, each
with its role: a name is declared, assigned, read or called, or none of these
(`Class.texts_leaves`). -/

namespace JackLang.Syntax

open scoped Computability

/-! ### Leaves -/

inductive Role
  | plain
  | declares (kind : VarKind)
  /-- The variable that an assignment sets, or one of its elements. -/
  | assigned
  /-- A variable in an expression, or one of its elements. -/
  | read
  /-- The first name of a call. -/
  | called
deriving DecidableEq, Repr

/-- A token in its place in a tree. -/
structure Leaf where
  token : Token
  role : Role
deriving DecidableEq, Repr

/-- The tokens of some leaves. -/
def texts (leaves : List Leaf) : List Token := leaves.map (·.token)

@[simp] theorem texts_nil : texts [] = [] := rfl

@[simp] theorem texts_cons (leaf : Leaf) (leaves : List Leaf) :
    texts (leaf :: leaves) = leaf.token :: texts leaves := rfl

@[simp] theorem texts_append (xs ys : List Leaf) : texts (xs ++ ys) = texts xs ++ texts ys :=
  List.map_append

@[simp] theorem length_texts (leaves : List Leaf) : (texts leaves).length = leaves.length :=
  List.length_map _

theorem texts_flatMap {β : Type} (f : β → List Leaf) (bs : List β) :
    texts (bs.flatMap f) = bs.flatMap (texts <| f ·) := List.map_flatMap

namespace Leaf

def keyword (k : Keyword) : Leaf := ⟨.keyword k, .plain⟩

def symbol (s : Symbol) : Leaf := ⟨.symbol s, .plain⟩

def name (role : Role) (name : String) : Leaf := ⟨.identifier name, role⟩

@[simp] theorem token_keyword (k : Keyword) : (keyword k).token = .keyword k := rfl

@[simp] theorem token_symbol (s : Symbol) : (symbol s).token = .symbol s := rfl

@[simp] theorem token_name (role : Role) (n : String) : (name role n).token = .identifier n := rfl

end Leaf

/-- Leaves between two symbols. -/
def enclosed (opening closing : Symbol) (leaves : List Leaf) : List Leaf :=
  .symbol opening :: (leaves ++ [.symbol closing])

/-! ### Expressions -/

/-- The names of a call, before its arguments. -/
def callLeaves (subroutine : String) : Option String → List Leaf
  | none => [.name .called subroutine]
  | some qualifier => [.name .called qualifier, .symbol .dot, .name .plain subroutine]

mutual

def Term.leaves : Term → List Leaf
  | .integer value => [⟨.integer value, .plain⟩]
  | .string text => [⟨.string text, .plain⟩]
  | .constant constant => [.keyword constant.keyword]
  | .this => [.keyword .this]
  | .variable name => [.name .read name]
  | .element array index => .name .read array :: enclosed .openBracket .closeBracket index.leaves
  | .call qualifier subroutine arguments => callLeaves subroutine qualifier ++
    enclosed .openParen .closeParen (Expression.leavesAll arguments)
  | .group inner => enclosed .openParen .closeParen inner.leaves
  | .unary op operand => .symbol op.symbol :: operand.leaves
termination_by structural term => term

def Expression.leaves : Expression → List Leaf
  | .mk first rest => first.leaves ++ Expression.leavesRest rest
termination_by structural expression => expression

def Expression.leavesRest : List (Operator × Term) → List Leaf
  | [] => []
  | (op, operand) :: rest => .symbol op.symbol :: (operand.leaves ++ Expression.leavesRest rest)
termination_by structural rest => rest

/-- Expressions with commas between them. -/
def Expression.leavesAll : List Expression → List Leaf
  | [] => []
  | expression :: rest => expression.leaves ++ Expression.leavesMore rest
termination_by structural expressions => expressions

/-- Further expressions, each behind a comma. -/
def Expression.leavesMore : List Expression → List Leaf
  | [] => []
  | expression :: rest => .symbol .comma :: (expression.leaves ++ Expression.leavesMore rest)
termination_by structural expressions => expressions

end

mutual

theorem Term.texts_leaves : ∀ term : Term, texts term.leaves = term.tokens
  | .integer _ | .string _ | .constant _ | .this | .variable _ => rfl
  | .element _ index => by
    simp [Term.leaves, Term.tokens, enclosed, inBrackets, Expression.texts_leaves index]
  | .call qualifier _ arguments => by
    cases qualifier <;> simp [Term.leaves, Term.tokens, callLeaves, callNames, enclosed, inParens,
      Expression.texts_leavesAll arguments]
  | .group inner => by
    simp [Term.leaves, Term.tokens, enclosed, inParens, Expression.texts_leaves inner]
  | .unary _ operand => by simp [Term.leaves, Term.tokens, Term.texts_leaves operand]
termination_by structural term => term

theorem Expression.texts_leaves : ∀ expression : Expression,
    texts expression.leaves = expression.tokens
  | .mk first rest => by
    simp [Expression.leaves, Expression.tokens, Term.texts_leaves first,
      Expression.texts_leavesRest rest]
termination_by structural expression => expression

theorem Expression.texts_leavesRest : ∀ rest : List (Operator × Term),
    texts (Expression.leavesRest rest) = Expression.tokensRest rest
  | [] => rfl
  | (_, operand) :: rest => by
    simp [Expression.leavesRest, Expression.tokensRest, Term.texts_leaves operand,
      Expression.texts_leavesRest rest]
termination_by structural rest => rest

theorem Expression.texts_leavesAll : ∀ expressions : List Expression,
    texts (Expression.leavesAll expressions) = Expression.tokensAll expressions
  | [] => rfl
  | expression :: rest => by
    simp [Expression.leavesAll, Expression.tokensAll, Expression.texts_leaves expression,
      Expression.texts_leavesMore rest]
termination_by structural expressions => expressions

theorem Expression.texts_leavesMore : ∀ expressions : List Expression,
    texts (Expression.leavesMore expressions) = Expression.tokensMore expressions
  | [] => rfl
  | expression :: rest => by
    simp [Expression.leavesMore, Expression.tokensMore, Expression.texts_leaves expression,
      Expression.texts_leavesMore rest]
termination_by structural expressions => expressions

end

/-! ### Statements -/

mutual

def Statement.leaves : Statement → List Leaf
  | .assign target value =>
    .keyword .let :: .name .assigned target :: .symbol .equal :: (value.leaves ++ [.symbol .semicolon])
  | .assignElement array index value =>
    .keyword .let :: .name .assigned array :: (enclosed .openBracket .closeBracket index.leaves ++
      .symbol .equal :: (value.leaves ++ [.symbol .semicolon]))
  | .ifThen condition body =>
    .keyword .if :: (enclosed .openParen .closeParen condition.leaves ++
      enclosed .openBrace .closeBrace (Statement.leavesAll body))
  | .ifElse condition body alternative =>
    .keyword .if :: (enclosed .openParen .closeParen condition.leaves ++
      (enclosed .openBrace .closeBrace (Statement.leavesAll body) ++
        .keyword .else :: enclosed .openBrace .closeBrace (Statement.leavesAll alternative)))
  | .while condition body =>
    .keyword .while :: (enclosed .openParen .closeParen condition.leaves ++
      enclosed .openBrace .closeBrace (Statement.leavesAll body))
  | .call qualifier subroutine arguments =>
    .keyword .do :: (callLeaves subroutine qualifier ++
      (enclosed .openParen .closeParen (Expression.leavesAll arguments) ++ [.symbol .semicolon]))
  | .return none => [.keyword .return, .symbol .semicolon]
  | .return (some value) => .keyword .return :: (value.leaves ++ [.symbol .semicolon])
termination_by structural statement => statement

def Statement.leavesAll : List Statement → List Leaf
  | [] => []
  | statement :: rest => statement.leaves ++ Statement.leavesAll rest
termination_by structural statements => statements

end

mutual

theorem Statement.texts_leaves : ∀ statement : Statement, texts statement.leaves = statement.tokens
  | .assign _ value => by
    simp [Statement.leaves, Statement.tokens, Expression.texts_leaves value]
  | .assignElement _ index value => by
    simp [Statement.leaves, Statement.tokens, enclosed, inBrackets, Expression.texts_leaves index,
      Expression.texts_leaves value]
  | .ifThen condition body => by
    simp [Statement.leaves, Statement.tokens, enclosed, inParens, inBraces,
      Expression.texts_leaves condition, Statement.texts_leavesAll body]
  | .ifElse condition body alternative => by
    simp [Statement.leaves, Statement.tokens, enclosed, inParens, inBraces,
      Expression.texts_leaves condition, Statement.texts_leavesAll body,
      Statement.texts_leavesAll alternative]
  | .while condition body => by
    simp [Statement.leaves, Statement.tokens, enclosed, inParens, inBraces,
      Expression.texts_leaves condition, Statement.texts_leavesAll body]
  | .call qualifier _ arguments => by
    cases qualifier <;> simp [Statement.leaves, Statement.tokens, callLeaves, callNames, enclosed,
      inParens, Expression.texts_leavesAll arguments]
  | .return none => rfl
  | .return (some value) => by
    simp [Statement.leaves, Statement.tokens, Expression.texts_leaves value]
termination_by structural statement => statement

theorem Statement.texts_leavesAll : ∀ statements : List Statement,
    texts (Statement.leavesAll statements) = Statement.tokensAll statements
  | [] => rfl
  | statement :: rest => by
    simp [Statement.leavesAll, Statement.tokensAll, Statement.texts_leaves statement,
      Statement.texts_leavesAll rest]
termination_by structural statements => statements

end

/-! ### Declarations and classes -/

/-- Phrases with commas between them. -/
def separated : List (List Leaf) → List Leaf
  | [] => []
  | first :: rest => first ++ rest.flatMap (.symbol .comma :: ·)

theorem texts_separated {β : Type} (f : β → List Leaf) (bs : List β) :
    texts (separated (bs.map f)) = withCommas (bs.map (texts <| f ·)) := by
  cases bs with
  | nil => rfl
  | cons b bs => simp [separated, withCommas, texts_flatMap, List.flatMap_map]

/-- The token that a type is. -/
def typeLeaf (type : VarType) : Leaf := ⟨type.token, .plain⟩

def Declaration.leaves (kind : VarKind) (d : Declaration) : List Leaf :=
  typeLeaf d.type ::
    (separated (d.names.map ([.name (.declares kind) ·])) ++ [.symbol .semicolon])

def Parameter.leaves (p : Parameter) : List Leaf :=
  [typeLeaf p.type, .name (.declares .argument) p.name]

namespace Subroutine

def returnLeaf (s : Subroutine) : Leaf := (s.returnType.map typeLeaf).getD (.keyword .void)

def bodyLeaves (s : Subroutine) : List Leaf :=
  enclosed .openBrace .closeBrace
    (s.locals.flatMap (fun d => .keyword .var :: d.leaves .local) ++ Statement.leavesAll s.body)

def leaves (s : Subroutine) : List Leaf :=
  .keyword s.kind.keyword :: s.returnLeaf :: .name .plain s.name ::
    (enclosed .openParen .closeParen (separated (s.parameters.map Parameter.leaves)) ++ s.bodyLeaves)

end Subroutine

def Class.leaves (c : Class) : List Leaf :=
  .keyword .class :: .name .plain c.name :: enclosed .openBrace .closeBrace
    (c.declarations.flatMap (fun d => .keyword d.1.keyword :: d.2.leaves d.1.kind) ++
      c.subroutines.flatMap Subroutine.leaves)

theorem Declaration.texts_leaves (kind : VarKind) (d : Declaration) :
    texts (d.leaves kind) = d.tokens := by
  simp [leaves, tokens, typeLeaf, texts_separated]

theorem Parameter.texts_leaves (p : Parameter) : texts p.leaves = p.tokens := rfl

theorem Subroutine.texts_leaves (s : Subroutine) : texts s.leaves = s.tokens := by
  have htype : s.returnLeaf.token = (s.returnType.map VarType.token).getD (.keyword .void) := by
    rw [returnLeaf]
    cases s.returnType <;> rfl
  simp [leaves, tokens, bodyLeaves, bodyTokens, enclosed, inParens, inBraces, htype, texts_separated,
    texts_flatMap, Parameter.texts_leaves, Declaration.texts_leaves, Statement.texts_leavesAll]

/-- The leaves of a class are its tokens, each in its role. -/
theorem Class.texts_leaves (c : Class) : texts c.leaves = c.tokens := by
  simp [leaves, tokens, enclosed, inBraces, texts_flatMap, Declaration.texts_leaves,
    Subroutine.texts_leaves]

end JackLang.Syntax
