import JackLang.Parser.Expression

/-! Statements.

`let name ([ expression ])? = expression ;`, `if ( expression ) block (else block)?`,
`while ( expression ) block`, `do call ;`, `return expression? ;`, `block := { statement* }`. -/

namespace JackLang.Parser

variable (cx : Context) (expression : Parser Expression) (block : Parser (List Statement))

/-- Each of these parsers starts at the keyword of its statement. -/
def letStatement : Parser Statement := do
  advance
  let (name, span) ← identifier
  let target ← cx.resolve name span
  if (← currentSymbol) = some .openBracket then
    advance
    let index ← expression
    expectSymbol .closeBracket
    expectSymbol .equal
    let value ← expression
    expectSymbol .semicolon
    return .assignElement target index value
  else
    expectSymbol .equal
    let value ← expression
    expectSymbol .semicolon
    return .assign target value

/-- A condition in parentheses. -/
def condition : Parser Expression := do
  expectSymbol .openParen
  let condition ← expression
  expectSymbol .closeParen
  return condition

def ifStatement : Parser Statement := do
  advance
  let condition ← condition expression
  let body ← block
  if (← currentKeyword) = some .else then
    advance
    return .ifElse condition body (← block)
  else return .ifThen condition body

def whileStatement : Parser Statement := do
  advance
  let condition ← condition expression
  return .while condition (← block)

def doStatement : Parser Statement := do
  advance
  let (name, span) ← identifier
  let (callee, subroutine, arguments) ← callOf cx expression name span
  expectSymbol .semicolon
  return .call callee subroutine arguments

def returnStatement : Parser Statement := do
  advance
  let value ←
    if (← currentSymbol) = some .semicolon then pure none else some <$> expression
  expectSymbol .semicolon
  return .return value

/-- The statement that the current keyword begins. -/
def statement? : Parser (Option Statement) := do
  match ← currentKeyword with
  | some .let => some <$> letStatement cx expression
  | some .if => some <$> ifStatement expression block
  | some .while => some <$> whileStatement expression block
  | some .do => some <$> doStatement cx expression
  | some .return => some <$> returnStatement expression
  | _ => return none

/-- Statements in braces. -/
def braced (statements : Parser (List Statement)) : Parser (List Statement) := do
  expectSymbol .openBrace
  let statements ← statements
  expectSymbol .closeBrace
  return statements

/-- Statements that may contain `levels` levels of statement blocks and terms, themselves among
them. -/
def statements : Nat → Parser (List Statement)
  | 0 => unexpected (.shallower .statements)
  | levels + 1 => many <|
    statement? cx (Parser.expression cx levels) (braced (statements levels))

end JackLang.Parser
