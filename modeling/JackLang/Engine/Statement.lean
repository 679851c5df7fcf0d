import JackLang.Engine.Expression

/-! Statements, compiled. Branches and loops jump on the negated condition. -/

namespace JackLang.Engine

variable (enclosing : Enclosing) (expression block : Engine Unit)

def letStatement : Engine Unit := do
  note (.open "letStatement")
  expectKeyword .let
  let (name, span) ← identifier
  let target ← resolve name span
  noteName name .varName false
  if (← read Parser.currentSymbol) = some .openBracket then
    advance
    write target.pushInstr
    expression
    expectSymbol .closeBracket
    write (.operate .add)
    expectSymbol .equal
    expression
    -- The value lies on its address: it is put aside until the address is set.
    write (.pop .temp 0)
    write (.pop .pointer 1)
    write (.push .temp 0)
    write (.pop .that 0)
  else
    expectSymbol .equal
    expression
    write target.popInstr
  expectSymbol .semicolon
  note (.close "letStatement")

/-- Jumps to a label unless the condition holds. -/
def jumpUnless (label : String) : Engine Unit := do
  write (.operate .not)
  write (.ifGoto label)

def ifStatement : Engine Unit := do
  note (.open "ifStatement")
  expectKeyword .if
  expectSymbol .openParen
  expression
  expectSymbol .closeParen
  let labels ← drawLabels enclosing .if
  jumpUnless labels.first
  block
  if (← read Parser.currentKeyword) = some .else then
    advance
    write (.goto labels.second)
    write (.label labels.first)
    block
    write (.label labels.second)
  else write (.label labels.first)
  note (.close "ifStatement")

def whileStatement : Engine Unit := do
  note (.open "whileStatement")
  expectKeyword .while
  expectSymbol .openParen
  let labels ← drawLabels enclosing .while
  write (.label labels.first)
  expression
  expectSymbol .closeParen
  jumpUnless labels.second
  block
  write (.goto labels.first)
  write (.label labels.second)
  note (.close "whileStatement")

/-- The result of the call is dropped. -/
def doStatement : Engine Unit := do
  note (.open "doStatement")
  expectKeyword .do
  let (name, span) ← identifier
  callOf enclosing expression name span
  write (.pop .temp 0)
  expectSymbol .semicolon
  note (.close "doStatement")

def returnStatement : Engine Unit := do
  note (.open "returnStatement")
  expectKeyword .return
  if (← read Parser.currentSymbol) = some .semicolon then write (.push .constant 0)
  else expression
  write .return
  expectSymbol .semicolon
  note (.close "returnStatement")

/-- The statement that the current keyword begins, if it begins one. -/
def statement? : Engine Bool := do
  match ← read Parser.currentKeyword with
  | some .let => letStatement expression; return true
  | some .if => ifStatement enclosing expression block; return true
  | some .while => whileStatement enclosing expression block; return true
  | some .do => doStatement enclosing expression; return true
  | some .return => returnStatement expression; return true
  | _ => return false

/-- Statements in braces. -/
def braced (statements : Engine Unit) : Engine Unit := do
  expectSymbol .openBrace
  statements
  expectSymbol .closeBrace

/-- Statements that may contain `levels` levels of statement blocks and terms, themselves among
them. -/
def statements : Nat → Engine Unit
  | 0 => read (Parser.unexpected (.shallower .statements))
  | levels + 1 => do
    note (.open "statements")
    repeatWhile
      (statement? enclosing (Engine.expression enclosing levels) (braced (statements levels)))
    note (.close "statements")

end JackLang.Engine
