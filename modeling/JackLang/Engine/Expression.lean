import JackLang.Engine.Basic

/-! Terms and expressions, compiled. -/

namespace JackLang.Engine

/-- Counts further arguments, as far as an instruction counts. -/
def countMore (count more : Nat) : Nat := min (count + more) maxCount

/-- The current object, which a function does not have. -/
def pushReceiver (enclosing : Enclosing) (span : Span) : Engine Unit :=
  match enclosing.kind.receiver? with
  | some receiver => write receiver.instr
  | none => throw (.undefined "this" span)

/-! ### String constants -/

def appendChars (span : Span) : List Char → Engine Unit
  | [] => return
  | c :: cs => do
    if maxConstant < c.toNat then throw (.characterTooLarge span c)
    write (.push .constant c.toNat)
    write (.call "String.appendChar" 2)
    appendChars span cs

/-- Makes a string at run time, one character after the other. -/
def stringConstant (text : String) (span : Span) : Engine Unit := do
  if maxConstant < text.length then throw (.stringTooLong span)
  write (.push .constant text.length)
  write (.call "String.new" 1)
  appendChars span text.toList

/-! ### Expressions over their terms -/

/-- The right operand comes before its operator in the code. -/
def expressionOf (term : Engine Unit) : Engine Unit := do
  note (.open "expression")
  term
  repeatWhile do
    match ← read Parser.operator? with
    | none => return false
    | some op =>
      advance
      term
      write op.instr
      return true
  note (.close "expression")

/-- One item or more, with commas between them, which are counted. -/
def counted (item : Engine Unit) : Engine Nat := do
  item
  iterate (fun count => do
    if ← comma then
      item
      return .yield (countMore count 1)
    else return .done count) (countMore 0 1)

/-- The arguments of a call, which are counted. -/
def arguments (expression : Engine Unit) : Engine Nat := do
  note (.open "expressionList")
  let count ←
    if (← read Parser.currentSymbol) = some .closeParen then pure 0 else counted expression
  note (.close "expressionList")
  return count

/-- The rest of a call behind its first name. A method of an object gets that before its arguments.
-/
def callOf (enclosing : Enclosing) (expression : Engine Unit) (name : String) (span : Span) :
    Engine Unit := do
  match ← read Parser.currentSymbol with
  | some .openParen =>
    noteName name .subroutineName false
    pushReceiver enclosing span
    advance
    let count ← arguments expression
    expectSymbol .closeParen
    write (.call s!"{enclosing.className}.{name}" (countMore count 1))
  | some .dot =>
    let object? ← lookup name
    noteName name (if object?.isSome then .varName else .className) false
    advance
    let (subroutine, _) ← identifier
    noteName subroutine .subroutineName false
    expectSymbol .openParen
    let (className, implicit) ←
      match object? with
      | some v => do
        write v.pushInstr
        pure (v.type.text, 1)
      | none => pure (name, 0)
    let count ← arguments expression
    expectSymbol .closeParen
    write (.call s!"{className}.{subroutine}" (countMore count implicit))
  | _ => read (Parser.unexpected .callTail)

/-- What a name at the start of a term begins: an array element, a call or a variable. -/
def named (enclosing : Enclosing) (expression : Engine Unit) (name : String) (span : Span) :
    Engine Unit := do
  match ← read Parser.currentSymbol with
  | some .openBracket =>
    let array ← resolve name span
    noteName name .varName false
    advance
    write array.pushInstr
    expression
    expectSymbol .closeBracket
    write (.operate .add)
    write (.pop .pointer 1)
    write (.push .that 0)
  | some .openParen | some .dot => callOf enclosing expression name span
  | _ =>
    let v ← resolve name span
    noteName name .varName false
    write v.pushInstr

/-! ### Terms -/

/-- A term, once its level of nesting is counted. -/
def termBody (enclosing : Enclosing) (term : Engine Unit) : Engine Unit := do
  let span ← read Parser.span
  match ← read Parser.current with
  | some (.integer value) =>
    if maxConstant < value then throw (.integerTooLarge span value)
    advance
    write (.push .constant value)
  | some (.string text) =>
    advance
    stringConstant text span
  | some (.keyword .true) =>
    advance
    write (.push .constant 1)
    write (.operate .neg)
  | some (.keyword .false) | some (.keyword .null) =>
    advance
    write (.push .constant 0)
  | some (.keyword .this) =>
    advance
    pushReceiver enclosing span
  | some (.symbol .openParen) =>
    advance
    expressionOf term
    expectSymbol .closeParen
  | some (.symbol .minus) =>
    advance
    term
    write (.operate .neg)
  | some (.symbol .tilde) =>
    advance
    term
    write (.operate .not)
  | some (.identifier name) =>
    advance
    named enclosing (expressionOf term) name span
  | _ => read (Parser.unexpected .expression)

/-- A term that may contain `levels` levels of terms, itself among them. -/
def term (enclosing : Enclosing) : Nat → Engine Unit
  | 0 => read (Parser.unexpected (.shallower .expression))
  | levels + 1 => do
    note (.open "term")
    termBody enclosing (term enclosing levels)
    note (.close "term")

/-- An expression whose terms may contain `levels` levels of terms. -/
def expression (enclosing : Enclosing) (levels : Nat) : Engine Unit :=
  expressionOf (term enclosing levels)

end JackLang.Engine
