import JackLang.Parser.Basic
import JackLang.Scopes

/-! Terms and expressions.

`term? := integer | string | true | false | null | this | name | name [ expression ] | call |
( expression ) | - term | ~ term`, `expression := term (operator term)*`,
`call := name ( arguments ) | name . name ( arguments )`. -/

namespace JackLang

/-- Where in a program an expression stands. -/
structure Context where
  className : String
  kind : SubroutineKind
  scopes : Scopes

namespace Context

/-- The variable that a name at `span` stands for. -/
def resolve (cx : Context) (name : String) (span : Span) : Parser Variable :=
  match cx.scopes.find? name with
  | some v => pure v
  | none => throw (.undefined name span)

/-- The current object, which a function does not have. -/
def receiver (cx : Context) (span : Span) : Parser Receiver :=
  match cx.kind.receiver? with
  | some receiver => pure receiver
  | none => throw (.undefined "this" span)

end Context

namespace Parser

/-! ### Constants -/

/-- A string constant has to fit into a string object, each character into a constant. -/
def checkString (text : String) (span : Span) : Parser Unit :=
  if maxConstant < text.length then throw (.stringTooLong span)
  else match text.toList.find? (maxConstant < ·.toNat) with
    | some c => throw (.characterTooLarge span c)
    | none => pure ()

def keywordConstant? : Keyword → Option Constant
  | .true => some .true
  | .false => some .false
  | .null => some .null
  | _ => none

/-! ### Expressions over their terms -/

/-- The operator at the current token. -/
def operator? : Parser (Option Operator) := do
  return (← currentSymbol).bind Operator.ofSymbol?

/-- `term (operator term)*` -/
def expressionOf (term : Parser Term) : Parser Expression := do
  let first ← term
  let rest ← many do
    match ← operator? with
    | none => return none
    | some op =>
      advance
      return some (op, ← term)
  return .mk first rest

/-- `(expression (, expression)*)?` before a closing parenthesis. -/
def arguments (expression : Parser Expression) : Parser (List Expression) := do
  if (← currentSymbol) = some .closeParen then return [] else commaSeparated expression

/-- The rest of a call behind its first name. -/
def callOf (cx : Context) (expression : Parser Expression) (name : String) (span : Span) :
    Parser (Callee × String × List Expression) := do
  match ← currentSymbol with
  | some .openParen =>
    let receiver ← cx.receiver span
    advance
    let arguments ← arguments expression
    expectSymbol .closeParen
    return (.own receiver cx.className, name, arguments)
  | some .dot =>
    let callee := match cx.scopes.find? name with
      | some v => Callee.object v
      | none => .ofClass name
    advance
    let (subroutine, _) ← identifier
    expectSymbol .openParen
    let arguments ← arguments expression
    expectSymbol .closeParen
    return (callee, subroutine, arguments)
  | _ => unexpected .callTail

/-- What a name at the start of a term begins: an array element, a call or a variable. -/
def named (cx : Context) (expression : Parser Expression) (name : String) (span : Span) :
    Parser Term := do
  match ← currentSymbol with
  | some .openBracket =>
    let array ← cx.resolve name span
    advance
    let index ← expression
    expectSymbol .closeBracket
    return .element array index
  | some .openParen | some .dot =>
    let (callee, subroutine, arguments) ← callOf cx expression name span
    return .call callee subroutine arguments
  | _ => return .variable (← cx.resolve name span)

/-! ### Terms -/

/-- A term that may contain `levels` levels of terms, itself among them. -/
def term (cx : Context) : Nat → Parser Term
  | 0 => unexpected (.shallower .expression)
  | levels + 1 => do
    let span ← span
    match ← current with
    | some (.integer value) =>
      if maxConstant < value then throw (.integerTooLarge span value)
      advance
      return .integer value
    | some (.string text) =>
      advance
      checkString text span
      return .string text
    | some (.keyword .this) =>
      advance
      return .this (← cx.receiver span)
    | some (.keyword k) =>
      match keywordConstant? k with
      | some constant =>
        advance
        return .constant constant
      | none => unexpected .expression
    | some (.symbol .openParen) =>
      advance
      let inner ← expressionOf (term cx levels)
      expectSymbol .closeParen
      return .group inner
    | some (.symbol .minus) =>
      advance
      return .unary .negate (← term cx levels)
    | some (.symbol .tilde) =>
      advance
      return .unary .complement (← term cx levels)
    | some (.identifier name) =>
      advance
      named cx (expressionOf (term cx levels)) name span
    | _ => unexpected .expression

/-- An expression whose terms may contain `levels` levels of terms. -/
def expression (cx : Context) (levels : Nat) : Parser Expression :=
  expressionOf (term cx levels)

end Parser
end JackLang
