import JackLang.Program
import JackLang.Trace

/-! The trace of a class. Every production opens and closes a tag of its name; the tokens stand
between the tags in the order of the source. Every function adds the events of its argument behind
the events it is given. -/

namespace JackLang

namespace Trace

/-- Events in the order of the source. -/
abbrev Events := Array Event

namespace Events

def add (events : Events) (event : Event) : Events := Array.push events event

def «open» (events : Events) (tag : String) : Events := events.add (.open tag)

def close (events : Events) (tag : String) : Events := events.add (.close tag)

def token (events : Events) (t : Token) : Events := events.add (.ofToken t)

def keyword (events : Events) (k : Keyword) : Events := events.token (.keyword k)

def symbol (events : Events) (s : Symbol) : Events := events.token (.symbol s)

def className (events : Events) (name : String) (defined : Bool) : Events :=
  events.add (.identifier name .className none defined)

def subroutineName (events : Events) (name : String) (defined : Bool) : Events :=
  events.add (.identifier name .subroutineName none defined)

def varName (events : Events) (v : Variable) (defined : Bool) : Events :=
  events.add (.identifier v.name .varName (some (v.kind, v.index)) defined)

/-- The start and the end of the arguments of a call. -/
def openArguments (events : Events) : Events := (events.symbol .openParen).open "expressionList"

def closeArguments (events : Events) : Events :=
  (events.close "expressionList").symbol .closeParen

/-- The start and the end of a block of statements in braces. -/
def openBlock (events : Events) : Events := (events.symbol .openBrace).open "statements"

def closeBlock (events : Events) : Events := (events.close "statements").symbol .closeBrace

end Events
end Trace

open Trace (Events)

/-! ### Expressions -/

namespace Callee

/-- The names of a call up to its arguments. -/
def trace (subroutine : String) : Callee → Events → Events
  | own .., events => events.subroutineName subroutine false
  | object v, events =>
    ((events.varName v false).symbol .dot).subroutineName subroutine false
  | ofClass className, events =>
    ((events.className className false).symbol .dot).subroutineName subroutine false

end Callee

mutual

def Term.trace (term : Term) (events : Events) : Events :=
  let events := events.open "term"
  let events := match term with
    | .integer value => events.token (.integer value)
    | .string text => events.token (.string text)
    | .constant constant => events.keyword constant.keyword
    | .this _ => events.keyword .this
    | .variable v => events.varName v false
    | .element array index =>
      (index.trace ((events.varName array false).symbol .openBracket)).symbol .closeBracket
    | .call callee subroutine arguments =>
      Expression.traceArguments arguments (callee.trace subroutine events)
    | .group inner => (inner.trace (events.symbol .openParen)).symbol .closeParen
    | .unary op operand => operand.trace (events.symbol op.symbol)
  events.close "term"
termination_by structural term

def Expression.trace : Expression → Events → Events
  | .mk first rest, events =>
    (Expression.traceRest rest (first.trace (events.open "expression"))).close "expression"
termination_by structural expression => expression

def Expression.traceRest : List (Operator × Term) → Events → Events
  | [], events => events
  | (op, operand) :: rest, events =>
    Expression.traceRest rest (operand.trace (events.symbol op.symbol))
termination_by structural rest => rest

/-- The arguments of a call, in parentheses. -/
def Expression.traceArguments : List Expression → Events → Events
  | [], events => events.openArguments.closeArguments
  | expression :: rest, events =>
    (Expression.traceMore rest (expression.trace events.openArguments)).closeArguments
termination_by structural expressions => expressions

/-- Further expressions, each behind a comma. -/
def Expression.traceMore : List Expression → Events → Events
  | [], events => events
  | expression :: rest, events =>
    Expression.traceMore rest (expression.trace (events.symbol .comma))
termination_by structural expressions => expressions

end

/-! ### Statements -/

namespace Expression

/-- A condition in parentheses. -/
def traceCondition (condition : Expression) (events : Events) : Events :=
  (condition.trace (events.symbol .openParen)).symbol .closeParen

end Expression

mutual

def Statement.trace : Statement → Events → Events
  | .assign target value, events =>
    let events := (events.open "letStatement").keyword .let
    let events := value.trace ((events.varName target false).symbol .equal)
    (events.symbol .semicolon).close "letStatement"
  | .assignElement array index value, events =>
    let events := (events.open "letStatement").keyword .let
    let events := index.trace ((events.varName array false).symbol .openBracket)
    let events := value.trace ((events.symbol .closeBracket).symbol .equal)
    (events.symbol .semicolon).close "letStatement"
  | .ifThen condition body, events =>
    let events := condition.traceCondition ((events.open "ifStatement").keyword .if)
    (Statement.traceAll body events.openBlock).closeBlock.close "ifStatement"
  | .ifElse condition body alternative, events =>
    let events := condition.traceCondition ((events.open "ifStatement").keyword .if)
    let events := (Statement.traceAll body events.openBlock).closeBlock.keyword .else
    (Statement.traceAll alternative events.openBlock).closeBlock.close "ifStatement"
  | .while condition body, events =>
    let events := condition.traceCondition ((events.open "whileStatement").keyword .while)
    (Statement.traceAll body events.openBlock).closeBlock.close "whileStatement"
  | .call callee subroutine arguments, events =>
    let events := callee.trace subroutine ((events.open "doStatement").keyword .do)
    let events := Expression.traceArguments arguments events
    (events.symbol .semicolon).close "doStatement"
  | .return value, events =>
    let events := (events.open "returnStatement").keyword .return
    let events := match value with
      | none => events
      | some value => value.trace events
    (events.symbol .semicolon).close "returnStatement"
termination_by structural statement => statement

def Statement.traceAll : List Statement → Events → Events
  | [], events => events
  | statement :: rest, events => Statement.traceAll rest (statement.trace events)
termination_by structural statements => statements

end

/-! ### Declarations -/

namespace VarType

def trace : VarType → Events → Events
  | int, events => events.keyword .int
  | char, events => events.keyword .char
  | boolean, events => events.keyword .boolean
  | object className, events => events.className className false

end VarType

namespace Declaration

/-- Names being declared, with commas between them. -/
def traceNames : List Variable → Events → Events
  | [], events => events
  | v :: rest, events =>
    rest.foldl (fun events v => (events.symbol .comma).varName v true) (events.varName v true)

/-- The tag of a declaration and the keyword that begins it. -/
def heading : VarKind → String × Keyword
  | .static => ("classVarDec", .static)
  | .field => ("classVarDec", .field)
  | .argument | .local => ("varDec", .var)

def trace (d : Declaration) (events : Events) : Events :=
  let (tag, keyword) := heading d.kind
  let events := d.type.trace ((events.open tag).keyword keyword)
  ((traceNames d.vars events).symbol .semicolon).close tag

end Declaration

namespace Subroutine

def traceParameter (v : Variable) (events : Events) : Events :=
  (v.type.trace events).varName v true

def traceParameters : List Variable → Events → Events
  | [], events => events
  | v :: rest, events =>
    rest.foldl (fun events v => traceParameter v (events.symbol .comma)) (traceParameter v events)

def traceBody (s : Subroutine) (events : Events) : Events :=
  let events := (events.open "subroutineBody").symbol .openBrace
  let events := s.locals.foldl (fun events d => d.trace events) events
  let events := (Statement.traceAll s.body (events.open "statements")).closeBlock
  events.close "subroutineBody"

def trace (s : Subroutine) (events : Events) : Events :=
  let events := (events.open "subroutineDec").keyword s.kind.keyword
  let events := match s.returnType with
    | none => events.keyword .void
    | some type => type.trace events
  let events := (events.subroutineName s.name true).symbol .openParen
  let events := traceParameters s.parameters (events.open "parameterList")
  let events := (events.close "parameterList").symbol .closeParen
  (s.traceBody events).close "subroutineDec"

end Subroutine

namespace Class

/-- The trace of a class as a whole. -/
def trace (c : Class) : Events :=
  let events : Events := #[]
  let events := ((events.open "class").keyword .class).className c.name true
  let events := c.declarations.foldl (fun events d => d.trace events) (events.symbol .openBrace)
  let events := c.subroutines.foldl (fun events s => s.trace events) events
  (events.symbol .closeBrace).close "class"

end Class
end JackLang
