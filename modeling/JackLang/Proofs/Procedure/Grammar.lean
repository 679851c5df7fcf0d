import JackLang.Proofs.Procedure.Basic

/-! The procedure of each production (`Production.procedure`), and that of a whole source
(`Procedure.program`). -/

namespace JackLang

namespace Procedure

/-! ### Expressions -/

def expression (cx : Context) : Procedure Expression := do
  let first ← call (.term cx)
  let rest ← many .operators do
    match ← peek Parser.operator? with
    | none => return none
    | some op =>
      advance
      return some (op, ← call (.term cx))
  return .mk first rest

def arguments (cx : Context) : Procedure (List Expression) := do
  if (← peek Parser.currentSymbol) = some .closeParen then return []
  else commaSeparated .arguments (call (.expression cx))

def callTail (cx : Context) (name : String) (span : Span) :
    Procedure (Callee × String × List Expression) := do
  match ← peek Parser.currentSymbol with
  | some .openParen =>
    let receiver ← peek (cx.receiver span)
    advance
    let arguments ← call (.arguments cx)
    expectSymbol .closeParen
    return (.own receiver cx.className, name, arguments)
  | some .dot =>
    let callee := match cx.scopes.find? name with
      | some v => Callee.object v
      | none => .ofClass name
    advance
    let (subroutine, _) ← identifier
    expectSymbol .openParen
    let arguments ← call (.arguments cx)
    expectSymbol .closeParen
    return (callee, subroutine, arguments)
  | _ => peek (Parser.unexpected .callTail)

def named (cx : Context) (name : String) (span : Span) : Procedure Term := do
  match ← peek Parser.currentSymbol with
  | some .openBracket =>
    let array ← peek (cx.resolve name span)
    advance
    let index ← call (.expression cx)
    expectSymbol .closeBracket
    return .element array index
  | some .openParen | some .dot =>
    let (callee, subroutine, arguments) ← call (.call cx name span)
    return .call callee subroutine arguments
  | _ => return .variable (← peek (cx.resolve name span))

def termBody (cx : Context) : Procedure Term := do
  let span ← peek Parser.span
  match ← peek Parser.current with
  | some (.integer value) =>
    if maxConstant < value then peek (throw (.integerTooLarge span value))
    advance
    return .integer value
  | some (.string text) =>
    advance
    peek (Parser.checkString text span)
    return .string text
  | some (.keyword .this) =>
    advance
    return .this (← peek (cx.receiver span))
  | some (.keyword k) =>
    match Parser.keywordConstant? k with
    | some constant =>
      advance
      return .constant constant
    | none => peek (Parser.unexpected .expression)
  | some (.symbol .openParen) =>
    advance
    let inner ← call (.expression cx)
    expectSymbol .closeParen
    return .group inner
  | some (.symbol .minus) =>
    advance
    return .unary .negate (← call (.term cx))
  | some (.symbol .tilde) =>
    advance
    return .unary .complement (← call (.term cx))
  | some (.identifier name) =>
    advance
    named cx name span
  | _ => peek (Parser.unexpected .expression)

/-! ### Statements -/

def letStatement (cx : Context) : Procedure Statement := do
  advance
  let (name, span) ← identifier
  let target ← peek (cx.resolve name span)
  if (← peek Parser.currentSymbol) = some .openBracket then
    advance
    let index ← call (.expression cx)
    expectSymbol .closeBracket
    expectSymbol .equal
    let value ← call (.expression cx)
    expectSymbol .semicolon
    return .assignElement target index value
  else
    expectSymbol .equal
    let value ← call (.expression cx)
    expectSymbol .semicolon
    return .assign target value

def condition (cx : Context) : Procedure Expression := do
  expectSymbol .openParen
  let condition ← call (.expression cx)
  expectSymbol .closeParen
  return condition

def block (cx : Context) : Procedure (List Statement) := do
  expectSymbol .openBrace
  let statements ← call (.statements cx)
  expectSymbol .closeBrace
  return statements

def ifStatement (cx : Context) : Procedure Statement := do
  advance
  let condition ← condition cx
  let body ← block cx
  if (← peek Parser.currentKeyword) = some .else then
    advance
    return .ifElse condition body (← block cx)
  else return .ifThen condition body

def whileStatement (cx : Context) : Procedure Statement := do
  advance
  let condition ← condition cx
  return .while condition (← block cx)

def doStatement (cx : Context) : Procedure Statement := do
  advance
  let (name, span) ← identifier
  let (callee, subroutine, arguments) ← call (.call cx name span)
  expectSymbol .semicolon
  return .call callee subroutine arguments

def returnStatement (cx : Context) : Procedure Statement := do
  advance
  let value ←
    if (← peek Parser.currentSymbol) = some .semicolon then pure none
    else some <$> call (.expression cx)
  expectSymbol .semicolon
  return .return value

def statement? (cx : Context) : Procedure (Option Statement) := do
  match ← peek Parser.currentKeyword with
  | some .let => some <$> call (.letStatement cx)
  | some .if => some <$> call (.ifStatement cx)
  | some .while => some <$> call (.whileStatement cx)
  | some .do => some <$> call (.doStatement cx)
  | some .return => some <$> call (.returnStatement cx)
  | _ => return none

/-! ### Declarations -/

def type : Procedure VarType := do
  match ← peek Parser.type? with
  | some type =>
    advance
    return type
  | none => peek (Parser.unexpected .type)

def declaredName (scopes : Scopes) (type : VarType) (kind : VarKind) :
    Procedure (Variable × Scopes) := do
  let (name, span) ← identifier
  match Scopes.declare name type kind span scopes with
  | .ok v scopes => return (v, scopes)
  | .error fault _ => peek (throw fault)

def declaredItems (loop : Loop) (item : Scopes → Procedure (Variable × Scopes)) (scopes : Scopes) :
    Procedure (List Variable × Scopes) := do
  let (first, scopes) ← item scopes
  let (vars, scopes) ← Procedure.loop loop (fun (vars, scopes) => do
    if ← comma then
      let (v, scopes) ← item scopes
      return .yield (v :: vars, scopes)
    else return .done (vars, scopes)) ([first], scopes)
  return (vars.reverse, scopes)

def declaration (kind : VarKind) (scopes : Scopes) : Procedure (Declaration × Scopes) := do
  let type ← type
  let (vars, scopes) ← declaredItems .names (declaredName · type kind) scopes
  expectSymbol .semicolon
  return (⟨kind, type, vars⟩, scopes)

def declarations (loop : Loop) (kind? : Keyword → Option VarKind) (scopes : Scopes) :
    Procedure (List Declaration × Scopes) := do
  let (done, scopes) ← Procedure.loop loop (fun (done, scopes) => do
    match (← peek Parser.currentKeyword).bind kind? with
    | some kind =>
      advance
      let (declaration, scopes) ← call (.declaration kind scopes)
      return .yield (declaration :: done, scopes)
    | none => return .done (done, scopes)) ([], scopes)
  return (done.reverse, scopes)

/-! ### Subroutines and classes -/

def parameter (scopes : Scopes) : Procedure (Variable × Scopes) := do
  let type ← type
  declaredName scopes type .argument

def parameters (scopes : Scopes) : Procedure (List Variable × Scopes) := do
  if (← peek Parser.type?).isSome then declaredItems .parameters parameter scopes
  else return ([], scopes)

def subroutine (className : String) (kind : SubroutineKind) (scopes : Scopes) :
    Procedure Subroutine := do
  let span ← peek Parser.span
  advance
  let scopes ← peek (Parser.subroutineScopes className kind span scopes)
  let returnType ←
    if (← peek Parser.currentKeyword) = some .void then
      advance
      pure none
    else some <$> type
  let (name, _) ← identifier
  expectSymbol .openParen
  let (parameters, scopes) ← call (.parameters scopes)
  expectSymbol .closeParen
  expectSymbol .openBrace
  let (locals, scopes) ← declarations .locals Parser.localKind? scopes
  peek (Parser.checkFields className kind scopes)
  let body ← call (.statements ⟨className, kind, scopes⟩)
  expectSymbol .closeBrace
  return ⟨kind, returnType, name, parameters, locals, body⟩

def classDeclaration : Procedure Class := do
  expectKeyword .class
  let (name, _) ← identifier
  expectSymbol .openBrace
  let (classVars, scopes) ← declarations .classVars Parser.classLevelKind? {}
  let subroutines ← many .subroutines do
    match (← peek Parser.currentKeyword).bind Parser.subroutineKind? with
    | some kind => return some (← call (.subroutine name kind scopes))
    | none => return none
  expectSymbol .closeBrace
  return ⟨name, classVars, subroutines⟩

/-- One class and nothing behind it, from its first token on. -/
def wholeClass : Procedure Class := do
  let c ← call .classDeclaration
  if (← peek Parser.current).isSome then peek (Parser.unexpected .endOfInput)
  return c

def program : Procedure Class := read wholeClass

end Procedure

/-- How a production is read. -/
def Production.procedure {α : Type} : Production α → Procedure α
  | classDeclaration => Procedure.classDeclaration
  | declaration kind scopes => Procedure.declaration kind scopes
  | subroutine className kind scopes => Procedure.subroutine className kind scopes
  | parameters scopes => Procedure.parameters scopes
  | statements cx => .nest .statements (.many .statements (Procedure.statement? cx))
  | letStatement cx => Procedure.letStatement cx
  | ifStatement cx => Procedure.ifStatement cx
  | whileStatement cx => Procedure.whileStatement cx
  | doStatement cx => Procedure.doStatement cx
  | returnStatement cx => Procedure.returnStatement cx
  | expression cx => Procedure.expression cx
  | term cx => .nest .expression (.call (.termBody cx))
  | termBody cx => Procedure.termBody cx
  | call cx name span => Procedure.callTail cx name span
  | arguments cx => Procedure.arguments cx

end JackLang
