import JackLang.Parser.Class

/-! The grammar as procedures on a lexer. A parser is a function of tokens that are all read already;
a procedure asks a lexer for them one at a time. It can look at the current token, have the lexer
advance, count levels of nesting up and down, call the procedure of a production, and repeat a step
for as long as the step says. Nothing bounds a repetition or a recursion but what is read. -/

namespace JackLang

/-! ### What procedures are made of -/

/-- What reads a class: a lexer, and how many blocks and terms enclose the place it has come to. -/
structure Reader where
  lexer : Lexer
  depth : Nat := 0

/-- What a procedure sees of a reader. -/
structure View where
  current? : Option Token
  span : Span
  depth : Nat
deriving DecidableEq, Repr

/-- A stream that has the current token alone. -/
def View.stream (v : View) : TokenStream :=
  ⟨(v.current?.map (⟨·, v.span⟩)).toList, v.span, none⟩

namespace Reader

def ofLines (lines : List Line) : Reader := { lexer := .ofLines lines }

def view (reader : Reader) : View where
  current? := reader.lexer.current.map (·.token)
  span := (reader.lexer.current.map (·.span)).getD reader.lexer.position
  depth := reader.depth

end Reader

/-- The productions of the grammar, each with what it finds. The body of a term is what is left of
it once its level of nesting is counted. -/
inductive Production : Type → Type
  | classDeclaration : Production Class
  | declaration (kind : VarKind) (scopes : Scopes) : Production (Declaration × Scopes)
  | subroutine (className : String) (kind : SubroutineKind) (scopes : Scopes) :
    Production Subroutine
  | parameters (scopes : Scopes) : Production (List Variable × Scopes)
  | statements (cx : Context) : Production (List Statement)
  | letStatement (cx : Context) : Production Statement
  | ifStatement (cx : Context) : Production Statement
  | whileStatement (cx : Context) : Production Statement
  | doStatement (cx : Context) : Production Statement
  | returnStatement (cx : Context) : Production Statement
  | expression (cx : Context) : Production Expression
  | term (cx : Context) : Production Term
  | termBody (cx : Context) : Production Term
  | call (cx : Context) (name : String) (span : Span) :
    Production (Callee × String × List Expression)
  | arguments (cx : Context) : Production (List Expression)

/-- The repetitions of the grammar. -/
inductive Loop
  | classVars | subroutines | names | parameters | locals | statements | operators | arguments
deriving DecidableEq, Repr

/-- A place that a run may come by again and again: the start of a production, or of a round of a
loop. -/
inductive Site
  | classDeclaration | declaration | subroutine | parameters | statements
  | letStatement | ifStatement | whileStatement | doStatement | returnStatement
  | expression | term | termBody | call | arguments
  | loop (loop : Loop)
deriving DecidableEq, Repr

def Production.site {α : Type} : Production α → Site
  | classDeclaration => .classDeclaration
  | declaration .. => .declaration
  | subroutine .. => .subroutine
  | parameters _ => .parameters
  | statements _ => .statements
  | letStatement _ => .letStatement
  | ifStatement _ => .ifStatement
  | whileStatement _ => .whileStatement
  | doStatement _ => .doStatement
  | returnStatement _ => .returnStatement
  | expression _ => .expression
  | term _ => .term
  | termBody _ => .termBody
  | call .. => .call
  | arguments _ => .arguments

inductive Procedure : Type → Type 1
  | answer {α : Type} (answer : Except Fault α) : Procedure α
  | look {α : Type} (next : View → Procedure α) : Procedure α
  /-- Has the lexer advance. -/
  | read {α : Type} (next : Procedure α) : Procedure α
  | descend {α : Type} (next : Procedure α) : Procedure α
  | ascend {α : Type} (next : Procedure α) : Procedure α
  | call {α : Type} (p : Production α) : Procedure α
  | loop {σ : Type} (loop : Loop) (step : σ → Procedure (ForInStep σ)) (state : σ) : Procedure σ
  | bind {α β : Type} (first : Procedure α) (next : α → Procedure β) : Procedure β

namespace Procedure

instance : Monad Procedure where
  pure a := answer (.ok a)
  bind := bind

/-! ### One token -/

/-- What a parser finds that consumes nothing: it sees the current token and no other. -/
def peek {α : Type} (q : Parser α) : Procedure α :=
  look fun v => match q.run v.stream with
    | .ok a _ => return a
    | .error fault _ => answer (.error fault)

/-- Consumes the current token, which there has to be. -/
def advance : Procedure Unit := do
  match ← peek Parser.current with
  | some _ => read (return ())
  | none => peek (Parser.unexpected .token)

def expectKeyword (k : Keyword) : Procedure Unit := do
  if (← peek Parser.currentKeyword) = some k then advance
  else peek (Parser.unexpected (.keyword k))

def expectSymbol (symbol : Symbol) : Procedure Unit := do
  if (← peek Parser.currentSymbol) = some symbol then advance
  else peek (Parser.unexpected (.symbol symbol))

def identifier : Procedure (String × Span) := do
  match ← peek Parser.current with
  | some (.identifier name) =>
    let span ← peek Parser.span
    advance
    return (name, span)
  | _ => peek (Parser.unexpected .identifier)

/-! ### Repetition and nesting -/

def many {α : Type} (loop : Loop) (item? : Procedure (Option α)) : Procedure (List α) := do
  let items ← Procedure.loop loop (fun items => do
    match ← item? with
    | some item => return .yield (item :: items)
    | none => return .done items) []
  return items.reverse

def comma : Procedure Bool := do
  if (← peek Parser.currentSymbol) = some .comma then
    advance
    return true
  else return false

def commaSeparated {α : Type} (loop : Loop) (item : Procedure α) : Procedure (List α) := do
  let first ← item
  let rest ← many loop do if ← comma then return some (← item) else return none
  return first :: rest

/-- One level further down, if there is one. -/
def nest {α : Type} (nested : Nested) (inner : Procedure α) : Procedure α :=
  look fun v =>
    if v.depth < maxNesting then
      descend do
        let a ← inner
        ascend (return a)
    else peek (Parser.unexpected (.shallower nested))

end Procedure
end JackLang
