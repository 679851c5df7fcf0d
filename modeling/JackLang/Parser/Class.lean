import JackLang.Parser.Statement

/-! Declarations, subroutines and classes.

`class := class name { classVarDec* subroutine* }`,
`classVarDec := (static | field) names`, `names := type name (, name)* ;`,
`subroutine := (constructor | function | method) (void | type) name ( parameters ) body`,
`body := { (var names)* statement* }`. -/

namespace JackLang.Parser

/-! ### Declarations -/

/-- The type at the current token. -/
def type? : Parser (Option VarType) := do
  match ← current with
  | some (.keyword .int) => return some .int
  | some (.keyword .char) => return some .char
  | some (.keyword .boolean) => return some .boolean
  | some (.identifier name) => return some (.object name)
  | _ => return none

def type : Parser VarType := do
  match ← type? with
  | some type =>
    advance
    return type
  | none => unexpected .type

/-- Declares the name at the current token. -/
def declaredName (scopes : Scopes) (type : VarType) (kind : VarKind) :
    Parser (Variable × Scopes) := do
  let (name, span) ← identifier
  match Scopes.declare name type kind span scopes with
  | .ok v scopes => return (v, scopes)
  | .error fault _ => throw fault

/-- One item or more, with commas between them, each declaring a variable. -/
def declaredItems (item : Scopes → Parser (Variable × Scopes)) (scopes : Scopes) :
    Parser (List Variable × Scopes) := do
  let (first, scopes) ← item scopes
  let (vars, scopes) ← iterate (fun (vars, scopes) => do
    if ← comma then
      let (v, scopes) ← item scopes
      return .yield (v :: vars, scopes)
    else return .done (vars, scopes)) ([first], scopes)
  return (vars.reverse, scopes)

/-- `type name (, name)* ;` -/
def declaration (kind : VarKind) (scopes : Scopes) : Parser (Declaration × Scopes) := do
  let type ← type
  let (vars, scopes) ← declaredItems (declaredName · type kind) scopes
  expectSymbol .semicolon
  return (⟨kind, type, vars⟩, scopes)

/-- The declarations that begin with a keyword for which `kind?` gives a kind. -/
def declarations (kind? : Keyword → Option VarKind) (scopes : Scopes) :
    Parser (List Declaration × Scopes) := do
  let (done, scopes) ← iterate (fun (done, scopes) => do
    match (← currentKeyword).bind kind? with
    | some kind =>
      advance
      let (declaration, scopes) ← declaration kind scopes
      return .yield (declaration :: done, scopes)
    | none => return .done (done, scopes)) ([], scopes)
  return (done.reverse, scopes)

def classLevelKind? : Keyword → Option VarKind
  | .static => some .static
  | .field => some .field
  | _ => none

def localKind? : Keyword → Option VarKind
  | .var => some .local
  | _ => none

/-! ### Subroutines -/

/-- `type name` -/
def parameter (scopes : Scopes) : Parser (Variable × Scopes) := do
  let type ← type
  declaredName scopes type .argument

def parameters (scopes : Scopes) : Parser (List Variable × Scopes) := do
  if (← type?).isSome then declaredItems parameter scopes else return ([], scopes)

def subroutineKind? : Keyword → Option SubroutineKind
  | .constructor => some .constructor
  | .function => some .function
  | .method => some .method
  | _ => none

/-- The scope a subroutine starts with; the current object is the first argument of a method. -/
def subroutineScopes (className : String) (kind : SubroutineKind) (span : Span) (scopes : Scopes) :
    Parser Scopes :=
  let scopes := scopes.enterSubroutine
  match kind with
  | .constructor | .function => return scopes
  | .method =>
    match Scopes.declare "this" (.object className) .argument span scopes with
    | .ok _ scopes => return scopes
    | .error fault _ => throw fault

/-- A constructor allocates its fields with one constant. -/
def checkFields (className : String) (kind : SubroutineKind) (scopes : Scopes) : Parser Unit :=
  let fields := scopes.count .field
  if kind = .constructor ∧ maxConstant < fields then throw (.tooManyFields className fields)
  else pure ()

/-- A subroutine, from its keyword on. -/
def subroutine (className : String) (kind : SubroutineKind) (scopes : Scopes) :
    Parser Subroutine := do
  let span ← span
  advance
  let scopes ← subroutineScopes className kind span scopes
  let returnType ←
    if (← currentKeyword) = some .void then
      advance
      pure none
    else some <$> type
  let (name, _) ← identifier
  expectSymbol .openParen
  let (parameters, scopes) ← parameters scopes
  expectSymbol .closeParen
  expectSymbol .openBrace
  let (locals, scopes) ← declarations localKind? scopes
  checkFields className kind scopes
  let body ← statements ⟨className, kind, scopes⟩ maxNesting
  expectSymbol .closeBrace
  return ⟨kind, returnType, name, parameters, locals, body⟩

/-! ### Classes -/

def classDeclaration : Parser Class := do
  expectKeyword .class
  let (name, _) ← identifier
  expectSymbol .openBrace
  let (classVars, scopes) ← declarations classLevelKind? {}
  let subroutines ← many do
    match (← currentKeyword).bind subroutineKind? with
    | some kind => return some (← subroutine name kind scopes)
    | none => return none
  expectSymbol .closeBrace
  return ⟨name, classVars, subroutines⟩

/-- One class and nothing behind it. -/
def program : Parser Class := do
  start
  let c ← classDeclaration
  if (← current).isSome then unexpected .endOfInput
  return c

end JackLang.Parser
