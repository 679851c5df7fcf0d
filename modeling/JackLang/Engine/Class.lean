import JackLang.Engine.Statement

/-! Declarations, subroutines and classes, compiled. -/

namespace JackLang.Engine

/-! ### Declarations -/

def type : Engine VarType := do
  match ← read Parser.type? with
  | some type =>
    if let .object name := type then noteName name .className false
    advance
    return type
  | none => read (Parser.unexpected .type)

/-- Declares the name at the current token. -/
def declaredName (type : VarType) (kind : VarKind) : Engine Unit := do
  let (name, span) ← identifier
  declare name type kind span
  noteName name .varName true

/-- One item or more, with commas between them. -/
def commaSeparated (item : Engine Unit) : Engine Unit := do
  item
  repeatWhile do
    if ← comma then
      item
      return true
    else return false

/-- The names that a declaration declares, behind its keyword. -/
def declaredNames (kind : VarKind) : Engine Unit := do
  let type ← type
  commaSeparated (declaredName type kind)
  expectSymbol .semicolon

/-- The declarations that begin with a keyword for which `kind?` gives a kind. -/
def declarations (kind? : Keyword → Option VarKind) : Engine Unit :=
  repeatWhile do
    match (← read Parser.currentKeyword).bind kind? with
    | some kind =>
      let (tag, keyword) := Declaration.heading kind
      note (.open tag)
      expectKeyword keyword
      declaredNames kind
      note (.close tag)
      return true
    | none => return false

/-! ### Subroutines -/

def parameter : Engine Unit := do
  let type ← type
  declaredName type .argument

def parameterList : Engine Unit := do
  note (.open "parameterList")
  if (← read Parser.type?).isSome then commaSeparated parameter
  note (.close "parameterList")

/-- The current object of a method is its first argument. -/
def declareReceiver (className : String) (kind : SubroutineKind) (span : Span) : Engine Unit :=
  match kind with
  | .method => declare "this" (.object className) .argument span
  | .constructor | .function => return

/-- A constructor allocates its fields with one constant. -/
def prologue (enclosing : Enclosing) : Engine Unit :=
  match enclosing.kind with
  | .constructor => do
    let fields ← count .field
    if maxConstant < fields then throw (.tooManyFields enclosing.className fields)
    write (.push .constant fields)
    write (.call "Memory.alloc" 1)
    write (.pop .pointer 0)
  | .method => do
    write (.push .argument 0)
    write (.pop .pointer 0)
  | .function => return

def subroutineBody (enclosing : Enclosing) : Engine Unit := do
  note (.open "subroutineBody")
  expectSymbol .openBrace
  declarations Parser.localKind?
  let locals ← count .local
  write (.function s!"{enclosing.className}.{enclosing.subroutine}" locals)
  prologue enclosing
  statements enclosing maxNesting
  expectSymbol .closeBrace
  note (.close "subroutineBody")

/-- A subroutine, from its keyword on. -/
def subroutine (className : String) (kind : SubroutineKind) : Engine Unit := do
  note (.open "subroutineDec")
  enterSubroutine
  let span ← read Parser.span
  advance
  declareReceiver className kind span
  if (← read Parser.currentKeyword) = some .void then advance else discard type
  let (name, _) ← identifier
  noteName name .subroutineName true
  expectSymbol .openParen
  parameterList
  expectSymbol .closeParen
  subroutineBody ⟨className, name, kind⟩
  note (.close "subroutineDec")

/-! ### Classes -/

def classDeclaration : Engine String := do
  note (.open "class")
  expectKeyword .class
  let (name, _) ← identifier
  noteName name .className true
  expectSymbol .openBrace
  declarations Parser.classLevelKind?
  repeatWhile do
    match (← read Parser.currentKeyword).bind Parser.subroutineKind? with
    | some kind =>
      subroutine name kind
      return true
    | none => return false
  expectSymbol .closeBrace
  note (.close "class")
  return name

/-- One class and nothing behind it. -/
def program : Engine String := do
  read Parser.start
  let name ← classDeclaration
  if (← read Parser.current).isSome then read (Parser.unexpected .endOfInput)
  return name

end JackLang.Engine
