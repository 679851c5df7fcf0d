import JackLang.Emission
import JackLang.Parser.Class
import JackLang.Trace.Productions

/-! The engine, which compiles a class while it reads it. It consumes tokens one after the other and
on the way declares the names, notes the trace if one is asked for, and writes the code. What it
comes to by this is said by the tree that a parser finds in the same tokens. -/

namespace JackLang

/-- What an engine keeps: the names in scope, the trace if one is asked for, and what is written. -/
structure Ledger where
  scopes : Scopes := {}
  trace? : Option Trace.Events := none
  emission : Emission := {}

/-- The tokens that an engine has before it, and what it keeps. -/
structure Session where
  stream : TokenStream
  ledger : Ledger := {}

abbrev Engine := EStateM Fault Session

/-- The subroutine around what is compiled. -/
structure Enclosing where
  className : String
  subroutine : String
  kind : SubroutineKind

namespace Engine

/-- What a parser finds in the tokens. -/
def read {α : Type} (q : Parser α) : Engine α := fun ⟨stream, ledger⟩ =>
  match q stream with
  | .ok a stream => .ok a ⟨stream, ledger⟩
  | .error fault stream => .error fault ⟨stream, ledger⟩

/-! ### The trace -/

/-- Notes an event if a trace is kept. -/
def note (event : Trace.Event) : Engine Unit := fun ⟨stream, scopes, trace?, emission⟩ =>
  .ok () ⟨stream, scopes, trace?.map (·.add event), emission⟩

/-- Notes a name if a trace is kept; only then is it looked up what a variable is. -/
def noteName (name : String) (role : Trace.Role) (defined : Bool) : Engine Unit := fun s =>
  match s with
  | ⟨_, _, none, _⟩ => .ok () s
  | ⟨stream, scopes, some events, emission⟩ =>
    let binding := match role with
      | .varName => (scopes.find? name).map fun v => (v.kind, v.index)
      | .className | .subroutineName => none
    .ok () ⟨stream, scopes, some (events.add (.identifier name role binding defined)), emission⟩

/-! ### Names -/

def declare (name : String) (type : VarType) (kind : VarKind) (span : Span) : Engine Unit :=
  fun ⟨stream, scopes, trace?, emission⟩ =>
    match Scopes.declare name type kind span scopes with
    | .ok _ scopes => .ok () ⟨stream, scopes, trace?, emission⟩
    | .error fault scopes => .error fault ⟨stream, scopes, trace?, emission⟩

def enterSubroutine : Engine Unit := fun ⟨stream, scopes, trace?, emission⟩ =>
  .ok () ⟨stream, scopes.enterSubroutine, trace?, emission⟩

/-- The variable that a name stands for. -/
def lookup (name : String) : Engine (Option Variable) := fun s =>
  .ok (s.ledger.scopes.find? name) s

/-- How many variables of a kind are declared. -/
def count (kind : VarKind) : Engine Nat := fun s => .ok (s.ledger.scopes.count kind) s

/-- The variable that a name at `span` has to stand for. -/
def resolve (name : String) (span : Span) : Engine Variable := do
  match ← lookup name with
  | some v => return v
  | none => throw (.undefined name span)

/-! ### The code -/

/-- Writes an instruction, unless its operands are at fault. -/
def write (instr : Instr) : Engine Unit := fun ⟨stream, scopes, trace?, code, labels⟩ =>
  match code.add instr with
  | .ok code => .ok () ⟨stream, scopes, trace?, code, labels⟩
  | .error fault => .error (.operand fault) ⟨stream, scopes, trace?, code, labels⟩

/-- Takes the labels of a branch or a loop. -/
def drawLabels (enclosing : Enclosing) (construct : Construct) : Engine LabelPair :=
  fun ⟨stream, scopes, trace?, code, labels⟩ =>
    match labels.next enclosing.className enclosing.subroutine construct with
    | .ok (pair, labels) => .ok pair ⟨stream, scopes, trace?, code, labels⟩
    | .error fault => .error (.label fault) ⟨stream, scopes, trace?, code, labels⟩

/-! ### One token -/

/-- Consumes the current token, which there has to be. What a name is gets noted by those who know,
any other token here. -/
def advance : Engine Unit := do
  match ← read Parser.current with
  | none => read (Parser.unexpected .token)
  | some (.identifier _) => read Parser.advance
  | some token =>
    note (.ofToken token)
    read Parser.advance

def expectKeyword (k : Keyword) : Engine Unit := do
  if (← read Parser.currentKeyword) = some k then advance
  else read (Parser.unexpected (.keyword k))

def expectSymbol (symbol : Symbol) : Engine Unit := do
  if (← read Parser.currentSymbol) = some symbol then advance
  else read (Parser.unexpected (.symbol symbol))

def identifier : Engine (String × Span) := do
  match ← read Parser.current with
  | some (.identifier name) =>
    let span ← read Parser.span
    advance
    return (name, span)
  | _ => read (Parser.unexpected .identifier)

/-! ### Repetition -/

/-- Repeats a step until it is done. As each round but the last consumes a token, the tokens at the
start are enough rounds. -/
def iterate {σ : Type} (step : σ → Engine (ForInStep σ)) (state : σ) : Engine σ := fun s =>
  rounds s.stream.tokens state s
where
  rounds : List Located → σ → Engine σ
    | [], state => pure state
    | _ :: left, state => do
      match ← step state with
      | .done state => return state
      | .yield state => rounds left state

/-- Repeats a round for as long as it says. -/
def repeatWhile (round : Engine Bool) : Engine Unit :=
  iterate (fun _ => do if ← round then return .yield () else return .done ()) ()

/-- Whether a comma follows, which is consumed. -/
def comma : Engine Bool := do
  if (← read Parser.currentSymbol) = some .comma then
    advance
    return true
  else return false

end Engine
end JackLang
