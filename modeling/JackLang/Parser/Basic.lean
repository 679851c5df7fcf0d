import JackLang.Program
import JackLang.TokenStream

/-! Parsers over a token stream. A parser answers with the rest of the stream also when it fails, so
that what it has read can be told.

The current token is the first of the stream. The token after it has been read already, so a fault
there is met when the current token is consumed (`Parser.advance`). -/

namespace JackLang

abbrev Parser := EStateM Fault TokenStream

namespace TokenStream

def current? (s : TokenStream) : Option Token := s.tokens.head?.map (·.token)

/-- The place of the current token, or of the end of the input. -/
def span (s : TokenStream) : Span := (s.tokens.head?.map (·.span)).getD s.position

end TokenStream

namespace Parser

/-! ### One token -/

/-- Looks at the first token of a stream, which may be a fault. -/
def start : Parser Unit := fun s =>
  match s with
  | ⟨[], _, some fault⟩ => .error fault s
  | s => .ok () s

def current : Parser (Option Token) := fun s => .ok s.current? s

def currentKeyword : Parser (Option Keyword) := fun s =>
  match s.current? with
  | some (.keyword k) => .ok (some k) s
  | _ => .ok none s

def currentSymbol : Parser (Option Symbol) := fun s =>
  match s.current? with
  | some (.symbol symbol) => .ok (some symbol) s
  | _ => .ok none s

def span : Parser Span := fun s => .ok s.span s

/-- The current token is not what the grammar has room for. -/
def unexpected {α : Type} (expected : Expectation) : Parser α := fun s =>
  .error (.unexpected s.span expected s.current?) s

/-- Consumes the current token, which there has to be. -/
def advance : Parser Unit := fun s =>
  match s.tokens with
  | [] => unexpected .token s
  | _ :: tokens => start { s with tokens }

def expectKeyword (k : Keyword) : Parser Unit := do
  if (← currentKeyword) = some k then advance else unexpected (.keyword k)

def expectSymbol (symbol : Symbol) : Parser Unit := do
  if (← currentSymbol) = some symbol then advance else unexpected (.symbol symbol)

/-- A name and its place. -/
def identifier : Parser (String × Span) := do
  match ← current with
  | some (.identifier name) =>
    let span ← span
    advance
    return (name, span)
  | _ => unexpected .identifier

/-! ### Repetition -/

/-- Repeats a step until it is done. Each round but the last consumes a token, so the tokens at the
start are enough rounds. -/
def iterate {σ : Type} (step : σ → Parser (ForInStep σ)) (state : σ) : Parser σ := fun s =>
  rounds s.tokens state s
where
  rounds : List Located → σ → Parser σ
    | [], state => pure state
    | _ :: left, state => do
      match ← step state with
      | .done state => return state
      | .yield state => rounds left state

/-- The items that `item?` finds one after the other. -/
def many {α : Type} (item? : Parser (Option α)) : Parser (List α) := do
  let items ← iterate (fun items => do
    match ← item? with
    | some item => return .yield (item :: items)
    | none => return .done items) []
  return items.reverse

/-- Whether a comma follows, which is consumed. -/
def comma : Parser Bool := do
  if (← currentSymbol) = some .comma then
    advance
    return true
  else return false

/-- One item or more, with commas between them. -/
def commaSeparated {α : Type} (item : Parser α) : Parser (List α) := do
  let first ← item
  let rest ← many do if ← comma then return some (← item) else return none
  return first :: rest

end Parser
end JackLang
