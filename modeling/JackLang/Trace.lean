import JackLang.Token
import JackLang.Variable

/-! Traces: indented documents of nested tags that show the productions and tokens of a class. -/

namespace JackLang.Trace

/-- What an identifier names. -/
inductive Role
  | className | subroutineName | varName
deriving DecidableEq, Repr

namespace Role

def text : Role → String
  | className => "className"
  | subroutineName => "subroutineName"
  | varName => "varName"

def all : List Role := [className, subroutineName, varName]

def ofText? (word : String) : Option Role := all.find? (·.text == word)

end Role

/-- One line of a trace. -/
inductive Event
  | «open» (tag : String)
  | close (tag : String)
  | terminal (category : Category) (value : String)
  /-- An identifier, with the kind and index of the variable it stands for, at its declaration or
  at a use. -/
  | identifier (name : String) (role : Role) (binding : Option (VarKind × Nat)) (defined : Bool)
deriving DecidableEq, Repr

namespace Event

/-- A token that is no identifier. -/
def ofToken (t : Token) : Event := terminal t.category t.value

def bindingText : Option (VarKind × Nat) → String
  | none => ""
  | some (kind, index) => s!" kind=\"{kind.text}\" index=\"{index}\""

def text : Event → String
  | «open» tag => s!"<{tag}>"
  | close tag => s!"</{tag}>"
  | terminal category value =>
    s!"<{category.text}> {Text.escape value} </{category.text}>"
  | identifier name role binding defined =>
    let state := if defined then "defined" else "used"
    s!"<identifier category=\"{role.text}\"{bindingText binding} {state}> " ++
      s!"{Text.escape name} </identifier>"

/-- The depths at which an event is written and after which the next one follows, when `depth` tags
are open. A tag that closes none is written like one that closes the last. -/
def depths (depth : Nat) : Event → Nat × Nat
  | «open» _ => (depth, depth + 1)
  | close _ => (depth - 1, depth - 1)
  | terminal .. | identifier .. => (depth, depth)

end Event

/-- One line for each event, indented by two spaces for each tag that is open around it. -/
def render (events : Array Event) : String :=
  (events.foldl (fun (text, depth) event =>
    let (here, next) := event.depths depth
    (text.pushn ' ' (2 * here) ++ event.text ++ "\n", next)) ("", 0)).1

end JackLang.Trace
