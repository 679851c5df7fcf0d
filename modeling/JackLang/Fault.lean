import JackLang.Label
import JackLang.Limits
import JackLang.Token
import JackLang.Variable

/-! Causes that end the compilation of a class, each with the error it is reported as. -/

namespace JackLang

/-- The two constructs whose nesting is bounded. -/
inductive Nested
  | statements | expression
deriving DecidableEq, Repr

namespace Nested

def text : Nested → String
  | statements => "statements"
  | expression => "expression"

end Nested

/-- What the grammar has room for at some token. -/
inductive Expectation
  | keyword (keyword : Keyword)
  | symbol (symbol : Symbol)
  | identifier
  | type
  | expression
  /-- What follows the first name of a call. -/
  | callTail
  /-- One more level of nesting than there may be. -/
  | shallower (nested : Nested)
  | endOfInput
  /-- Anything to consume. -/
  | token
deriving DecidableEq, Repr

namespace Expectation

def text : Expectation → String
  | keyword k => s!"keyword '{k.text}'"
  | symbol s => s!"'{s.char}'"
  | identifier => "identifier"
  | type => "type (int, char, boolean or class name)"
  | expression => "expression"
  | callTail => "'(' or '.'"
  | shallower nested => s!"{nested.text} nested at most {maxNesting} levels deep"
  | endOfInput => "end of input"
  | token => "a token"

end Expectation

inductive Fault
  | unexpectedCharacter (span : Span) (c : Char)
  | unterminatedString (span : Span)
  | unterminatedComment (span : Span)
  | unreadable (line : Nat) (reason : String)
  /-- A token, or the end of the input, where the grammar expects something else. -/
  | unexpected (span : Span) (expected : Expectation) (found : Option Token)
  | integerTooLarge (span : Span) (value : Nat)
  | stringTooLong (span : Span)
  | characterTooLarge (span : Span) (c : Char)
  | duplicate (name : String) (span : Span)
  | undefined (name : String) (span : Span)
  | tooManyVariables (kind : VarKind) (span : Span)
  | tooManyFields (className : String) (fields : Nat)
  /-- An instruction that cannot be written. -/
  | operand (fault : OperandFault)
  /-- Labels that cannot be given out. -/
  | label (fault : LabelFault)
deriving DecidableEq, Repr

namespace Fault

def report : Fault → Error
  | unexpectedCharacter span c => .lexical span s!"unexpected character '{c}'"
  | unterminatedString span => .lexical span "unterminated string constant"
  | unterminatedComment span => .lexical span "unterminated block comment"
  | unreadable line reason => .read line reason
  | unexpected span expected found =>
    .syntactic span expected.text ((found.map Token.describe).getD "end of input")
  | integerTooLarge span value =>
    .lexical span s!"integer constant {value} exceeds maximum value {maxConstant}"
  | stringTooLong span => .lexical span "string constant too long"
  | characterTooLarge span c => .lexical span s!"character '{c}' has no VM encoding"
  | duplicate name span => .duplicate name span
  | undefined name span => .undefined name span
  | tooManyVariables kind span =>
    .operand s!"too many {kind.text} variables at {span.text} (limit {maxCount})"
  | tooManyFields className fields =>
    .operand s!"class {className} declares {fields} fields, more than an object can hold"
  | operand fault => fault.report
  | label fault => fault.report

end Fault
end JackLang
