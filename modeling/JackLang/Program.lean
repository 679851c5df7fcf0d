import JackLang.Token
import JackLang.Variable

/-! Classes as the grammar builds them, every variable and every current object already resolved.

The constructors follow the productions one for one, so that parentheses, `false` and `null`, and
declarations that share a type stay apart: the tokens of a program can be read off its tree. -/

namespace JackLang

/-! ### Operators and constants -/

inductive Operator
  | add | subtract | and | or | less | greater | equal | multiply | divide
deriving DecidableEq, Repr

namespace Operator

def symbol : Operator → Symbol
  | add => .plus | subtract => .minus | and => .ampersand | or => .bar | less => .less
  | greater => .greater | equal => .equal | multiply => .star | divide => .slash

def ofSymbol? : Symbol → Option Operator
  | .plus => some add | .minus => some subtract | .ampersand => some and | .bar => some or
  | .less => some less | .greater => some greater | .equal => some equal
  | .star => some multiply | .slash => some divide
  | _ => none

theorem ofSymbol?_eq_some_iff {s : Symbol} {op : Operator} :
    ofSymbol? s = some op ↔ s = op.symbol := by
  cases op <;> cases s <;> decide

end Operator

inductive UnaryOperator
  | negate | complement
deriving DecidableEq, Repr

namespace UnaryOperator

def symbol : UnaryOperator → Symbol
  | negate => .minus
  | complement => .tilde

end UnaryOperator

/-- The constants that are keywords. -/
inductive Constant
  | «true» | «false» | null
deriving DecidableEq, Repr

namespace Constant

def keyword : Constant → Keyword
  | .true => .true
  | .false => .false
  | null => .null

end Constant

/-! ### Expressions -/

/-- Where a subroutine has the current object: a method in its first argument, a constructor in the
pointer it has set. -/
inductive Receiver
  | argument | pointer
deriving DecidableEq, Repr

/-- What stands before the name of the called subroutine. -/
inductive Callee
  /-- Nothing: a method of the class itself, called on the current object. -/
  | own (receiver : Receiver) (className : String)
  /-- A variable: a method of its type, called on the object it holds. -/
  | object (v : Variable)
  /-- The name of a class: a function or constructor of it. -/
  | ofClass (className : String)
deriving DecidableEq, Repr

namespace Callee

/-- The class whose subroutine is called. -/
def className : Callee → String
  | own _ className => className
  | object v => v.type.text
  | ofClass className => className

/-- How many arguments are passed that the call does not write. -/
def implicitArguments : Callee → Nat
  | own .. | object _ => 1
  | ofClass _ => 0

end Callee

mutual

inductive Term
  | integer (value : Nat)
  | string (text : String)
  | constant (constant : Constant)
  | this (receiver : Receiver)
  | variable (v : Variable)
  | element (array : Variable) (index : Expression)
  | call (callee : Callee) (subroutine : String) (arguments : List Expression)
  | group (inner : Expression)
  | unary (op : UnaryOperator) (operand : Term)

/-- A term, and the operators with their right operands that follow it. -/
inductive Expression
  | mk (first : Term) (rest : List (Operator × Term))

end

/-! ### Statements -/

inductive Statement
  | assign (target : Variable) (value : Expression)
  | assignElement (array : Variable) (index value : Expression)
  | ifThen (condition : Expression) (body : List Statement)
  | ifElse (condition : Expression) (body alternative : List Statement)
  | «while» (condition : Expression) (body : List Statement)
  | call (callee : Callee) (subroutine : String) (arguments : List Expression)
  | «return» (value : Option Expression)

/-! ### Declarations -/

/-- Variables declared together: one kind, one type, and the names in order. -/
structure Declaration where
  kind : VarKind
  type : VarType
  vars : List Variable
deriving DecidableEq, Repr

inductive SubroutineKind
  | constructor | function | method
deriving DecidableEq, Repr

namespace SubroutineKind

def keyword : SubroutineKind → Keyword
  | constructor => .constructor
  | function => .function
  | method => .method

/-- A function has no current object. -/
def receiver? : SubroutineKind → Option Receiver
  | constructor => some .pointer
  | function => none
  | method => some .argument

end SubroutineKind

structure Subroutine where
  kind : SubroutineKind
  /-- None for `void`. -/
  returnType : Option VarType
  name : String
  parameters : List Variable
  locals : List Declaration
  body : List Statement

structure Class where
  name : String
  declarations : List Declaration
  subroutines : List Subroutine

namespace Declaration

/-- How many variables of a kind some declarations declare. -/
def count (kind : VarKind) (declarations : List Declaration) : Nat :=
  ((declarations.filter (·.kind = kind)).flatMap (·.vars)).length

end Declaration
end JackLang
