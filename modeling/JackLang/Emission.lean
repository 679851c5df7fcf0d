import JackLang.Label
import JackLang.Limits
import JackLang.Program

/-! The code of a class. Expressions are emitted in postfix order, strictly from left to right;
branches and loops jump on the negated condition. Every function adds the code of its argument
behind the code it is given. -/

namespace JackLang

/-! ### Expressions -/

namespace Operator

/-- The machine has no multiplication and no division; library functions stand in. -/
def instr : Operator → Instr
  | add => .operate .add | subtract => .operate .sub | and => .operate .and | or => .operate .or
  | less => .operate .lt | greater => .operate .gt | equal => .operate .eq
  | multiply => .call "Math.multiply" 2
  | divide => .call "Math.divide" 2

end Operator

namespace UnaryOperator

def instr : UnaryOperator → Instr
  | negate => .operate .neg
  | complement => .operate .not

end UnaryOperator

namespace Constant

def emit : Constant → Code → Code
  | .true, code => (code.push (.push .constant 1)).push (.operate .neg)
  | .false, code | null, code => code.push (.push .constant 0)

end Constant

namespace Receiver

def instr : Receiver → Instr
  | argument => .push .argument 0
  | pointer => .push .pointer 0

end Receiver

namespace Variable

def pushInstr (v : Variable) : Instr := .push v.segment v.index

def popInstr (v : Variable) : Instr := .pop v.segment v.index

end Variable

namespace Callee

/-- The object that a method is called on is its first argument. -/
def emit : Callee → Code → Code
  | own receiver _, code => code.push receiver.instr
  | object v, code => code.push v.pushInstr
  | ofClass _, code => code

/-- A call passes the written arguments and the implicit ones, as far as an instruction counts. -/
def callInstr (callee : Callee) (subroutine : String) (arguments : Nat) : Instr :=
  .call s!"{callee.className}.{subroutine}" (min (arguments + callee.implicitArguments) maxCount)

end Callee

/-- A string is made at run time, one character after the other. -/
def emitString (text : String) (code : Code) : Code :=
  let code := (code.push (.push .constant text.length)).push (.call "String.new" 1)
  text.toList.foldl (fun code c =>
    (code.push (.push .constant c.toNat)).push (.call "String.appendChar" 2)) code

mutual

def Term.emit : Term → Code → Code
  | .integer value, code => code.push (.push .constant value)
  | .string text, code => emitString text code
  | .constant constant, code => constant.emit code
  | .this receiver, code => code.push receiver.instr
  | .variable v, code => code.push v.pushInstr
  | .element array index, code =>
    let code := (index.emit (code.push array.pushInstr)).push (.operate .add)
    (code.push (.pop .pointer 1)).push (.push .that 0)
  | .call callee subroutine arguments, code =>
    (Expression.emitAll arguments (callee.emit code)).push
      (callee.callInstr subroutine arguments.length)
  | .group inner, code => inner.emit code
  | .unary op operand, code => (operand.emit code).push op.instr
termination_by structural term => term

def Expression.emit : Expression → Code → Code
  | .mk first rest, code => Expression.emitRest rest (first.emit code)
termination_by structural expression => expression

def Expression.emitRest : List (Operator × Term) → Code → Code
  | [], code => code
  | (op, operand) :: rest, code => Expression.emitRest rest ((operand.emit code).push op.instr)
termination_by structural rest => rest

def Expression.emitAll : List Expression → Code → Code
  | [], code => code
  | expression :: rest, code => Expression.emitAll rest (expression.emit code)
termination_by structural expressions => expressions

end

/-! ### Statements -/

/-- Code, and the labels that it has taken. -/
structure Emission where
  code : Code := #[]
  labels : Labels := {}

namespace Emission

def push (e : Emission) (instr : Instr) : Emission := { e with code := e.code.push instr }

/-- The code jumps to `label` unless the condition holds. -/
def pushUnless (e : Emission) (label : String) : Emission :=
  (e.push (.operate .not)).push (.ifGoto label)

end Emission

mutual

def Statement.emit (className subroutine : String) : Statement → Emission → Emission
  | .assign target value, ⟨code, labels⟩ => ⟨(value.emit code).push target.popInstr, labels⟩
  | .assignElement array index value, ⟨code, labels⟩ =>
    let code := (index.emit (code.push array.pushInstr)).push (.operate .add)
    -- The value lies on its address: it is put aside until the address is set.
    let code := ((value.emit code).push (.pop .temp 0)).push (.pop .pointer 1)
    ⟨(code.push (.push .temp 0)).push (.pop .that 0), labels⟩
  | .ifThen condition body, ⟨code, labels⟩ =>
    match labels.draw className subroutine .if with
    | (⟨first, _⟩, labels) =>
      let e : Emission := ⟨condition.emit code, labels⟩
      (Statement.emitAll className subroutine body (e.pushUnless first)).push (.label first)
  | .ifElse condition body alternative, ⟨code, labels⟩ =>
    match labels.draw className subroutine .if with
    | (⟨first, second⟩, labels) =>
      let e : Emission := ⟨condition.emit code, labels⟩
      let e := Statement.emitAll className subroutine body (e.pushUnless first)
      let e := (e.push (.goto second)).push (.label first)
      (Statement.emitAll className subroutine alternative e).push (.label second)
  | .while condition body, ⟨code, labels⟩ =>
    match labels.draw className subroutine .while with
    | (⟨first, second⟩, labels) =>
      let e : Emission := ⟨condition.emit (code.push (.label first)), labels⟩
      let e := Statement.emitAll className subroutine body (e.pushUnless second)
      (e.push (.goto first)).push (.label second)
  | .call callee subroutine' arguments, ⟨code, labels⟩ =>
    -- The result of the call is dropped.
    ⟨((Term.call callee subroutine' arguments).emit code).push (.pop .temp 0), labels⟩
  | .return none, ⟨code, labels⟩ => ⟨(code.push (.push .constant 0)).push .return, labels⟩
  | .return (some value), ⟨code, labels⟩ => ⟨(value.emit code).push .return, labels⟩
termination_by structural statement => statement

def Statement.emitAll (className subroutine : String) : List Statement → Emission → Emission
  | [], e => e
  | statement :: rest, e =>
    Statement.emitAll className subroutine rest (statement.emit className subroutine e)
termination_by structural statements => statements

end

/-! ### Subroutines and classes -/

namespace SubroutineKind

/-- How a subroutine comes to its current object: a constructor allocates one with room for the
fields, a method is passed it. -/
def prologue (fields : Nat) : SubroutineKind → List Instr
  | constructor => [.push .constant fields, .call "Memory.alloc" 1, .pop .pointer 0]
  | method => [.push .argument 0, .pop .pointer 0]
  | function => []

end SubroutineKind

namespace Subroutine

def emit (className : String) (fields : Nat) (s : Subroutine) (e : Emission) : Emission :=
  let e := e.push (.function s!"{className}.{s.name}" (Declaration.count .local s.locals))
  let e := (s.kind.prologue fields).foldl Emission.push e
  Statement.emitAll className s.name s.body e

end Subroutine

namespace Class

/-- The code of a class: its subroutines one after the other. -/
def emit (c : Class) : Code :=
  let fields := Declaration.count .field c.declarations
  (c.subroutines.foldl (fun e (s : Subroutine) => s.emit c.name fields e) {}).code

end Class
end JackLang
