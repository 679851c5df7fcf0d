import JackLang.Error

/-! Instructions of the stack machine: which operands an instruction can carry, and the line of
text it is written as. -/

namespace JackLang

/-- The memory segments. -/
inductive Segment
  | constant | argument | «local» | static | this | that | pointer | temp
deriving DecidableEq, Repr

namespace Segment

def text : Segment → String
  | constant => "constant" | argument => "argument" | «local» => "local" | static => "static"
  | this => "this" | that => "that" | pointer => "pointer" | temp => "temp"

def all : List Segment := [constant, argument, «local», static, this, that, pointer, temp]

def ofText? (word : String) : Option Segment := all.find? (·.text == word)

/-- The last cell of a segment of fixed size. -/
def lastIndex? : Segment → Option Nat
  | pointer => some 1
  | temp => some 7
  | _ => none

end Segment

/-- Arithmetic and logic on the top of the stack. -/
inductive Operation
  | add | sub | neg | eq | gt | lt | and | or | not
deriving DecidableEq, Repr

namespace Operation

def text : Operation → String
  | add => "add" | sub => "sub" | neg => "neg" | eq => "eq" | gt => "gt" | lt => "lt"
  | and => "and" | or => "or" | not => "not"

def all : List Operation := [add, sub, neg, eq, gt, lt, and, or, not]

def ofText? (word : String) : Option Operation := all.find? (·.text == word)

end Operation

/-! ### Counts -/

/-- The decimal digits of a count, the last one first, as many as there is room for. -/
def lastDigits : Nat → Nat → List Nat
  | 0, _ => []
  | room + 1, count => if count = 0 then [] else count % 10 :: lastDigits room (count / 10)

/-- Writes a count behind a text. There is room for five digits; they are found from the last one on
and written from the first. -/
def writeCount (count : Nat) (text : String) : String :=
  if count = 0 then text.push '0'
  else (lastDigits 5 count).foldr (fun digit text => text.push (Char.ofNat ('0'.toNat + digit))) text

/-! ### Instructions -/

inductive Instr
  | push (segment : Segment) (index : Nat)
  | pop (segment : Segment) (index : Nat)
  | operate (operation : Operation)
  | label (name : String)
  | goto (name : String)
  | ifGoto (name : String)
  | call (name : String) (arguments : Nat)
  | function (name : String) (locals : Nat)
  | «return»
deriving DecidableEq, Repr

/-- Why an instruction cannot be written. -/
inductive OperandFault
  | popConstant
  | outOfRange (segment : Segment) (index last : Nat)
deriving DecidableEq, Repr

namespace OperandFault

def report : OperandFault → Error
  | popConstant => .operand "cannot pop to constant segment"
  | outOfRange segment index last =>
    .operand s!"index {index} out of range for segment {segment.text} (0-{last})"

end OperandFault

namespace Segment

/-- The fault of an index past the end of a segment of fixed size. -/
def indexFault? (segment : Segment) (index : Nat) : Option OperandFault :=
  match segment.lastIndex? with
  | some last => if last < index then some (.outOfRange segment index last) else none
  | none => none

end Segment

namespace Instr

/-- What is wrong with the operands: constants have no cells to pop into, and the segments of fixed
size have no cells past their end. -/
def fault? : Instr → Option OperandFault
  | push segment index => segment.indexFault? index
  | pop .constant _ => some .popConstant
  | pop segment index => segment.indexFault? index
  | _ => none

def text : Instr → String
  | push segment index => writeCount index s!"push {segment.text} "
  | pop segment index => writeCount index s!"pop {segment.text} "
  | operate operation => operation.text
  | label name => s!"label {name}"
  | goto name => s!"goto {name}"
  | ifGoto name => s!"if-goto {name}"
  | call name arguments => writeCount arguments s!"call {name} "
  | function name locals => writeCount locals s!"function {name} "
  | «return» => "return"

end Instr

/-- A sequence of instructions in the order of their requests. -/
abbrev Code := Array Instr

namespace Code

/-- One more instruction, unless its operands are at fault. -/
@[inline] def add (code : Code) (instr : Instr) : Except OperandFault Code :=
  match instr.fault? with
  | some fault => .error fault
  | none => .ok (code.push instr)

/-- One line for each instruction. -/
def render (code : Code) : String :=
  code.foldl (fun text instr => text ++ instr.text ++ "\n") ""

end Code
end JackLang
