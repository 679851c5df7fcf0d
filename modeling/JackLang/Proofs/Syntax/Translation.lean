import JackLang.Instr
import JackLang.Label
import JackLang.Proofs.Syntax.Validity
import Mathlib.Logic.Function.Basic

/-! The reference translation of a class: the instructions of every phrase as a list, by recursion
on the tree. Names stand for the segment and index of their declaration, and an occurrence of a
branch or loop is numbered by the occurrences before it in subroutines of the same name. -/

namespace JackLang.Syntax

/-! ### Names -/

/-- The cell of a variable. -/
def cell (v : Variable) : Segment × Nat :=
  match v.kind with
  | .static => (.static, v.index)
  | .field => (.this, v.index)
  | .argument => (.argument, v.index)
  | .local => (.local, v.index)

theorem cell_eq (v : Variable) : cell v = (v.kind.segment, v.index) := by
  rw [cell]
  cases v.kind <;> rfl

namespace Site

/-- A name that nothing declares has no code. -/
def pushVariable (site : Site) (name : String) : List Instr :=
  (site.find? name).toList.map fun v => .push (cell v).1 (cell v).2

def popVariable (site : Site) (name : String) : List Instr :=
  (site.find? name).toList.map fun v => .pop (cell v).1 (cell v).2

/-- The current object. -/
def pushThis (site : Site) : List Instr :=
  match site.kind with
  | .method => [.push .argument 0]
  | .constructor => [.push .pointer 0]
  | .function => []

/-- The object that a call passes before its arguments. -/
def pushObject (site : Site) : Option String → List Instr
  | none => site.pushThis
  | some qualifier => site.pushVariable qualifier

/-- The subroutine that a call names and the number of its values: of the class itself, of the
class of a variable, or of a class that is named. -/
def callInstr (site : Site) (subroutine : String) (arguments : Nat) : Option String → Instr
  | none => .call s!"{site.className}.{subroutine}" (arguments + 1)
  | some qualifier =>
    match site.find? qualifier with
    | some v => .call s!"{v.type.text}.{subroutine}" (arguments + 1)
    | none => .call s!"{qualifier}.{subroutine}" arguments

end Site

/-! ### Expressions -/

def operatorInstr : Operator → Instr
  | .add => .operate .add
  | .subtract => .operate .sub
  | .and => .operate .and
  | .or => .operate .or
  | .less => .operate .lt
  | .greater => .operate .gt
  | .equal => .operate .eq
  | .multiply => .call "Math.multiply" 2
  | .divide => .call "Math.divide" 2

def unaryInstr : UnaryOperator → Instr
  | .negate => .operate .neg
  | .complement => .operate .not

def constantCode : Constant → List Instr
  | .true => [.push .constant 1, .operate .neg]
  | .false | .null => [.push .constant 0]

/-- A string is made empty and gets its characters one after the other. -/
def stringCode (text : String) : List Instr :=
  .push .constant text.length :: .call "String.new" 1 ::
    text.toList.flatMap fun c => [.push .constant c.toNat, .call "String.appendChar" 2]

mutual

def Term.translate (site : Site) : Term → List Instr
  | .integer value => [.push .constant value]
  | .string text => stringCode text
  | .constant constant => constantCode constant
  | .this => site.pushThis
  | .variable name => site.pushVariable name
  | .element array index =>
    site.pushVariable array ++ (index.translate site ++
      [.operate .add, .pop .pointer 1, .push .that 0])
  | .call qualifier subroutine arguments =>
    site.pushObject qualifier ++ (Expression.translateAll site arguments ++
      [site.callInstr subroutine arguments.length qualifier])
  | .group inner => inner.translate site
  | .unary op operand => operand.translate site ++ [unaryInstr op]
termination_by structural term => term

def Expression.translate (site : Site) : Expression → List Instr
  | .mk first rest => first.translate site ++ Expression.translateRest site rest
termination_by structural expression => expression

def Expression.translateRest (site : Site) : List (Operator × Term) → List Instr
  | [] => []
  | (op, operand) :: rest =>
    operand.translate site ++ operatorInstr op :: Expression.translateRest site rest
termination_by structural rest => rest

def Expression.translateAll (site : Site) : List Expression → List Instr
  | [] => []
  | expression :: rest => expression.translate site ++ Expression.translateAll site rest
termination_by structural expressions => expressions

end

/-! ### Statements -/

mutual

/-- How many branches or loops a statement contains. -/
def Statement.count (construct : Construct) : Statement → Nat
  | .assign .. | .assignElement .. | .call .. | .return _ => 0
  | .ifThen _ body => (if construct = .if then 1 else 0) + Statement.countAll construct body
  | .ifElse _ body alternative =>
    (if construct = .if then 1 else 0) + Statement.countAll construct body +
      Statement.countAll construct alternative
  | .while _ body => (if construct = .while then 1 else 0) + Statement.countAll construct body
termination_by structural statement => statement

def Statement.countAll (construct : Construct) : List Statement → Nat
  | [] => 0
  | statement :: rest => statement.count construct + Statement.countAll construct rest
termination_by structural statements => statements

end

/-- How many branches and loops come before a phrase in subroutines of its name. -/
abbrev Numbering := Construct → Nat

namespace Numbering

/-- Behind the start of one more construct. -/
def succ (n : Numbering) (construct : Construct) : Numbering := fun construct' =>
  n construct' + if construct' = construct then 1 else 0

/-- Behind some statements. -/
def behind (n : Numbering) (statements : List Statement) : Numbering := fun construct =>
  n construct + Statement.countAll construct statements

end Numbering

theorem Statement.countAll_append (construct : Construct) (ss ts : List Statement) :
    Statement.countAll construct (ss ++ ts) =
      Statement.countAll construct ss + Statement.countAll construct ts := by
  induction ss with
  | nil => simp [Statement.countAll]
  | cons s ss ih => simp [Statement.countAll, ih, Nat.add_assoc]

namespace Numbering

variable (n : Numbering) (s : Statement) (ss ts : List Statement)

theorem behind_nil : n.behind [] = n := rfl

theorem behind_append : n.behind (ss ++ ts) = (n.behind ss).behind ts := by
  funext construct
  simp [behind, Statement.countAll_append, Nat.add_assoc]

theorem behind_cons : n.behind (s :: ss) = (n.behind [s]).behind ss := n.behind_append [s] ss

theorem behind_of_count_eq_zero (h : ∀ construct, s.count construct = 0) : n.behind [s] = n := by
  funext construct
  simp [behind, Statement.countAll, h]

theorem behind_ifThen (condition : Expression) :
    n.behind [.ifThen condition ss] = (n.succ .if).behind ss := by
  funext construct
  simp [behind, succ, Statement.countAll, Statement.count, Nat.add_assoc]

theorem behind_ifElse (condition : Expression) :
    n.behind [.ifElse condition ss ts] = ((n.succ .if).behind ss).behind ts := by
  funext construct
  simp [behind, succ, Statement.countAll, Statement.count, Nat.add_assoc]

theorem behind_while (condition : Expression) :
    n.behind [.while condition ss] = (n.succ .while).behind ss := by
  funext construct
  simp [behind, succ, Statement.countAll, Statement.count, Nat.add_assoc]

end Numbering

namespace Site

/-- A label in a subroutine. Its number is a word of 32 bits. -/
def label (site : Site) (subroutine base : String) (number : Nat) : String :=
  s!"{site.className}.{subroutine}${base}{number % UInt32.size}"

end Site

mutual

def Statement.translate (site : Site) (subroutine : String) (n : Numbering) :
    Statement → List Instr
  | .assign target value => value.translate site ++ site.popVariable target
  | .assignElement array index value =>
    site.pushVariable array ++ (index.translate site ++ .operate .add :: (value.translate site ++
      [.pop .temp 0, .pop .pointer 1, .push .temp 0, .pop .that 0]))
  | .ifThen condition body =>
    let otherwise := site.label subroutine "IF_FALSE" (n .if)
    condition.translate site ++ [.operate .not, .ifGoto otherwise] ++
      Statement.translateAll site subroutine (n.succ .if) body ++ [.label otherwise]
  | .ifElse condition body alternative =>
    let otherwise := site.label subroutine "IF_FALSE" (n .if)
    let done := site.label subroutine "IF_END" (n .if)
    condition.translate site ++ [.operate .not, .ifGoto otherwise] ++
      Statement.translateAll site subroutine (n.succ .if) body ++ [.goto done, .label otherwise] ++
      Statement.translateAll site subroutine ((n.succ .if).behind body) alternative ++
      [.label done]
  | .while condition body =>
    let again := site.label subroutine "WHILE_EXP" (n .while)
    let done := site.label subroutine "WHILE_END" (n .while)
    [.label again] ++ condition.translate site ++ [.operate .not, .ifGoto done] ++
      Statement.translateAll site subroutine (n.succ .while) body ++ [.goto again, .label done]
  | .call qualifier subroutine' arguments =>
    (Term.call qualifier subroutine' arguments).translate site ++ [.pop .temp 0]
  | .return none => [.push .constant 0, .return]
  | .return (some value) => value.translate site ++ [.return]
termination_by structural statement => statement

def Statement.translateAll (site : Site) (subroutine : String) (n : Numbering) :
    List Statement → List Instr
  | [] => []
  | statement :: rest =>
    statement.translate site subroutine n ++
      Statement.translateAll site subroutine (n.behind [statement]) rest
termination_by structural statements => statements

end

/-! ### Subroutines and classes -/

namespace Subroutine

/-- How a subroutine comes to its current object. -/
def prologue (fields : Nat) (s : Subroutine) : List Instr :=
  match s.kind with
  | .constructor => [.push .constant fields, .call "Memory.alloc" 1, .pop .pointer 0]
  | .method => [.push .argument 0, .pop .pointer 0]
  | .function => []

/-- How many names a subroutine declares with `var`. -/
def localCount (s : Subroutine) : Nat := (s.locals.flatMap (·.names)).length

end Subroutine

namespace Class

/-- How many names a class declares as fields. -/
def fieldCount (c : Class) : Nat :=
  ((c.declarations.filter (·.1 = .field)).flatMap (·.2.names)).length

/-- How many branches and loops the first `k` subroutines contain under a name. -/
def numbering (c : Class) (k : Nat) (name : String) : Numbering :=
  Numbering.behind (fun _ => 0) (((c.subroutines.take k).filter (·.name = name)).flatMap (·.body))

/-- A subroutine goes on with the numbers of its name. -/
theorem numbering_succ {c : Class} {s : Subroutine} {k : Nat} (h : c.subroutines[k]? = some s) :
    c.numbering (k + 1) = Function.update (c.numbering k) s.name
      ((c.numbering k s.name).behind s.body) := by
  funext name
  rw [numbering, List.take_add_one, h, Option.toList, List.filter_append, List.flatMap_append,
    Numbering.behind_append, Function.update_apply]
  split
  · next heq => simp [heq, numbering]
  · next hne => simp [Ne.symm hne, numbering, Numbering.behind_nil]

/-- The code of the `k`-th subroutine. -/
def block (c : Class) (k : Nat) (s : Subroutine) : List Instr :=
  .function s!"{c.name}.{s.name}" s.localCount :: (s.prologue c.fieldCount ++
    Statement.translateAll (c.site s) s.name (c.numbering k s.name) s.body)

/-- The code of a class: one block for each subroutine, in the order of the source. -/
def translate (c : Class) : List Instr := (c.subroutines.mapIdx c.block).flatten

end Class
end JackLang.Syntax
