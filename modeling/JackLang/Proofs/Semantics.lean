import JackLang.Proofs.Machine.Basic
import JackLang.Proofs.Syntax.Translation

/-! The meaning of a tree. Expressions are evaluated from left to right without precedence
(`Expression.eval`), statements are executed one after the other (`Statement.ExecAll`), and a
subroutine is evaluated with the current object that its kind gives it (`Subroutine.Evaluates`).
Nothing here looks at code; what other subroutines do is told by the oracle of the machine, and
variables are in its store. -/

namespace JackLang

open Machine

namespace Variable

/-- The value of a variable, a field being one of the object at an address. -/
def read (v : Variable) (object : Word) (σ : Store) : Word :=
  match v.kind with
  | .static => σ.globals.statics v.index
  | .field => σ.globals.heap (object + .ofNat 16 v.index)
  | .argument => σ.frame.arguments v.index
  | .local => σ.frame.locals v.index

def write (v : Variable) (object : Word) (σ : Store) (value : Word) : Store :=
  match v.kind with
  | .static => σ.setStatic v.index value
  | .field => σ.setField object v.index value
  | .argument => σ.setArgument v.index value
  | .local => σ.setLocal v.index value

end Variable

/-- The result of a call and what it leaves behind. -/
def Machine.Oracle.answer (oracle : Oracle) (name : String) (arguments : List Word) (g : Globals) :
    Option (Word × Globals) :=
  (oracle name arguments g).map fun response => (response.result, response.globals)

namespace Syntax

/-! ### Values -/

def constantValue : Constant → Word
  | .true => -1
  | .false | .null => 0

def unaryValue : UnaryOperator → Word → Word
  | .negate, x => -x
  | .complement, x => ~~~x

/-- Products and quotients are left to the library. -/
def operatorValue (oracle : Oracle) (op : Operator) (x y : Word) (g : Globals) :
    Option (Word × Globals) :=
  match op with
  | .add => some (x + y, g)
  | .subtract => some (x - y, g)
  | .and => some (x &&& y, g)
  | .or => some (x ||| y, g)
  | .less => some (truth (x.slt y), g)
  | .greater => some (truth (y.slt x), g)
  | .equal => some (truth (x = y), g)
  | .multiply => oracle.answer "Math.multiply" [x, y] g
  | .divide => oracle.answer "Math.divide" [x, y] g

/-- A string is a new object of the library that gets its characters one after the other. -/
def stringValue (oracle : Oracle) (text : String) (g : Globals) : Option (Word × Globals) := do
  let made ← oracle.answer "String.new" [.ofNat 16 text.length] g
  text.toList.foldlM (fun (string, g) c =>
    oracle.answer "String.appendChar" [string, .ofNat 16 c.toNat] g) made

/-- What a phrase is evaluated with. -/
structure Context where
  oracle : Oracle
  site : Site
  /-- The address of the current object. -/
  object : Word

namespace Context

variable (ctx : Context)

/-- The current object where there is one. -/
def current? : Option Word :=
  match ctx.site.kind with
  | .constructor | .method => some ctx.object
  | .function => none

def value? (name : String) (σ : Store) : Option Word :=
  (ctx.site.find? name).map (·.read ctx.object σ)

/-- The subroutine that a call means and the object it is called on. -/
def callee? (subroutine : String) (σ : Store) : Option String → Option (String × List Word)
  | none => ctx.current?.map fun object => (s!"{ctx.site.className}.{subroutine}", [object])
  | some qualifier =>
    match ctx.site.find? qualifier with
    | some v => some (s!"{v.type.text}.{subroutine}", [v.read ctx.object σ])
    | none => some (s!"{qualifier}.{subroutine}", [])

end Context

/-! ### Expressions -/

mutual

/-- The value of a term and what its calls leave behind; none where a call does not return. -/
def Term.eval (ctx : Context) (frame : Frame) : Term → Globals → Option (Word × Globals)
  | .integer value, g => some (.ofNat 16 value, g)
  | .string text, g => stringValue ctx.oracle text g
  | .constant constant, g => some (constantValue constant, g)
  | .this, g => do
    let object ← ctx.current?
    return (object, g)
  | .variable name, g => do
    let x ← ctx.value? name ⟨frame, g⟩
    return (x, g)
  | .element array index, g => do
    let base ← ctx.value? array ⟨frame, g⟩
    let (i, g) ← index.eval ctx frame g
    return (g.heap (base + i), g)
  | .call qualifier subroutine arguments, g => do
    let (callee, object) ← ctx.callee? subroutine ⟨frame, g⟩ qualifier
    let (xs, g) ← Expression.evalAll ctx frame arguments g
    ctx.oracle.answer callee (object ++ xs) g
  | .group inner, g => inner.eval ctx frame g
  | .unary op operand, g => do
    let (x, g) ← operand.eval ctx frame g
    return (unaryValue op x, g)
termination_by structural term => term

def Expression.eval (ctx : Context) (frame : Frame) : Expression → Globals → Option (Word × Globals)
  | .mk first rest, g => do
    let (x, g) ← first.eval ctx frame g
    Expression.evalRest ctx frame rest x g
termination_by structural expression => expression

/-- Goes on from the value of what is to the left. -/
def Expression.evalRest (ctx : Context) (frame : Frame) :
    List (Operator × Term) → Word → Globals → Option (Word × Globals)
  | [], x, g => some (x, g)
  | (op, operand) :: rest, x, g => do
    let (y, g) ← operand.eval ctx frame g
    let (z, g) ← operatorValue ctx.oracle op x y g
    Expression.evalRest ctx frame rest z g
termination_by structural rest => rest

def Expression.evalAll (ctx : Context) (frame : Frame) :
    List Expression → Globals → Option (List Word × Globals)
  | [], g => some ([], g)
  | expression :: rest, g => do
    let (x, g) ← expression.eval ctx frame g
    let (xs, g) ← Expression.evalAll ctx frame rest g
    return (x :: xs, g)
termination_by structural expressions => expressions

end

/-! ### Statements -/

/-- How an execution ends. -/
inductive Completion
  | finished
  | returned (value : Word)

mutual

/-- A condition holds where its value is -1. -/
inductive Statement.Exec (ctx : Context) : Statement → Store → Completion → Store → Prop
  | assign {target value v x σ g} : value.eval ctx σ.frame σ.globals = some (x, g) →
      ctx.site.find? target = some v →
      Exec ctx (.assign target value) σ .finished (v.write ctx.object ⟨σ.frame, g⟩ x)
  | assignElement {array index value base i x σ g g'} : ctx.value? array σ = some base →
      index.eval ctx σ.frame σ.globals = some (i, g) → value.eval ctx σ.frame g = some (x, g') →
      Exec ctx (.assignElement array index value) σ .finished
        ⟨σ.frame, g'.writeHeap (base + i) x⟩
  | ifThen_true {condition body o σ g σ'} :
      condition.eval ctx σ.frame σ.globals = some (-1, g) →
      Statement.ExecAll ctx body ⟨σ.frame, g⟩ o σ' →
      Exec ctx (.ifThen condition body) σ o σ'
  | ifThen_false {condition body x σ g} :
      condition.eval ctx σ.frame σ.globals = some (x, g) → x ≠ -1 →
      Exec ctx (.ifThen condition body) σ .finished ⟨σ.frame, g⟩
  | ifElse_true {condition body alternative o σ g σ'} :
      condition.eval ctx σ.frame σ.globals = some (-1, g) →
      Statement.ExecAll ctx body ⟨σ.frame, g⟩ o σ' →
      Exec ctx (.ifElse condition body alternative) σ o σ'
  | ifElse_false {condition body alternative x o σ g σ'} :
      condition.eval ctx σ.frame σ.globals = some (x, g) → x ≠ -1 →
      Statement.ExecAll ctx alternative ⟨σ.frame, g⟩ o σ' →
      Exec ctx (.ifElse condition body alternative) σ o σ'
  | while_true {condition body o σ g σ' σ''} :
      condition.eval ctx σ.frame σ.globals = some (-1, g) →
      Statement.ExecAll ctx body ⟨σ.frame, g⟩ .finished σ' →
      Exec ctx (.while condition body) σ' o σ'' →
      Exec ctx (.while condition body) σ o σ''
  | while_return {condition body value σ g σ'} :
      condition.eval ctx σ.frame σ.globals = some (-1, g) →
      Statement.ExecAll ctx body ⟨σ.frame, g⟩ (.returned value) σ' →
      Exec ctx (.while condition body) σ (.returned value) σ'
  | while_false {condition body x σ g} :
      condition.eval ctx σ.frame σ.globals = some (x, g) → x ≠ -1 →
      Exec ctx (.while condition body) σ .finished ⟨σ.frame, g⟩
  | call {qualifier subroutine arguments x σ g} :
      (Term.call qualifier subroutine arguments).eval ctx σ.frame σ.globals = some (x, g) →
      Exec ctx (.call qualifier subroutine arguments) σ .finished ⟨σ.frame, g⟩
  | return_none {σ} : Exec ctx (.return none) σ (.returned 0) σ
  | return_some {value x σ g} : value.eval ctx σ.frame σ.globals = some (x, g) →
      Exec ctx (.return (some value)) σ (.returned x) ⟨σ.frame, g⟩

/-- Statements are executed up to the first one that returns. -/
inductive Statement.ExecAll (ctx : Context) : List Statement → Store → Completion → Store → Prop
  | nil {σ} : ExecAll ctx [] σ .finished σ
  | cons {statement rest o σ σ' σ''} : Statement.Exec ctx statement σ .finished σ' →
      ExecAll ctx rest σ' o σ'' → ExecAll ctx (statement :: rest) σ o σ''
  | return {statement rest value σ σ'} : Statement.Exec ctx statement σ (.returned value) σ' →
      ExecAll ctx (statement :: rest) σ (.returned value) σ'

end

/-! ### Subroutines -/

namespace Subroutine

/-- The current object of a subroutine: a new one in a constructor, the first argument of a method,
and that of the caller in a function. -/
def enter? (oracle : Oracle) (c : Class) (s : Subroutine) (this : Word) (σ : Store) :
    Option (Word × Store) :=
  match s.kind with
  | .constructor => do
    let (object, g) ← oracle.answer "Memory.alloc" [.ofNat 16 c.fieldCount] σ.globals
    return (object, ⟨σ.frame, g⟩)
  | .method => some (σ.frame.arguments 0, σ)
  | .function => some (this, σ)

/-- Enters a subroutine and executes its body. -/
def Evaluates (oracle : Oracle) (c : Class) (s : Subroutine) (this : Word) (σ : Store)
    (o : Completion) (σ' : Store) : Prop :=
  ∃ object σ₁, s.enter? oracle c this σ = some (object, σ₁) ∧
    Statement.ExecAll ⟨oracle, c.site s, object⟩ s.body σ₁ o σ'

end Subroutine
end Syntax
end JackLang
