import JackLang.Emission

/-! The operands of the instructions that a class compiles to have no fault: values are only popped
into variables and registers, and the registers that are named exist. -/

namespace JackLang

theorem Segment.indexFault?_eq_none_iff {segment : Segment} {index : Nat} :
    segment.indexFault? index = none ↔ ∀ last ∈ segment.lastIndex?, index ≤ last := by
  rw [indexFault?]
  cases segment.lastIndex? <;> simp

namespace Instr

variable {segment : Segment} {index : Nat}

@[simp] theorem fault?_push_eq_none_iff :
    (push segment index).fault? = none ↔ ∀ last ∈ segment.lastIndex?, index ≤ last :=
  Segment.indexFault?_eq_none_iff

@[simp] theorem fault?_pop_eq_none_iff : (pop segment index).fault? = none ↔
    segment ≠ .constant ∧ ∀ last ∈ segment.lastIndex?, index ≤ last := by
  rw [← Segment.indexFault?_eq_none_iff]
  cases segment <;> simp [fault?]

@[simp] theorem fault?_operate (operation : Operation) : (operate operation).fault? = none := rfl

@[simp] theorem fault?_call (name : String) (arguments : Nat) : (call name arguments).fault? = none :=
  rfl

@[simp] theorem fault?_label (name : String) : (label name).fault? = none := rfl

@[simp] theorem fault?_goto (name : String) : (goto name).fault? = none := rfl

@[simp] theorem fault?_ifGoto (name : String) : (ifGoto name).fault? = none := rfl

@[simp] theorem fault?_function (name : String) (locals : Nat) : (function name locals).fault? = none :=
  rfl

@[simp] theorem fault?_return : («return»).fault? = none := rfl

end Instr

attribute [simp] Segment.lastIndex?

@[simp] theorem Variable.fault?_pushInstr (v : Variable) : v.pushInstr.fault? = none := by
  cases v with | mk name type kind index => cases kind <;> rfl

/-- No variable is a constant. -/
@[simp] theorem Variable.fault?_popInstr (v : Variable) : v.popInstr.fault? = none := by
  cases v with | mk name type kind index => cases kind <;> rfl

@[simp] theorem Receiver.fault?_instr (r : Receiver) : r.instr.fault? = none := by
  cases r <;> rfl

@[simp] theorem Operator.fault?_instr (op : Operator) : op.instr.fault? = none := by
  cases op <;> rfl

@[simp] theorem UnaryOperator.fault?_instr (op : UnaryOperator) : op.instr.fault? = none := by
  cases op <;> rfl

@[simp] theorem Callee.fault?_callInstr (callee : Callee) (subroutine : String) (arguments : Nat) :
    (callee.callInstr subroutine arguments).fault? = none := rfl

end JackLang
