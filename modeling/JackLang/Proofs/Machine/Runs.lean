import JackLang.Proofs.Machine.Basic

/-! Runs of the stack machine inside one subroutine. Such a run keeps the pointer to the current
object and uses the other pointer and the temporary cells as it likes, so `Reaches` does not tell
what these hold. `Runs` says what straight code does wherever it stands in a listing; parts that
stand one behind the other run together (`Runs.append`). -/

namespace JackLang
namespace Machine

variable {oracle : Oracle} {code xs ys : List Instr} {instr : Instr} {pc pc' : Nat} {m : State}
  {this that value : Word} {temp : Nat → Word} {stack stack' stack'' : List Word}
  {σ σ' σ'' : Store} {name : String}

/-! ### Reaching a line -/

/-- The machine comes to a line with the same current object. -/
def Reaches (oracle : Oracle) (code : List Instr) (m : State) (pc : Nat) (stack : List Word)
    (σ : Store) : Prop :=
  ∃ that temp, Steps oracle code m ⟨pc, stack, σ, m.this, that, temp⟩

theorem Reaches.refl (m : State) : Reaches oracle code m m.pc m.stack m.store :=
  ⟨m.that, m.temp, .refl⟩

theorem Reaches.trans (h : Reaches oracle code m pc stack σ)
    (h' : ∀ that temp, Reaches oracle code ⟨pc, stack, σ, m.this, that, temp⟩ pc' stack' σ') :
    Reaches oracle code m pc' stack' σ' := by
  obtain ⟨that, temp, hsteps⟩ := h
  obtain ⟨that', temp', hsteps'⟩ := h' that temp
  exact ⟨that', temp', hsteps.trans hsteps'⟩

theorem Reaches.head (m' : State) (hstep : step oracle code m = some m') (hthis : m'.this = m.this)
    (h : Reaches oracle code m' pc stack σ) : Reaches oracle code m pc stack σ := by
  obtain ⟨that, temp, hsteps⟩ := h
  rw [hthis] at hsteps
  exact ⟨that, temp, hsteps.head hstep⟩

/-! ### Jumps -/

theorem Reaches.label (h : code[pc]? = some (.label name)) :
    Reaches oracle code ⟨pc, stack, σ, this, that, temp⟩ (pc + 1) stack σ := by
  refine ⟨that, temp, .single ?_⟩
  simp [step, h]

theorem Reaches.goto (hcode : (labels code).Nodup) (h : code[pc]? = some (.goto name))
    (hlabel : code[pc']? = some (.label name)) :
    Reaches oracle code ⟨pc, stack, σ, this, that, temp⟩ pc' stack σ := by
  refine ⟨that, temp, .single ?_⟩
  simp [step, h, target?_eq_some hcode hlabel]

/-- Code jumps over what is behind it unless the condition is -1. -/
theorem Reaches.not_ifGoto (hcode : (labels code).Nodup)
    (h : At code pc [.operate .not, .ifGoto name]) (hvalue : value ≠ -1)
    (hlabel : code[pc']? = some (.label name)) :
    Reaches oracle code ⟨pc, value :: stack, σ, this, that, temp⟩ pc' stack σ := by
  rw [at_cons_iff, at_singleton_iff] at h
  have hne : ~~~value ≠ 0#16 := by
    intro heq
    rw [BitVec.not_eq_comm] at heq
    exact hvalue (heq.trans (by decide))
  refine .head ⟨pc + 1, ~~~value :: stack, σ, this, that, temp⟩ ?_ rfl ?_
  · simp [step, h.1, operate?]
  · refine ⟨that, temp, .single ?_⟩
    simp [step, h.2, hne, target?_eq_some hcode hlabel]

theorem Reaches.not_ifGoto_neg_one (h : At code pc [.operate .not, .ifGoto name]) :
    Reaches oracle code ⟨pc, -1 :: stack, σ, this, that, temp⟩ (pc + 2) stack σ := by
  rw [at_cons_iff, at_singleton_iff] at h
  refine .head ⟨pc + 1, 0 :: stack, σ, this, that, temp⟩ ?_ rfl ?_
  · simp [step, h.1, operate?]
  · refine ⟨that, temp, .single ?_⟩
    simp [step, h.2]

/-! ### Straight code -/

/-- Instructions run from their first line to the line behind the last one. -/
def Runs (oracle : Oracle) (code : List Instr) (this : Word) (part : List Instr)
    (stack : List Word) (σ : Store) (stack' : List Word) (σ' : Store) : Prop :=
  ∀ pc that temp, At code pc part →
    Reaches oracle code ⟨pc, stack, σ, this, that, temp⟩ (pc + part.length) stack' σ'

theorem Runs.nil : Runs oracle code this [] stack σ stack σ := fun _ _ _ _ => .refl _

theorem Runs.append (h : Runs oracle code this xs stack σ stack' σ')
    (h' : Runs oracle code this ys stack' σ' stack'' σ'') :
    Runs oracle code this (xs ++ ys) stack σ stack'' σ'' := by
  intro pc that temp hat
  rw [at_append_iff] at hat
  rw [List.length_append, ← Nat.add_assoc]
  exact (h pc that temp hat.1).trans fun that' temp' => h' _ that' temp' hat.2

theorem Runs.cons (h : Runs oracle code this [instr] stack σ stack' σ')
    (h' : Runs oracle code this xs stack' σ' stack'' σ'') :
    Runs oracle code this (instr :: xs) stack σ stack'' σ'' := h.append h'

/-- One instruction that leaves the pointer to the current object as it is. -/
theorem Runs.of_step (h : ∀ pc that temp, code[pc]? = some instr →
      ∃ that' temp', step oracle code ⟨pc, stack, σ, this, that, temp⟩ =
        some ⟨pc + 1, stack', σ', this, that', temp'⟩) :
    Runs oracle code this [instr] stack σ stack' σ' := by
  intro pc that temp hat
  obtain ⟨that', temp', hstep⟩ := h pc that temp (at_singleton_iff.1 hat)
  exact ⟨that', temp', .single hstep⟩

theorem Runs.push {segment : Segment} {i : Nat} (h : ∀ pc that temp,
      (⟨pc, stack, σ, this, that, temp⟩ : State).load? segment i = some value) :
    Runs oracle code this [.push segment i] stack σ (value :: stack) σ := by
  refine .of_step fun pc that temp hat => ⟨that, temp, ?_⟩
  simp [step, hat, h pc that temp]

theorem Runs.push_constant (i : Nat) :
    Runs oracle code this [.push .constant i] stack σ (.ofNat 16 i :: stack) σ :=
  .push fun _ _ _ => rfl

theorem Runs.pop {segment : Segment} {i : Nat} (h : ∀ pc that temp,
      (⟨pc, stack, σ, this, that, temp⟩ : State).save? value segment i =
        some ⟨pc, stack, σ', this, that, temp⟩) :
    Runs oracle code this [.pop segment i] (value :: stack) σ stack σ' := by
  refine .of_step fun pc that temp hat => ⟨that, temp, ?_⟩
  simp [step, hat, h]

theorem Runs.pop_temp : Runs oracle code this [.pop .temp 0] (value :: stack) σ stack σ := by
  refine .of_step fun pc that temp hat => ⟨that, Function.update temp 0 value, ?_⟩
  simp [step, hat, State.save?]

theorem Runs.operate {operation : Operation} (h : operate? operation stack = some stack') :
    Runs oracle code this [.operate operation] stack σ stack' σ := by
  refine .of_step fun pc that temp hat => ⟨that, temp, ?_⟩
  simp [step, hat, h]

theorem Runs.call {arguments : List Word} {response : Response} {n : Nat}
    (hn : arguments.length = n)
    (h : oracle name arguments σ.globals = some response) :
    Runs oracle code this [.call name n] (arguments.reverse ++ stack) σ
      (response.result :: stack) { σ with globals := response.globals } := by
  refine .of_step fun pc that temp hat => ⟨that, response.temp, ?_⟩
  simp [step, hat, h, ← hn]

/-- Code that ends by setting the pointer to the current object. -/
theorem Runs.pop_this (h : Runs oracle code this xs stack σ (value :: stack') σ')
    (hat : At code pc (xs ++ [.pop .pointer 0])) :
    ∃ that' temp', Steps oracle code ⟨pc, stack, σ, this, that, temp⟩
      ⟨pc + (xs ++ [Instr.pop .pointer 0]).length, stack', σ', value, that', temp'⟩ := by
  rw [at_append_iff, at_singleton_iff] at hat
  obtain ⟨that', temp', hsteps⟩ := h pc that temp hat.1
  refine ⟨that', temp', Relation.ReflTransGen.tail hsteps ?_⟩
  simp [step, hat.2, State.save?, Nat.add_assoc]

/-! ### Arrays -/

/-- An element is read through the pointer to the array. -/
theorem Runs.read_element {base index : Word} :
    Runs oracle code this [.operate .add, .pop .pointer 1, .push .that 0] (index :: base :: stack) σ
      (σ.globals.heap (base + index) :: stack) σ := by
  refine .cons (.operate rfl) fun pc that temp hat => ?_
  rw [at_cons_iff, at_singleton_iff] at hat
  refine .head ⟨pc + 1, stack, σ, this, base + index, temp⟩ ?_ rfl ?_
  · simp [step, hat.1, State.save?]
  · refine ⟨base + index, temp, .single ?_⟩
    simp [step, hat.2, State.load?]

/-- The value waits in a temporary cell until the pointer is set. -/
theorem Runs.write_element {address : Word} :
    Runs oracle code this [.pop .temp 0, .pop .pointer 1, .push .temp 0, .pop .that 0]
      (value :: address :: stack) σ stack
      { σ with globals := σ.globals.writeHeap address value } := by
  intro pc that temp hat
  simp only [at_cons_iff] at hat
  obtain ⟨h₀, h₁, h₂, h₃, -⟩ := hat
  let temp' := Function.update temp 0 value
  refine .head ⟨pc + 1, address :: stack, σ, this, that, temp'⟩ ?_ rfl ?_
  · simp [step, h₀, State.save?, temp']
  refine .head ⟨pc + 2, stack, σ, this, address, temp'⟩ ?_ rfl ?_
  · simp [step, h₁, State.save?]
  refine .head ⟨pc + 3, value :: stack, σ, this, address, temp'⟩ ?_ rfl ?_
  · simp [step, h₂, State.load?, temp']
  refine ⟨address, temp', .single ?_⟩
  simp [step, h₃, State.save?, Store.setField]

end Machine
end JackLang
