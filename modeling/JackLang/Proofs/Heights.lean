import JackLang.Proofs.Syntax.Blocks

/-! Heights of the operand stack. A scan of a block from its first line to its last follows the
height (`scan`); where it succeeds, it assigns heights to all lines of the block that every jump
agrees with (`heights_of_scan`). A machine that enters a block with heights keeps to them as long as
it runs (`Heights.stands`). -/

namespace JackLang.Machine

open Syntax

/-! ### Heights -/

/-- How many values an instruction takes from the stack. -/
def pops : Instr → Nat
  | .push .. | .label _ | .goto _ | .function .. => 0
  | .pop .. | .ifGoto _ | .return | .operate .neg | .operate .not => 1
  | .operate _ => 2
  | .call _ n => n

/-- How many values an instruction leaves on the stack. -/
def pushes : Instr → Nat
  | .push .. | .operate _ | .call .. => 1
  | .pop .. | .label _ | .goto _ | .ifGoto _ | .function .. | .return => 0

/-- The height behind an instruction. -/
def after (instr : Instr) (height : Nat) : Nat := height - pops instr + pushes instr

/-- The label that an instruction may jump to. -/
def jump? : Instr → Option String
  | .goto name | .ifGoto name => some name
  | _ => none

/-- The labels that some code jumps to. -/
def jumps (code : List Instr) : List String := code.filterMap jump?

@[simp] theorem jumps_nil : jumps [] = [] := rfl

@[simp] theorem jumps_append (xs ys : List Instr) : jumps (xs ++ ys) = jumps xs ++ jumps ys :=
  List.filterMap_append

@[simp] theorem jumps_cons (instr : Instr) (xs : List Instr) :
    jumps (instr :: xs) = (jump? instr).toList ++ jumps xs := by
  rw [jumps, List.filterMap_cons]
  cases jump? instr <;> rfl

/-- Heights of the stack at the lines of a block, the first of which is its `function` line. -/
structure Heights (block : List Instr) (height : Nat → Nat) : Prop where
  start : height 1 = 0
  stop : height block.length = 0
  pops_le : ∀ i instr, block[i]? = some instr → pops instr ≤ height i
  next : ∀ i instr, block[i]? = some instr → height (i + 1) = after instr (height i)
  jump : ∀ i instr name, block[i]? = some instr → jump? instr = some name →
    ∃ j, target? block name = some j ∧ height j = after instr (height i)
  label : ∀ i name, block[i]? = some (.label name) → height i = 0
  returns : ∀ i, block[i]? = some .return → height i = 1

theorem exists_of_mem_labels {block : List Instr} {name : String} (h : name ∈ labels block) :
    ∃ i : Nat, block[i]? = some (Instr.label name) := by
  obtain ⟨instr, hinstr, hlabel⟩ := List.mem_filterMap.1 h
  have heq : instr = .label name := by
    cases instr <;> cases hlabel
    rfl
  exact List.mem_iff_getElem?.1 (heq ▸ hinstr)

/-- A jump goes to a line that sets its label. -/
theorem getElem?_of_target? {code : List Instr} {name : String} {pc : Nat}
    (h : target? code name = some pc) : code[pc]? = some (.label name) := by
  obtain ⟨hlt, hlabel, -⟩ := List.findIdx?_eq_some_iff_getElem.1 h
  rw [List.getElem?_eq_getElem hlt]
  simpa using hlabel

theorem exists_target?_of_mem_labels {code : List Instr} {name : String} (h : name ∈ labels code) :
    ∃ pc, target? code name = some pc := by
  obtain ⟨i, hi⟩ := exists_of_mem_labels h
  rw [← Option.isSome_iff_exists, target?, List.findIdx?_isSome, List.any_eq_true]
  exact ⟨_, List.mem_of_getElem? hi, decide_eq_true rfl⟩

/-! ### Scans -/

/-- An instruction where statements begin or end, behind which the stack is empty. -/
def isBoundary : Instr → Bool
  | .label _ | .goto _ | .ifGoto _ | .return => true
  | _ => false

/-- A height that an instruction may stand at. -/
def Admits (height : Nat) (instr : Instr) : Prop :=
  pops instr ≤ height ∧ (isBoundary instr → after instr height = 0)

instance (height : Nat) (instr : Instr) : Decidable (Admits height instr) :=
  inferInstanceAs (Decidable (_ ∧ _))

/-- The height behind some code. -/
def scan (height : Nat) : List Instr → Option Nat
  | [] => some height
  | instr :: code => if Admits height instr then scan (after instr height) code else none

theorem scan_append (height : Nat) (xs ys : List Instr) :
    scan height (xs ++ ys) = (scan height xs).bind (scan · ys) := by
  induction xs generalizing height with
  | nil => rfl
  | cons instr xs ih =>
    rw [List.cons_append, scan, scan]
    split
    · exact ih _
    · rfl

/-- A scan comes by every line. -/
theorem exists_scan_take {block : List Instr} {height height' i : Nat} {instr : Instr}
    (h : scan height block = some height') (hi : block[i]? = some instr) :
    ∃ height'', scan height (block.take i) = some height'' ∧ Admits height'' instr ∧
      scan height (block.take (i + 1)) = some (after instr height'') := by
  induction block generalizing height i with
  | nil => cases hi
  | cons instr' block ih =>
    rw [scan] at h
    split at h
    · next hadmits =>
      cases i with
      | zero =>
        cases hi
        exact ⟨height, rfl, hadmits, by simp [scan, hadmits]⟩
      | succ i =>
        obtain ⟨height'', htake, h', htake'⟩ := ih h hi
        exact ⟨height'', by simpa [scan, hadmits] using htake, h',
          by simpa [scan, hadmits] using htake'⟩
    · cases h

/-- The height that a scan has at a line. -/
def heightAt (block : List Instr) (i : Nat) : Nat := (scan 0 (block.take i)).getD 0

section scanned

variable {block : List Instr} {i : Nat} {instr : Instr} (h : scan 0 block = some 0)

include h

theorem admits_heightAt (hi : block[i]? = some instr) : Admits (heightAt block i) instr := by
  obtain ⟨height, htake, hadmits, -⟩ := exists_scan_take h hi
  rwa [heightAt, htake]

theorem heightAt_succ (hi : block[i]? = some instr) :
    heightAt block (i + 1) = after instr (heightAt block i) := by
  obtain ⟨height, htake, -, htake'⟩ := exists_scan_take h hi
  rw [heightAt, heightAt, htake, htake']
  rfl

theorem heightAt_label {name : String} (hi : block[i]? = some (.label name)) :
    heightAt block i = 0 := (admits_heightAt h hi).2 rfl

/-- The scan of a block that sets every label that it jumps to. -/
theorem heights_of_scan (hfunction : ∃ name locals, block.head? = some (.function name locals))
    (hjumps : jumps block ⊆ labels block) : Heights block (heightAt block) where
  start := by
    obtain ⟨name, locals, hhead⟩ := hfunction
    rw [List.head?_eq_getElem?] at hhead
    rw [heightAt_succ h hhead]
    rfl
  stop := by
    rw [heightAt, List.take_length, h]
    rfl
  pops_le i instr hi := (admits_heightAt h hi).1
  next i instr hi := heightAt_succ h hi
  jump i instr name hi hjump := by
    have hname : name ∈ labels block :=
      hjumps (List.mem_filterMap.2 ⟨instr, List.mem_of_getElem? hi, hjump⟩)
    obtain ⟨j, hj⟩ := exists_target?_of_mem_labels hname
    refine ⟨j, hj, ?_⟩
    have hboundary : isBoundary instr := by
      cases instr with
      | goto | ifGoto => rfl
      | _ => cases hjump
    rw [heightAt_label h (getElem?_of_target? hj), (admits_heightAt h hi).2 hboundary]
  label i name hi := heightAt_label h hi
  returns i hi := by
    obtain ⟨hpops, hafter⟩ := admits_heightAt h hi
    have hafter := hafter rfl
    simp only [after, pops, pushes] at hpops hafter
    omega

end scanned

/-! ### Runs of the machine -/

variable {oracle : Oracle} {code block : List Instr} {line : Nat} {height : Nat → Nat}
  {m m' : State} {instr : Instr}

theorem length_of_operate? {operation : Operation} {stack stack' : List Word}
    (h : operate? operation stack = some stack') : pops (.operate operation) ≤ stack.length ∧
      stack'.length = after (.operate operation) stack.length := by
  rcases stack with _ | ⟨y, _ | ⟨x, stack⟩⟩ <;> cases operation <;> cases h <;>
    simp [after, pops, pushes]

theorem State.save?_eq_some {segment : Segment} {i : Nat} {value : Word}
    (h : m.save? value segment i = some m') : m'.pc = m.pc ∧ m'.stack = m.stack := by
  rw [save?.eq_def] at h
  split at h <;> cases h <;> exact ⟨rfl, rfl⟩

theorem exists_instr_of_step (h : step oracle code m = some m') :
    ∃ instr, code[m.pc]? = some instr ∧ isFunction instr = false := by
  cases hinstr : code[m.pc]? with
  | none => simp [step, hinstr] at h
  | some instr =>
    refine ⟨instr, rfl, ?_⟩
    cases instr with
    | function name locals => simp [step, hinstr] at h
    | _ => rfl

/-- What an instruction does to the height, and where the machine goes on. -/
theorem length_stack_of_step (hinstr : code[m.pc]? = some instr)
    (h : step oracle code m = some m') :
    pops instr ≤ m.stack.length ∧ m'.stack.length = after instr m.stack.length ∧
      (m'.pc = m.pc + 1 ∨ ∃ name, jump? instr = some name ∧ target? code name = some m'.pc) := by
  cases performs_of_step hinstr h with
  | push => exact ⟨Nat.zero_le _, rfl, .inl rfl⟩
  | pop hstack hsave =>
    obtain ⟨hpc, hstack'⟩ := State.save?_eq_some hsave
    exact ⟨by rw [hstack]; exact Nat.succ_pos _, by rw [hstack', hstack]; rfl, .inl hpc⟩
  | operate hoperate =>
    obtain ⟨hpops, hlength⟩ := length_of_operate? hoperate
    exact ⟨hpops, hlength, .inl rfl⟩
  | label => exact ⟨Nat.zero_le _, rfl, .inl rfl⟩
  | goto htarget => exact ⟨Nat.zero_le _, rfl, .inr ⟨_, rfl, htarget⟩⟩
  | ifGoto_zero hstack =>
    exact ⟨by rw [hstack]; exact Nat.succ_pos _, by rw [hstack]; rfl, .inl rfl⟩
  | ifGoto hstack htarget =>
    exact ⟨by rw [hstack]; exact Nat.succ_pos _, by rw [hstack]; rfl, .inr ⟨_, rfl, htarget⟩⟩
  | call hn => exact ⟨hn, by simp [after, pops, pushes], .inl rfl⟩

/-- The machine is at a line of a block or behind its end, and the height of the line counts the
values that the block has added to the stack. -/
def Stands (block : List Instr) (height : Nat → Nat) (line base : Nat) (m : State) : Prop :=
  ∃ i ≤ block.length, m.pc = line + i ∧ m.stack.length = base + height i

theorem getElem?_of_at {i : Nat} (h : At code line block) (hi : block[i]? = some instr) :
    code[line + i]? = some instr := by
  obtain ⟨rest, hrest⟩ := h
  rw [← List.getElem?_drop, ← hrest,
    List.getElem?_append_left (List.getElem?_eq_some_iff.1 hi).1, hi]

/-- A step inside a block is made at one of its lines, since behind them there is none. -/
theorem exists_getElem?_of_step {i : Nat} (hblock : IsBlock code line block) (hi : i ≤ block.length)
    (hpc : m.pc = line + i) (hstep : step oracle code m = some m') :
    ∃ instr, block[i]? = some instr ∧ code[m.pc]? = some instr := by
  rcases Nat.lt_or_eq_of_le hi with hi | rfl
  · have hinstr : block[i]? = some block[i] := List.getElem?_eq_getElem hi
    exact ⟨_, hinstr, hpc ▸ getElem?_of_at hblock.isAt hinstr⟩
  · obtain ⟨instr, hinstr, hfunction⟩ := exists_instr_of_step hstep
    rw [hpc] at hinstr
    rw [hblock.isFunction_next instr hinstr] at hfunction
    cases hfunction

theorem Stands.step (hblock : IsBlock code line block) (hcode : (labels code).Nodup)
    (h : Heights block height) {base : Nat} (hm : Stands block height line base m)
    (hstep : step oracle code m = some m') : Stands block height line base m' := by
  obtain ⟨i, hi, hpc, hstack⟩ := hm
  obtain ⟨instr, hinstr, hline⟩ := exists_getElem?_of_step hblock hi hpc hstep
  obtain ⟨-, hlength, hnext⟩ := length_stack_of_step hline hstep
  have hafter : m'.stack.length = base + after instr (height i) := by
    have hpops := h.pops_le i _ hinstr
    rw [hlength, hstack, after, after]
    omega
  rcases hnext with hnext | ⟨name, hjump, htarget⟩
  · refine ⟨i + 1, (List.getElem?_eq_some_iff.1 hinstr).1, ?_, by rw [hafter, h.next i _ hinstr]⟩
    rw [hnext, hpc, Nat.add_assoc]
  · obtain ⟨j, hj, hheight⟩ := h.jump i _ name hinstr hjump
    have hlabel := getElem?_of_target? hj
    have heq := target?_eq_some hcode (getElem?_of_at hblock.isAt hlabel)
    have hlt := (List.getElem?_eq_some_iff.1 hlabel).1
    refine ⟨j, Nat.le_of_lt hlt, ?_, by rw [hafter, hheight]⟩
    exact Option.some.inj (htarget.symm.trans heq)

/-- A machine that enters a block keeps to its heights. -/
theorem Heights.stands (hblock : IsBlock code line block) (hcode : (labels code).Nodup)
    (h : Heights block height) (hpc : m.pc = line + 1) (hsteps : Steps oracle code m m') :
    Stands block height line m.stack.length m' := by
  induction hsteps with
  | refl =>
    obtain ⟨name, locals, hhead⟩ := hblock.isFunction_head
    refine ⟨1, ?_, hpc, by rw [h.start, Nat.add_zero]⟩
    exact List.length_pos_of_mem (List.mem_of_head? hhead)
  | tail _ hstep ih => exact ih.step hblock hcode h hstep

/-- A machine that enters a block has one value more where it returns. -/
theorem Heights.length_stack_of_return (hblock : IsBlock code line block)
    (hcode : (labels code).Nodup) (h : Heights block height) (hpc : m.pc = line + 1)
    (hsteps : Steps oracle code m m') (hreturn : code[m'.pc]? = some .return) :
    m'.stack.length = m.stack.length + 1 := by
  obtain ⟨i, hi, hpc', hstack⟩ := h.stands hblock hcode hpc hsteps
  rw [hpc'] at hreturn
  rcases Nat.lt_or_eq_of_le hi with hi | rfl
  · have hinstr : block[i]? = some block[i] := List.getElem?_eq_getElem hi
    have heq := (getElem?_of_at hblock.isAt hinstr).symm.trans hreturn
    rw [hstack, h.returns i (hinstr.trans heq)]
  · cases hblock.isFunction_next _ hreturn

end JackLang.Machine
