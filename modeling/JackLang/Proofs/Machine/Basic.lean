import JackLang.Instr
import Mathlib.Logic.Function.Basic
import Mathlib.Logic.Relation

/-! The stack machine that compiled code runs on: 16-bit words, an operand stack, the segments of
one subroutine, two pointers, and a heap that is reached through them. What a called subroutine does
is told by an oracle. `step` makes one instruction of a listing, which `performs_of_step` says once
for all, and jumps go to the line that sets their label (`target?_eq_some`). -/

namespace JackLang
namespace Machine

abbrev Word := BitVec 16

/-- The variables of one subroutine. -/
structure Frame where
  arguments : Nat → Word
  locals : Nat → Word

/-- What subroutines share. -/
structure Globals where
  statics : Nat → Word
  heap : Word → Word

structure Store where
  frame : Frame
  globals : Globals

/-- What a called subroutine answers and leaves behind. -/
structure Response where
  result : Word
  globals : Globals
  temp : Nat → Word

/-- What the subroutine of a name does with its arguments and what is shared; none where it does
not return. -/
abbrev Oracle := String → List Word → Globals → Option Response

structure State where
  /-- The next line of the listing. -/
  pc : Nat
  /-- The last word pushed comes first. -/
  stack : List Word
  store : Store
  /-- The pointer to the current object. -/
  this : Word
  /-- The pointer to an array. -/
  that : Word
  temp : Nat → Word

/-! ### Cells -/

def Globals.writeHeap (g : Globals) (address value : Word) : Globals :=
  { g with heap := Function.update g.heap address value }

namespace Store

variable (σ : Store) (this : Word) (i : Nat) (value : Word)

def setArgument : Store :=
  { σ with frame := { σ.frame with arguments := Function.update σ.frame.arguments i value } }

def setLocal : Store :=
  { σ with frame := { σ.frame with locals := Function.update σ.frame.locals i value } }

def setStatic : Store :=
  { σ with globals := { σ.globals with statics := Function.update σ.globals.statics i value } }

/-- A field of the current object is a cell behind the pointer to it. -/
def setField : Store :=
  { σ with globals := σ.globals.writeHeap (this + .ofNat 16 i) value }

end Store

namespace State

variable (m : State)

/-- The word in a cell of a segment. -/
def load? : Segment → Nat → Option Word
  | .constant, i => some (.ofNat 16 i)
  | .argument, i => some (m.store.frame.arguments i)
  | .local, i => some (m.store.frame.locals i)
  | .static, i => some (m.store.globals.statics i)
  | .this, i => some (m.store.globals.heap (m.this + .ofNat 16 i))
  | .that, i => some (m.store.globals.heap (m.that + .ofNat 16 i))
  | .pointer, 0 => some m.this
  | .pointer, 1 => some m.that
  | .pointer, _ + 2 => none
  | .temp, i => some (m.temp i)

/-- The state after a cell of a segment is set. -/
def save? (value : Word) : Segment → Nat → Option State
  | .constant, _ => none
  | .argument, i => some { m with store := m.store.setArgument i value }
  | .local, i => some { m with store := m.store.setLocal i value }
  | .static, i => some { m with store := m.store.setStatic i value }
  | .this, i => some { m with store := m.store.setField m.this i value }
  | .that, i => some { m with store := m.store.setField m.that i value }
  | .pointer, 0 => some { m with this := value }
  | .pointer, 1 => some { m with that := value }
  | .pointer, _ + 2 => none
  | .temp, i => some { m with temp := Function.update m.temp i value }

end State

/-! ### Instructions -/

/-- The truth values of a comparison. -/
def truth (b : Bool) : Word := if b then -1 else 0

/-- An operation takes its operands from the stack, the right one first. -/
def operate? : Operation → List Word → Option (List Word)
  | .neg, x :: stack => some (-x :: stack)
  | .not, x :: stack => some (~~~x :: stack)
  | .add, y :: x :: stack => some ((x + y) :: stack)
  | .sub, y :: x :: stack => some ((x - y) :: stack)
  | .and, y :: x :: stack => some ((x &&& y) :: stack)
  | .or, y :: x :: stack => some ((x ||| y) :: stack)
  | .eq, y :: x :: stack => some (truth (x = y) :: stack)
  | .gt, y :: x :: stack => some (truth (y.slt x) :: stack)
  | .lt, y :: x :: stack => some (truth (x.slt y) :: stack)
  | _, _ => none

/-- The line of a listing that a jump goes to. -/
def target? (code : List Instr) (name : String) : Option Nat :=
  code.findIdx? (· = .label name)

/-- One instruction. There is no step at the end of a subroutine, nor where operands are missing. -/
def step (oracle : Oracle) (code : List Instr) (m : State) : Option State :=
  match code[m.pc]? with
  | some (.push segment i) => do
    let value ← m.load? segment i
    return { m with pc := m.pc + 1, stack := value :: m.stack }
  | some (.pop segment i) =>
    match m.stack with
    | value :: stack => { m with pc := m.pc + 1, stack }.save? value segment i
    | [] => none
  | some (.operate operation) => do
    let stack ← operate? operation m.stack
    return { m with pc := m.pc + 1, stack }
  | some (.label _) => some { m with pc := m.pc + 1 }
  | some (.goto name) => do
    let pc ← target? code name
    return { m with pc }
  | some (.ifGoto name) =>
    match m.stack with
    | value :: stack =>
      if value = 0 then some { m with pc := m.pc + 1, stack }
      else do
        let pc ← target? code name
        return { m with pc, stack }
    | [] => none
  | some (.call name n) =>
    if n ≤ m.stack.length then do
      let response ← oracle name (m.stack.take n).reverse m.store.globals
      return { m with
        pc := m.pc + 1
        stack := response.result :: m.stack.drop n
        store := { m.store with globals := response.globals }
        temp := response.temp }
    else none
  | some (.function _ _) | some .return | none => none

/-- What a machine does with the instruction at its line. -/
inductive Performs (oracle : Oracle) (code : List Instr) (m : State) : Instr → State → Prop
  | push {segment : Segment} {i : Nat} {value : Word} (h : m.load? segment i = some value) :
    Performs oracle code m (.push segment i) { m with pc := m.pc + 1, stack := value :: m.stack }
  | pop {segment : Segment} {i : Nat} {value : Word} {stack : List Word} {m' : State}
    (hstack : m.stack = value :: stack)
    (h : { m with pc := m.pc + 1, stack }.save? value segment i = some m') :
    Performs oracle code m (.pop segment i) m'
  | operate {operation : Operation} {stack : List Word}
    (h : operate? operation m.stack = some stack) :
    Performs oracle code m (.operate operation) { m with pc := m.pc + 1, stack }
  | label {name : String} : Performs oracle code m (.label name) { m with pc := m.pc + 1 }
  | goto {name : String} {pc : Nat} (h : target? code name = some pc) :
    Performs oracle code m (.goto name) { m with pc }
  | ifGoto_zero {name : String} {stack : List Word} (hstack : m.stack = 0 :: stack) :
    Performs oracle code m (.ifGoto name) { m with pc := m.pc + 1, stack }
  | ifGoto {name : String} {value : Word} {stack : List Word} {pc : Nat}
    (hstack : m.stack = value :: stack) (h : target? code name = some pc) :
    Performs oracle code m (.ifGoto name) { m with pc, stack }
  | call {name : String} {n : Nat} {response : Response} (hn : n ≤ m.stack.length)
    (h : oracle name (m.stack.take n).reverse m.store.globals = some response) :
    Performs oracle code m (.call name n) { m with
      pc := m.pc + 1
      stack := response.result :: m.stack.drop n
      store := { m.store with globals := response.globals }
      temp := response.temp }

theorem performs_of_step {oracle : Oracle} {code : List Instr} {m m' : State} {instr : Instr}
    (hinstr : code[m.pc]? = some instr) (h : step oracle code m = some m') :
    Performs oracle code m instr m' := by
  rw [step, hinstr] at h
  cases instr with
  | push segment i =>
    obtain ⟨value, hload, heq⟩ := Option.bind_eq_some_iff.1 h
    cases heq
    exact .push hload
  | pop segment i =>
    cases hstack : m.stack with
    | nil => simp [hstack] at h
    | cons value stack =>
      simp only [hstack] at h
      exact .pop hstack h
  | operate operation =>
    obtain ⟨stack, hoperate, heq⟩ := Option.bind_eq_some_iff.1 h
    cases heq
    exact .operate hoperate
  | label name =>
    cases h
    exact .label
  | goto name =>
    obtain ⟨pc, htarget, heq⟩ := Option.bind_eq_some_iff.1 h
    cases heq
    exact .goto htarget
  | ifGoto name =>
    cases hstack : m.stack with
    | nil => simp [hstack] at h
    | cons value stack =>
      simp only [hstack] at h
      split at h
      · next hvalue =>
        cases h
        exact .ifGoto_zero (hvalue ▸ hstack)
      · obtain ⟨pc, htarget, heq⟩ := Option.bind_eq_some_iff.1 h
        cases heq
        exact .ifGoto hstack htarget
  | call name n =>
    simp only at h
    split at h
    · next hn =>
      obtain ⟨response, horacle, heq⟩ := Option.bind_eq_some_iff.1 h
      cases heq
      exact .call hn horacle
    · cases h
  | function | «return» => cases h

/-- Any number of steps. -/
def Steps (oracle : Oracle) (code : List Instr) : State → State → Prop :=
  Relation.ReflTransGen fun m m' => step oracle code m = some m'

/-! ### Parts of a listing -/

/-- Some instructions stand at a line of a listing. -/
def At (code : List Instr) (pc : Nat) (part : List Instr) : Prop := part <+: code.drop pc

variable {code xs ys : List Instr} {pc : Nat} {instr : Instr} {name : String}

theorem at_append_iff : At code pc (xs ++ ys) ↔ At code pc xs ∧ At code (pc + xs.length) ys := by
  rw [At, At, At, ← List.drop_drop]
  refine ⟨?_, ?_⟩
  · rintro ⟨rest, h⟩
    rw [← h, List.append_assoc, List.drop_left]
    exact ⟨List.prefix_append _ _, List.prefix_append _ _⟩
  · rintro ⟨⟨rest, h⟩, h'⟩
    rw [← h, List.drop_left] at h'
    rw [← h]
    exact (List.prefix_append_right_inj xs).2 h'

theorem at_singleton_iff : At code pc [instr] ↔ code[pc]? = some instr := by
  rw [At, ← List.head?_drop]
  cases code.drop pc with
  | nil => simp
  | cons => simp [eq_comm]

theorem at_cons_iff : At code pc (instr :: xs) ↔ code[pc]? = some instr ∧ At code (pc + 1) xs := by
  rw [← List.singleton_append, at_append_iff, at_singleton_iff, List.length_singleton]

/-- A part of a listing that is split there. -/
theorem at_length (before part after : List Instr) :
    At (before ++ (part ++ after)) before.length part := by
  rw [At, List.drop_left]
  exact List.prefix_append _ _

/-! ### Labels -/

/-- The label that an instruction sets. -/
def label? : Instr → Option String
  | .label name => some name
  | _ => none

/-- The labels of a listing. -/
def labels (code : List Instr) : List String := code.filterMap label?

@[simp] theorem labels_nil : labels [] = [] := rfl

@[simp] theorem labels_append : labels (xs ++ ys) = labels xs ++ labels ys := List.filterMap_append

@[simp] theorem labels_cons : labels (instr :: xs) = (label? instr).toList ++ labels xs := by
  rw [labels, List.filterMap_cons]
  cases label? instr <;> rfl

/-- A label that is set once is found where it is set. -/
theorem target?_eq_some (hcode : (labels code).Nodup) (h : code[pc]? = some (.label name)) :
    target? code name = some pc := by
  rw [target?]
  induction code generalizing pc with
  | nil => cases h
  | cons instr code ih =>
    rw [List.findIdx?_cons]
    cases pc with
    | zero =>
      cases h
      simp
    | succ pc =>
      rw [List.getElem?_cons_succ] at h
      have hmem : name ∈ labels code := List.mem_filterMap.2 ⟨_, List.mem_of_getElem? h, rfl⟩
      have hne : instr ≠ .label name := by
        rintro rfl
        simp only [labels, List.filterMap_cons, label?, List.nodup_cons] at hcode
        exact hcode.1 hmem
      have hcode' : (labels code).Nodup :=
        hcode.sublist ((List.sublist_cons_self instr code).filterMap _)
      simp [hne, ih hcode' h]

end Machine
end JackLang
