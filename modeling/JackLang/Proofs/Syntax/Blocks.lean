import JackLang.Proofs.Machine.Basic
import JackLang.Proofs.Syntax.Origin

/-! The shape of translated code. The code of an expression is straight, and the listing of a class
falls apart into the blocks of its subroutines, each of which starts with its only `function` line
(`Class.exists_of_isBlock`). -/

namespace JackLang.Syntax

open Machine

/-! ### Straight code -/

/-- An instruction that the next line follows. -/
def Straight : Instr → Prop
  | .push .. | .pop .. | .operate .. | .call .. => True
  | .label .. | .goto .. | .ifGoto .. | .function .. | .return => False

namespace Site

variable {site : Site} {instr : Instr}

theorem straight_of_mem_pushVariable {name : String} (h : instr ∈ site.pushVariable name) :
    Straight instr := by
  obtain ⟨v, -, rfl⟩ := List.mem_map.1 h
  trivial

theorem straight_of_mem_popVariable {name : String} (h : instr ∈ site.popVariable name) :
    Straight instr := by
  obtain ⟨v, -, rfl⟩ := List.mem_map.1 h
  trivial

theorem straight_of_mem_pushThis (h : instr ∈ site.pushThis) : Straight instr := by
  rw [pushThis] at h
  split at h <;> simp_all [Straight]

theorem straight_of_mem_pushObject {qualifier : Option String}
    (h : instr ∈ site.pushObject qualifier) : Straight instr := by
  cases qualifier with
  | none => exact straight_of_mem_pushThis h
  | some qualifier => exact straight_of_mem_pushVariable h

theorem straight_callInstr (subroutine : String) (arguments : Nat) (qualifier : Option String) :
    Straight (site.callInstr subroutine arguments qualifier) := by
  unfold callInstr
  split
  · trivial
  · split <;> trivial

end Site

theorem straight_operatorInstr (op : Operator) : Straight (operatorInstr op) := by
  cases op <;> trivial

theorem straight_unaryInstr (op : UnaryOperator) : Straight (unaryInstr op) := by
  cases op <;> trivial

theorem straight_of_mem_constantCode {constant : Constant} {instr : Instr}
    (h : instr ∈ constantCode constant) : Straight instr := by
  cases constant <;> simp_all [constantCode] <;> rcases h with rfl | rfl <;> trivial

theorem straight_of_mem_stringCode {text : String} {instr : Instr} (h : instr ∈ stringCode text) :
    Straight instr := by
  simp only [stringCode, List.mem_cons, List.mem_flatMap, List.not_mem_nil, or_false] at h
  rcases h with rfl | rfl | ⟨_, -, rfl | rfl⟩ <;> trivial

theorem Term.straight_of_mem_own {site : Site} {u : Term} {instr : Instr} (h : instr ∈ u.own site) :
    Straight instr := by
  cases u with
  | integer value =>
    cases List.mem_singleton.1 h
    trivial
  | string text => exact straight_of_mem_stringCode h
  | constant keyword => exact straight_of_mem_constantCode h
  | this => exact Site.straight_of_mem_pushThis h
  | «variable» name => exact Site.straight_of_mem_pushVariable h
  | element array index =>
    simp only [Term.own, List.mem_append, List.mem_cons, List.not_mem_nil, or_false] at h
    rcases h with h | rfl | rfl | rfl
    · exact Site.straight_of_mem_pushVariable h
    all_goals trivial
  | call qualifier subroutine arguments =>
    rcases List.mem_append.1 h with h | h
    · exact Site.straight_of_mem_pushObject h
    · cases List.mem_singleton.1 h
      exact Site.straight_callInstr ..
  | group inner => cases h
  | unary op operand =>
    cases List.mem_singleton.1 h
    exact straight_unaryInstr op

theorem Stems.straight {site : Site} {terms : List Term} {instr : Instr}
    (h : Stems site terms instr) : Straight instr := by
  rcases h with ⟨op, rfl⟩ | ⟨u, -, h⟩
  · exact straight_operatorInstr op
  · exact Term.straight_of_mem_own h

theorem Term.straight_of_mem_translate {site : Site} {term : Term} {instr : Instr}
    (h : instr ∈ term.translate site) : Straight instr := (Term.stems_of_mem_translate h).straight

theorem Expression.straight_of_mem_translate {site : Site} {expression : Expression}
    {instr : Instr} (h : instr ∈ expression.translate site) : Straight instr :=
  (Expression.stems_of_mem_translate h).straight

/-! ### Function lines -/

def isFunction : Instr → Bool
  | .function .. => true
  | _ => false

theorem isFunction_of_straight {instr : Instr} (h : Straight instr) : isFunction instr = false := by
  cases instr with
  | function => exact h.elim
  | _ => rfl

/-- No statement adds a `function` line. -/
theorem Statement.isFunction_of_mem_own {site : Site} {subroutine : String} {n : Numbering}
    {u : Statement} {instr : Instr} (h : instr ∈ u.own site subroutine n) :
    isFunction instr = false := by
  have hother {code : List Instr} (hcode : code.any isFunction = false) (h : instr ∈ code) :
      isFunction instr = false := Bool.not_eq_true _ ▸ List.any_eq_false.1 hcode instr h
  cases u with
  | assign target value => exact isFunction_of_straight (Site.straight_of_mem_popVariable h)
  | assignElement array index value =>
    rcases List.mem_append.1 h with h | h
    · exact isFunction_of_straight (Site.straight_of_mem_pushVariable h)
    · exact hother rfl h
  | ifThen condition body | ifElse condition body alternative | «while» condition body =>
    exact hother rfl h
  | call qualifier subroutine' arguments =>
    rcases List.mem_append.1 h with h | h
    · exact isFunction_of_straight (Term.straight_of_mem_own h)
    · exact hother rfl h
  | «return» value => cases value <;> exact hother rfl h

theorem Statement.any_isFunction_translateAll (site : Site) (subroutine : String) (n : Numbering)
    (statements : List Statement) :
    (Statement.translateAll site subroutine n statements).any isFunction = false := by
  rw [List.any_eq_false]
  intro instr h
  rw [Bool.not_eq_true]
  obtain ⟨u, -, ⟨n, hown⟩ | hstems⟩ := Statement.exists_stems_of_mem_translateAll h
  · exact Statement.isFunction_of_mem_own hown
  · exact isFunction_of_straight hstems.straight

/-! ### Blocks -/

/-- A `function` line and the lines behind it up to the next one or the end of the listing. -/
structure IsBlock (code : List Instr) (line : Nat) (block : List Instr) : Prop where
  isAt : At code line block
  isFunction_head : ∃ name locals, block.head? = some (.function name locals)
  any_isFunction_tail : block.tail.any isFunction = false
  isFunction_next : ∀ instr ∈ code[line + block.length]?, isFunction instr

/-- A block is a listing of its own. -/
theorem IsBlock.alone {code block : List Instr} {line : Nat} (h : IsBlock code line block) :
    IsBlock block 0 block where
  isAt := List.prefix_rfl
  isFunction_head := h.isFunction_head
  any_isFunction_tail := h.any_isFunction_tail
  isFunction_next instr hinstr := by simp at hinstr

section marks

variable {α : Type} {p : α → Bool} {x : α} {xs xs' ys ys' rest after : List α}

/-- Two lists that are split before their first mark. -/
theorem append_inj_of_any_eq_false (h : xs ++ ys = xs' ++ ys') (hxs : xs.any p = false)
    (hxs' : xs'.any p = false) (hys : ∀ y ∈ ys.head?, p y) (hys' : ∀ y ∈ ys'.head?, p y) :
    xs = xs' := by
  rw [List.any_eq_false] at hxs hxs'
  rcases List.append_eq_append_iff.1 h with ⟨zs, rfl, rfl⟩ | ⟨zs, rfl, rfl⟩
  · cases zs with
    | nil => simp
    | cons z zs => exact absurd (hys z rfl) (hxs' z (by simp))
  · cases zs with
    | nil => simp
    | cons z zs => exact absurd (hys' z rfl) (hxs z (by simp))

theorem getElem?_length_append : (xs ++ ys)[xs.length]? = ys.head? := by
  rw [List.getElem?_append_right (Nat.le_refl _), Nat.sub_self, List.head?_eq_getElem?]

theorem head?_flatten_of_forall {bs : List (List α)}
    (hbs : ∀ b ∈ bs, ∃ y ys, b = y :: ys ∧ p y ∧ ys.any p = false) :
    ∀ y ∈ bs.flatten.head?, p y := by
  cases bs with
  | nil => exact nofun
  | cons b bs =>
    obtain ⟨y, ys, rfl, hy, -⟩ := hbs b List.mem_cons_self
    rintro _ ⟨⟩
    exact hy

/-- Where lists that each begin with their only mark stand one behind the other, what stands from
one mark to the next is one of them. -/
theorem exists_of_flatten_eq (hx : p x) (hrest : rest.any p = false)
    (hafter : ∀ y ∈ after.head?, p y) : ∀ {bs : List (List α)} {before : List α},
      (∀ b ∈ bs, ∃ y ys, b = y :: ys ∧ p y ∧ ys.any p = false) →
        bs.flatten = before ++ x :: (rest ++ after) →
          ∃ k, bs[k]? = some (x :: rest) ∧ before = (bs.take k).flatten
  | [], before, _, h => by simp at h
  | b :: bs, before, hbs, h => by
    obtain ⟨y, ys, rfl, hy, hys⟩ := hbs b List.mem_cons_self
    have hbs := fun b hb => hbs b (List.mem_cons_of_mem _ hb)
    cases before with
    | nil =>
      rw [List.flatten_cons, List.cons_append, List.nil_append, List.cons.injEq] at h
      have hrest := append_inj_of_any_eq_false h.2 hys hrest (head?_flatten_of_forall hbs) hafter
      exact ⟨0, by rw [h.1, hrest]; rfl, rfl⟩
    | cons z before =>
      rw [List.flatten_cons, List.cons_append, List.cons_append, List.cons.injEq] at h
      obtain ⟨rfl, h⟩ := h
      have hsplit : ∃ zs, before = ys ++ zs ∧ bs.flatten = zs ++ x :: (rest ++ after) := by
        rcases List.append_eq_append_iff.1 h with ⟨zs, hbefore, hflatten⟩ | ⟨zs, hys', htail⟩
        · exact ⟨zs, hbefore, hflatten⟩
        · cases zs with
          | nil => exact ⟨[], by simp [hys'], by simpa using htail.symm⟩
          | cons z zs =>
            rw [List.cons_append, List.cons.injEq] at htail
            simp [hys', ← htail.1, hx] at hys
      obtain ⟨zs, rfl, hflatten⟩ := hsplit
      obtain ⟨k, hk, hbefore⟩ := exists_of_flatten_eq hx hrest hafter hbs hflatten
      exact ⟨k + 1, hk, by rw [hbefore]; rfl⟩

end marks

namespace Class

variable {c : Class} {s : Subroutine} {k : Nat}

/-- The code of the first subroutines of a class. -/
def blocks (c : Class) (k : Nat) : List Instr := ((c.subroutines.mapIdx c.block).take k).flatten

theorem blocks_succ (h : c.subroutines[k]? = some s) :
    c.blocks (k + 1) = c.blocks k ++ c.block k s := by
  rw [blocks, List.take_add_one, List.getElem?_mapIdx, h, List.flatten_append]
  simp [blocks]

theorem translate_eq_blocks (c : Class) : c.translate = c.blocks c.subroutines.length := by
  rw [translate, blocks, List.take_of_length_le (by simp)]

/-- The listing begins with the code of the first subroutines. -/
theorem take_translate (c : Class) (k : Nat) : c.translate.take (c.blocks k).length = c.blocks k := by
  rw [translate, ← List.take_append_drop k (c.subroutines.mapIdx c.block), List.flatten_append,
    blocks, List.take_left]

theorem any_isFunction_tail_block (c : Class) (k : Nat) (s : Subroutine) :
    (c.block k s).tail.any isFunction = false := by
  have hprologue : (s.prologue c.fieldCount).any isFunction = false := by
    unfold Subroutine.prologue
    cases s.kind <;> rfl
  rw [block, List.tail_cons, List.any_append, hprologue, Statement.any_isFunction_translateAll]
  rfl

theorem countP_isFunction_block (c : Class) (k : Nat) (s : Subroutine) :
    (c.block k s).countP isFunction = 1 := by
  have h := List.countP_eq_zero.2 (List.any_eq_false.1 (any_isFunction_tail_block c k s))
  rw [block, List.tail_cons] at h
  rw [block, List.countP_cons_of_pos rfl, h]

/-- As many `function` lines as subroutines. -/
theorem countP_isFunction_blocks (hk : k ≤ c.subroutines.length) :
    (c.blocks k).countP isFunction = k := by
  induction k with
  | zero => rfl
  | succ k ih =>
    have hs : c.subroutines[k]? = some c.subroutines[k] := List.getElem?_eq_getElem hk
    rw [blocks_succ hs, List.countP_append, ih (Nat.le_of_succ_le hk), countP_isFunction_block]

theorem exists_of_mem_mapIdx_block {b : List Instr} (h : b ∈ c.subroutines.mapIdx c.block) :
    ∃ y ys, b = y :: ys ∧ isFunction y ∧ ys.any isFunction = false := by
  obtain ⟨k, hk, rfl⟩ := List.mem_mapIdx.1 h
  exact ⟨_, _, rfl, rfl, any_isFunction_tail_block c k _⟩

/-- The block of a subroutine in the listing of its class. -/
theorem isBlock_block (h : c.subroutines[k]? = some s) :
    IsBlock c.translate (c.blocks k).length (c.block k s) := by
  let after := ((c.subroutines.mapIdx c.block).drop (k + 1)).flatten
  have hafter : ∀ instr ∈ after.head?, isFunction instr :=
    head?_flatten_of_forall fun b hb => exists_of_mem_mapIdx_block (List.mem_of_mem_drop hb)
  have hcode : c.translate = c.blocks k ++ c.block k s ++ after := by
    rw [← blocks_succ h, blocks, ← List.flatten_append, List.take_append_drop, translate]
  refine ⟨?_, ⟨_, _, rfl⟩, any_isFunction_tail_block c k s, ?_⟩
  · rw [hcode, List.append_assoc]
    exact at_length ..
  · rw [hcode, ← List.length_append, getElem?_length_append]
    exact hafter

/-- The blocks of a listing are those of the subroutines. -/
theorem exists_of_isBlock {line : Nat} {block : List Instr} (h : IsBlock c.translate line block) :
    ∃ k s, c.subroutines[k]? = some s ∧ line = (c.blocks k).length ∧ block = c.block k s := by
  obtain ⟨⟨after, hdrop⟩, ⟨name, locals, hhead⟩, htail, hnext⟩ := h
  obtain ⟨rest, rfl⟩ : ∃ rest, block = .function name locals :: rest :=
    ⟨block.tail, (List.eq_cons_of_mem_head? hhead)⟩
  have hafter : ∀ instr ∈ after.head?, isFunction instr := by
    rwa [← List.getElem?_drop, ← hdrop, getElem?_length_append] at hnext
  have hcode : (c.subroutines.mapIdx c.block).flatten =
      c.translate.take line ++ .function name locals :: (rest ++ after) := by
    rw [← List.cons_append, hdrop, List.take_append_drop, translate]
  obtain ⟨k, hk, hline⟩ := exists_of_flatten_eq rfl htail hafter
    (fun b hb => exists_of_mem_mapIdx_block hb) hcode
  rw [List.getElem?_mapIdx, Option.map_eq_some_iff] at hk
  obtain ⟨s, hs, hblock⟩ := hk
  refine ⟨k, s, hs, ?_, hblock.symm⟩
  have hlt : line < c.translate.length := by
    have hlength := congrArg List.length hdrop
    rw [List.length_drop, List.cons_append, List.length_cons] at hlength
    omega
  rw [blocks, ← hline, List.length_take, Nat.min_eq_left (Nat.le_of_lt hlt)]

end Class

end JackLang.Syntax
