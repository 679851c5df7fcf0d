import JackLang.Proofs.Heights
import JackLang.Proofs.Syntax.Capacity
import JackLang.Proofs.Syntax.Labels

/-! Jumps and blocks of a translated class. A block sets the labels that it jumps to
(`Class.jumps_subset_labels_block`), every line stands in a block, and cutting off the counts of
calls changes neither labels nor jumps nor blocks (`Class.exists_isBlock_map_capped`). -/

namespace JackLang.Syntax

open Machine

/-! ### Jumps -/

theorem jumps_eq_nil_of_straight {code : List Instr} (h : ∀ instr ∈ code, Straight instr) :
    jumps code = [] := by
  rw [jumps, List.filterMap_eq_nil_iff]
  intro instr hinstr
  have := h instr hinstr
  cases instr <;> first | rfl | cases this

theorem Expression.jumps_translate (site : Site) (expression : Expression) :
    jumps (expression.translate site) = [] :=
  jumps_eq_nil_of_straight fun _ h => Expression.straight_of_mem_translate h

theorem Term.jumps_translate (site : Site) (term : Term) : jumps (term.translate site) = [] :=
  jumps_eq_nil_of_straight fun _ h => Term.straight_of_mem_translate h

section branches

variable {site : Site} {subroutine : String} {n : Numbering} {condition : Expression}
  {body alternative : List Statement}

theorem Statement.jumps_ifThen :
    jumps ((Statement.ifThen condition body).translate site subroutine n) =
      site.label subroutine Construct.if.firstBase (n .if) ::
        jumps (Statement.translateAll site subroutine (n.succ .if) body) := by
  simp [Statement.translate, Expression.jumps_translate, jump?, Construct.firstBase]

theorem Statement.jumps_ifElse :
    jumps ((Statement.ifElse condition body alternative).translate site subroutine n) =
      site.label subroutine Construct.if.firstBase (n .if) ::
        (jumps (Statement.translateAll site subroutine (n.succ .if) body) ++
          site.label subroutine Construct.if.secondBase (n .if) ::
            jumps (Statement.translateAll site subroutine ((n.succ .if).behind body)
              alternative)) := by
  simp [Statement.translate, Expression.jumps_translate, jump?, Construct.firstBase,
    Construct.secondBase]

theorem Statement.jumps_while :
    jumps ((Statement.while condition body).translate site subroutine n) =
      site.label subroutine Construct.while.secondBase (n .while) ::
        (jumps (Statement.translateAll site subroutine (n.succ .while) body) ++
          [site.label subroutine Construct.while.firstBase (n .while)]) := by
  simp [Statement.translate, Expression.jumps_translate, jump?, Construct.firstBase,
    Construct.secondBase]

end branches

mutual

/-- A statement sets the labels that it jumps to. -/
theorem Statement.jumps_subset_labels (site : Site) (subroutine : String) :
    ∀ (n : Numbering) (statement : Statement),
      jumps (statement.translate site subroutine n) ⊆ labels (statement.translate site subroutine n)
  | n, .assign target value => by
    have htarget : jumps (site.popVariable target) = [] :=
      jumps_eq_nil_of_straight fun _ h => Site.straight_of_mem_popVariable h
    rw [Statement.translate, jumps_append, Expression.jumps_translate, htarget]
    exact List.nil_subset _
  | n, .assignElement array index value => by
    have harray : jumps (site.pushVariable array) = [] :=
      jumps_eq_nil_of_straight fun _ h => Site.straight_of_mem_pushVariable h
    simp [Statement.translate, harray, Expression.jumps_translate, jump?]
  | n, .ifThen condition body => by
    rw [Statement.jumps_ifThen, Statement.labels_ifThen]
    refine List.cons_subset.2 ⟨by simp, ?_⟩
    exact List.subset_append_of_subset_left _
      (Statement.jumps_subset_labelsAll site subroutine _ body)
  | n, .ifElse condition body alternative => by
    rw [Statement.jumps_ifElse, Statement.labels_ifElse]
    refine List.cons_subset.2 ⟨by simp, List.append_subset.2 ⟨?_, List.cons_subset.2 ⟨by simp, ?_⟩⟩⟩
    · exact List.subset_append_of_subset_left _
        (Statement.jumps_subset_labelsAll site subroutine _ body)
    · exact List.subset_append_of_subset_right _ (List.subset_cons_of_subset _
        (List.subset_append_of_subset_left _
          (Statement.jumps_subset_labelsAll site subroutine _ alternative)))
  | n, .while condition body => by
    rw [Statement.jumps_while, Statement.labels_while]
    refine List.cons_subset.2 ⟨by simp, List.append_subset.2 ⟨?_, by simp⟩⟩
    exact List.subset_cons_of_subset _ (List.subset_append_of_subset_left _
      (Statement.jumps_subset_labelsAll site subroutine _ body))
  | n, .call qualifier subroutine' arguments => by
    rw [Statement.translate, jumps_append, Term.jumps_translate]
    exact List.nil_subset _
  | n, .return none => List.nil_subset _
  | n, .return (some value) => by
    rw [Statement.translate, jumps_append, Expression.jumps_translate]
    exact List.nil_subset _
termination_by structural _ statement => statement

theorem Statement.jumps_subset_labelsAll (site : Site) (subroutine : String) :
    ∀ (n : Numbering) (statements : List Statement),
      jumps (Statement.translateAll site subroutine n statements) ⊆
        labels (Statement.translateAll site subroutine n statements)
  | n, [] => List.nil_subset _
  | n, statement :: rest => by
    rw [Statement.translateAll, jumps_append, labels_append]
    refine List.append_subset.2 ⟨?_, ?_⟩
    · exact List.subset_append_of_subset_left _
        (Statement.jumps_subset_labels site subroutine n statement)
    · exact List.subset_append_of_subset_right _
        (Statement.jumps_subset_labelsAll site subroutine _ rest)
termination_by structural _ statements => statements

end

/-! ### Counts that are cut off -/

variable {code block : List Instr} {line i : Nat} {instr : Instr} {name : String}

theorem label?_capped (instr : Instr) : label? (capped instr) = label? instr := by
  cases instr <;> rfl

theorem jump?_capped (instr : Instr) : jump? (capped instr) = jump? instr := by
  cases instr <;> rfl

theorem isFunction_capped (instr : Instr) : isFunction (capped instr) = isFunction instr := by
  cases instr <;> rfl

theorem capped_eq_label_iff : capped instr = .label name ↔ instr = .label name := by
  cases instr <;> simp [capped]

theorem labels_map_capped (code : List Instr) : labels (code.map capped) = labels code := by
  rw [labels, labels, List.filterMap_map]
  exact List.filterMap_congr fun instr _ => label?_capped instr

theorem countP_isFunction_map_capped (code : List Instr) :
    (code.map capped).countP isFunction = code.countP isFunction := by
  rw [List.countP_map]
  exact List.countP_congr fun instr _ => by rw [Function.comp_apply, isFunction_capped]

theorem any_isFunction_map_capped (code : List Instr) :
    (code.map capped).any isFunction = code.any isFunction := by
  rw [List.any_map]
  exact congrArg code.any (funext isFunction_capped)

theorem IsBlock.map_capped (h : IsBlock code line block) :
    IsBlock (code.map capped) line (block.map capped) where
  isAt := by
    rw [At, ← List.map_drop]
    exact List.IsPrefix.map capped h.isAt
  isFunction_head := by
    obtain ⟨name, locals, hhead⟩ := h.isFunction_head
    exact ⟨name, locals, by rw [List.head?_map, hhead]; rfl⟩
  any_isFunction_tail := by
    rw [← List.map_tail, any_isFunction_map_capped]
    exact h.any_isFunction_tail
  isFunction_next := by
    intro instr hinstr
    rw [List.length_map, List.getElem?_map, Option.mem_def, Option.map_eq_some_iff] at hinstr
    obtain ⟨instr, hinstr, rfl⟩ := hinstr
    rw [isFunction_capped]
    exact h.isFunction_next instr hinstr

/-- What is a block where counts are cut off is one where they are not. -/
theorem IsBlock.exists_of_map_capped (h : IsBlock (code.map capped) line block) :
    ∃ block', IsBlock code line block' ∧ block = block'.map capped := by
  obtain ⟨block, hat, rfl⟩ : ∃ block', At code line block' ∧ block = block'.map capped := by
    have htake := List.prefix_iff_eq_take.1 h.isAt
    rw [← List.map_drop, ← List.map_take] at htake
    exact ⟨_, List.take_prefix _ _, htake⟩
  refine ⟨block, ⟨hat, ?_, ?_, fun instr hinstr => ?_⟩, rfl⟩
  · obtain ⟨name, locals, hhead⟩ := h.isFunction_head
    rw [List.head?_map, Option.map_eq_some_iff] at hhead
    obtain ⟨instr, hinstr, heq⟩ := hhead
    cases instr with
    | function => exact ⟨_, _, hinstr⟩
    | _ => cases heq
  · rw [← any_isFunction_map_capped, List.map_tail]
    exact h.any_isFunction_tail
  · have hnext := h.isFunction_next (capped instr)
    rw [List.length_map, List.getElem?_map, hinstr, isFunction_capped] at hnext
    exact hnext rfl

/-! ### Classes -/

namespace Class

variable {c : Class} {s : Subroutine} {k : Nat}

theorem jumps_subset_labels_block (c : Class) (k : Nat) (s : Subroutine) :
    jumps (c.block k s) ⊆ labels (c.block k s) := by
  have hprologue : jumps (s.prologue c.fieldCount) = [] := by
    unfold Subroutine.prologue
    cases s.kind <;> rfl
  rw [block, jumps_cons, labels_cons, jumps_append, labels_append, hprologue]
  exact List.subset_append_of_subset_right _ (List.subset_append_of_subset_right _
    (Statement.jumps_subset_labelsAll ..))

/-- A line of the first subroutines stands in one of their blocks. -/
theorem exists_block_of_getElem?_blocks (hk : k ≤ c.subroutines.length)
    (hi : (c.blocks k)[i]? = some instr) : ∃ k s i', c.subroutines[k]? = some s ∧
      i = (c.blocks k).length + i' ∧ (c.block k s)[i']? = some instr := by
  induction k with
  | zero => cases hi
  | succ k ih =>
    have hs : c.subroutines[k]? = some c.subroutines[k] := List.getElem?_eq_getElem hk
    rw [blocks_succ hs] at hi
    rcases Nat.lt_or_ge i (c.blocks k).length with hlt | hge
    · rw [List.getElem?_append_left hlt] at hi
      exact ih (Nat.le_of_succ_le hk) hi
    · rw [List.getElem?_append_right hge] at hi
      exact ⟨k, _, i - (c.blocks k).length, hs, (Nat.add_sub_cancel' hge).symm, hi⟩

theorem exists_block_of_getElem? (hi : c.translate[i]? = some instr) :
    ∃ k s i', c.subroutines[k]? = some s ∧ i = (c.blocks k).length + i' ∧
      (c.block k s)[i']? = some instr := by
  rw [translate_eq_blocks] at hi
  exact exists_block_of_getElem?_blocks (Nat.le_refl _) hi

/-- A subroutine has its block in written code, behind those of the subroutines before it. -/
theorem isBlock_map_capped (hs : c.subroutines[k]? = some s) :
    IsBlock (c.translate.map capped) (c.blocks k).length ((c.block k s).map capped) ∧
      ((c.translate.map capped).take (c.blocks k).length).countP isFunction = k := by
  refine ⟨(isBlock_block hs).map_capped, ?_⟩
  rw [← List.map_take, take_translate, countP_isFunction_map_capped]
  exact countP_isFunction_blocks (Nat.le_of_lt (List.getElem?_eq_some_iff.1 hs).1)

/-- The blocks of written code are those of the subroutines, in their order. -/
theorem exists_of_isBlock_map_capped (h : IsBlock (c.translate.map capped) line block) :
    ∃ k s, c.subroutines[k]? = some s ∧ line = (c.blocks k).length ∧
      block = (c.block k s).map capped ∧
      ((c.translate.map capped).take line).countP isFunction = k := by
  obtain ⟨block, hblock, rfl⟩ := h.exists_of_map_capped
  obtain ⟨k, s, hs, rfl, rfl⟩ := exists_of_isBlock hblock
  exact ⟨k, s, hs, rfl, rfl, (isBlock_map_capped hs).2⟩

/-- Every line of written code stands in a block. -/
theorem exists_isBlock_map_capped (hi : i < (c.translate.map capped).length) :
    ∃ line block, IsBlock (c.translate.map capped) line block ∧ line ≤ i ∧
      i < line + block.length := by
  rw [List.length_map] at hi
  obtain ⟨k, s, i', hs, rfl, hi'⟩ := exists_block_of_getElem? (List.getElem?_eq_getElem hi)
  refine ⟨_, _, (isBlock_map_capped hs).1, Nat.le_add_right _ _, ?_⟩
  rw [List.length_map]
  exact Nat.add_lt_add_left (List.getElem?_eq_some_iff.1 hi').1 _

end Class

end JackLang.Syntax
