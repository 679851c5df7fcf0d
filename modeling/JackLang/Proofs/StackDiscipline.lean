import JackLang.Proofs.Compilation

/-! Stack discipline. The code of a valid tree is scanned from height 0 to height 0, so every block
of a compiled source has heights (`Compilation.exists_heights`). -/

namespace JackLang

open Machine

namespace Syntax

/-! ### Expressions -/

section expressions

variable {site : Site} {height : Nat}

theorem scan_push (segment : Segment) (i : Nat) (code : List Instr) :
    scan height (.push segment i :: code) = scan (height + 1) code := by
  simp [scan, Admits, after, pops, pushes, isBoundary]

theorem scan_pop (segment : Segment) (i : Nat) (code : List Instr) :
    scan (height + 1) (.pop segment i :: code) = scan height code := by
  simp [scan, Admits, after, pops, pushes, isBoundary]

theorem scan_call (name : String) (n : Nat) (code : List Instr) :
    scan (height + n) (.call name n :: code) = scan (height + 1) code := by
  simp [scan, Admits, after, pops, pushes, isBoundary]

theorem Site.scan_pushVariable {name : String} (h : site.Declares name) :
    scan height (site.pushVariable name) = some (height + 1) := by
  obtain ⟨v, hv⟩ := Option.isSome_iff_exists.1 h
  rw [pushVariable, hv]
  exact scan_push ..

theorem Site.scan_popVariable {name : String} (h : site.Declares name) :
    scan (height + 1) (site.popVariable name) = some height := by
  obtain ⟨v, hv⟩ := Option.isSome_iff_exists.1 h
  rw [popVariable, hv]
  exact scan_pop ..

theorem Site.scan_pushThis (h : site.kind ≠ .function) :
    scan height site.pushThis = some (height + 1) := by
  rw [pushThis]
  cases hkind : site.kind with
  | constructor | method => exact scan_push ..
  | function => exact absurd hkind h

/-- The instruction of a call counts what is pushed before the arguments. -/
theorem Site.scan_pushObject {qualifier : Option String}
    (h : qualifier = none → site.kind ≠ .function) (subroutine : String) :
    ∃ objects, scan height (site.pushObject qualifier) = some (height + objects) ∧
      ∀ n, scan (height + objects + n) [site.callInstr subroutine n qualifier] =
        some (height + 1) := by
  have hcall (name : String) (n : Nat) :
      scan (height + 1 + n) [.call name (n + 1)] = some (height + 1) := by
    rw [Nat.add_assoc, Nat.add_comm 1, scan_call]
    rfl
  cases qualifier with
  | none => exact ⟨1, scan_pushThis (h rfl), hcall _⟩
  | some qualifier =>
    cases hfind : site.find? qualifier with
    | some v =>
      refine ⟨1, scan_pushVariable (by rw [Declares, hfind]; rfl), fun n => ?_⟩
      simp only [callInstr, hfind, hcall]
    | none =>
      refine ⟨0, ?_, fun n => ?_⟩
      · simp only [pushObject, pushVariable, hfind]
        rfl
      · simp only [callInstr, hfind, Nat.add_zero, scan_call]
        rfl

theorem scan_operatorInstr (op : Operator) (code : List Instr) :
    scan (height + 2) (operatorInstr op :: code) = scan (height + 1) code := by
  cases op <;> simp [operatorInstr, scan, Admits, after, pops, pushes, isBoundary]

theorem scan_unaryInstr (op : UnaryOperator) :
    scan (height + 1) [unaryInstr op] = some (height + 1) := by
  cases op <;> simp [unaryInstr, scan, Admits, after, pops, pushes, isBoundary]

theorem scan_constantCode (constant : Constant) :
    scan height (constantCode constant) = some (height + 1) := by
  cases constant <;> simp [constantCode, scan, Admits, after, pops, pushes, isBoundary]

theorem scan_stringCode (text : String) : scan height (stringCode text) = some (height + 1) := by
  rw [stringCode, scan_push, scan_call]
  induction text.toList with
  | nil => rfl
  | cons c chars ih =>
    have hchar : scan (height + 1)
        [.push .constant c.toNat, .call "String.appendChar" 2] = some (height + 1) := by
      rw [scan_push, Nat.add_assoc, scan_call]
      rfl
    rw [List.flatMap_cons, scan_append, hchar]
    exact ih

theorem scan_read_element : scan (height + 2)
    [.operate .add, .pop .pointer 1, .push .that 0] = some (height + 1) := by
  simp [scan, Admits, after, pops, pushes, isBoundary]

mutual

/-- A term leaves one value. -/
theorem Term.scan_translate : ∀ {term : Term} {height : Nat},
    (∀ u ∈ term.subterms, u.Allowed site.kind site.Declares) →
      scan height (term.translate site) = some (height + 1)
  | .integer _, _, _ => scan_push ..
  | .string text, _, _ => scan_stringCode text
  | .constant constant, _, _ => scan_constantCode constant
  | .this, _, h => Site.scan_pushThis (h .this (by simp [Term.subterms]))
  | .variable name, _, h => Site.scan_pushVariable (h (.variable name) (by simp [Term.subterms]))
  | .element array index, height, h => by
    rw [Term.subterms, List.forall_mem_cons] at h
    rw [Term.translate, scan_append, Site.scan_pushVariable h.1, Option.bind_some, scan_append,
      Expression.scan_translate h.2, Option.bind_some]
    exact scan_read_element
  | .call qualifier subroutine arguments, height, h => by
    rw [Term.subterms, List.forall_mem_cons] at h
    have hkind : qualifier = none → site.kind ≠ .function := by
      rintro rfl
      exact h.1
    obtain ⟨objects, hobject, hcall⟩ := Site.scan_pushObject hkind subroutine
    rw [Term.translate, scan_append, hobject, Option.bind_some, scan_append,
      Expression.scan_translateAll h.2, Option.bind_some]
    exact hcall _
  | .group inner, _, h => by
    rw [Term.subterms, List.forall_mem_cons] at h
    rw [Term.translate]
    exact Expression.scan_translate h.2
  | .unary op operand, _, h => by
    rw [Term.subterms, List.forall_mem_cons] at h
    rw [Term.translate, scan_append, Term.scan_translate h.2]
    exact scan_unaryInstr op
termination_by structural term => term

theorem Expression.scan_translate : ∀ {expression : Expression} {height : Nat},
    (∀ u ∈ expression.subterms, u.Allowed site.kind site.Declares) →
      scan height (expression.translate site) = some (height + 1)
  | .mk first rest, _, h => by
    rw [Expression.subterms, List.forall_mem_append] at h
    rw [Expression.translate, scan_append, Term.scan_translate h.1]
    exact Expression.scan_translateRest h.2
termination_by structural expression => expression

theorem Expression.scan_translateRest : ∀ {rest : List (Operator × Term)} {height : Nat},
    (∀ u ∈ Expression.subtermsRest rest, u.Allowed site.kind site.Declares) →
      scan (height + 1) (Expression.translateRest site rest) = some (height + 1)
  | [], _, _ => rfl
  | (op, operand) :: rest, _, h => by
    rw [Expression.subtermsRest, List.forall_mem_append] at h
    rw [Expression.translateRest, scan_append, Term.scan_translate h.1, Option.bind_some,
      scan_operatorInstr]
    exact Expression.scan_translateRest h.2
termination_by structural rest => rest

theorem Expression.scan_translateAll : ∀ {expressions : List Expression} {height : Nat},
    (∀ u ∈ Expression.subtermsAll expressions, u.Allowed site.kind site.Declares) →
      scan height (Expression.translateAll site expressions) = some (height + expressions.length)
  | [], _, _ => rfl
  | expression :: rest, height, h => by
    rw [Expression.subtermsAll, List.forall_mem_append] at h
    rw [Expression.translateAll, scan_append, Expression.scan_translate h.1, Option.bind_some,
      Expression.scan_translateAll h.2, List.length_cons]
    congr 1
    omega
termination_by structural expressions => expressions

end

end expressions

/-! ### Statements -/

section statements

variable {site : Site}

theorem scan_write_element : scan 2
    [.pop .temp 0, .pop .pointer 1, .push .temp 0, .pop .that 0] = some 0 := by decide

/-- A condition is taken from the stack by its test. -/
theorem Expression.scan_condition {condition : Expression} (name : String)
    (h : ∀ u ∈ condition.subterms, u.Allowed site.kind site.Declares) :
    scan 0 (condition.translate site ++ [.operate .not, .ifGoto name]) = some 0 := by
  rw [scan_append, Expression.scan_translate h]
  simp [scan, Admits, after, pops, pushes, isBoundary]

theorem scan_label (name : String) (code : List Instr) :
    scan 0 (.label name :: code) = scan 0 code := rfl

theorem scan_goto (name : String) (code : List Instr) :
    scan 0 (.goto name :: code) = scan 0 code := rfl

mutual

/-- The stack is empty before and behind a statement. -/
theorem Statement.scan_translate {subroutine : String} :
    ∀ {statement : Statement} {n : Numbering},
      (∀ u ∈ statement.substatements, u.Allowed site.kind site.Declares ∧
        ∀ v ∈ Expression.subtermsAll u.expressions, v.Allowed site.kind site.Declares) →
      scan 0 (statement.translate site subroutine n) = some 0
  | .assign target value, n, h => by
    rw [Statement.substatements, List.forall_mem_cons] at h
    obtain ⟨⟨htarget, hvalue⟩, -⟩ := h
    rw [Statement.expressions, Expression.subtermsAll_singleton] at hvalue
    rw [Statement.translate, scan_append, Expression.scan_translate hvalue]
    exact Site.scan_popVariable htarget
  | .assignElement array index value, n, h => by
    rw [Statement.substatements, List.forall_mem_cons] at h
    obtain ⟨⟨harray, hexpressions⟩, -⟩ := h
    simp only [Statement.expressions, Expression.subtermsAll, List.append_nil,
      List.forall_mem_append] at hexpressions
    have hadd (code : List Instr) : scan 2 (.operate .add :: code) = scan 1 code := rfl
    rw [Statement.translate, scan_append, Site.scan_pushVariable harray, Option.bind_some,
      scan_append, Expression.scan_translate hexpressions.1, Option.bind_some, hadd, scan_append,
      Expression.scan_translate hexpressions.2]
    exact scan_write_element
  | .ifThen condition body, n, h => by
    rw [Statement.substatements, List.forall_mem_cons] at h
    obtain ⟨⟨-, hcondition⟩, hbody⟩ := h
    rw [Statement.expressions, Expression.subtermsAll_singleton] at hcondition
    rw [Statement.translate, scan_append, scan_append, Expression.scan_condition _ hcondition,
      Option.bind_some, Statement.scan_translateAll hbody]
    rfl
  | .ifElse condition body alternative, n, h => by
    rw [Statement.substatements, List.forall_mem_cons, List.forall_mem_append] at h
    obtain ⟨⟨-, hcondition⟩, hbody, halternative⟩ := h
    rw [Statement.expressions, Expression.subtermsAll_singleton] at hcondition
    rw [Statement.translate, scan_append, scan_append, scan_append, scan_append,
      Expression.scan_condition _ hcondition, Option.bind_some, Statement.scan_translateAll hbody,
      Option.bind_some, scan_goto, scan_label, scan, Option.bind_some,
      Statement.scan_translateAll halternative]
    rfl
  | .while condition body, n, h => by
    rw [Statement.substatements, List.forall_mem_cons] at h
    obtain ⟨⟨-, hcondition⟩, hbody⟩ := h
    rw [Statement.expressions, Expression.subtermsAll_singleton] at hcondition
    rw [Statement.translate, List.append_assoc [_], scan_append, scan_append, List.singleton_append,
      scan_label, Expression.scan_condition _ hcondition, Option.bind_some,
      Statement.scan_translateAll hbody]
    rfl
  | .call qualifier subroutine' arguments, n, h => by
    rw [Statement.substatements, List.forall_mem_cons] at h
    obtain ⟨⟨hcall, harguments⟩, -⟩ := h
    have hterm : ∀ u ∈ (Term.call qualifier subroutine' arguments).subterms,
        u.Allowed site.kind site.Declares := by
      rw [Term.subterms, List.forall_mem_cons]
      refine ⟨?_, harguments⟩
      cases qualifier <;> exact hcall
    rw [Statement.translate, scan_append, Term.scan_translate hterm]
    exact scan_pop ..
  | .return none, n, _ => rfl
  | .return (some value), n, h => by
    rw [Statement.substatements, List.forall_mem_cons] at h
    obtain ⟨⟨-, hvalue⟩, -⟩ := h
    rw [Statement.expressions, Option.toList, Expression.subtermsAll_singleton] at hvalue
    rw [Statement.translate, scan_append, Expression.scan_translate hvalue]
    rfl
termination_by structural statement => statement

theorem Statement.scan_translateAll {subroutine : String} :
    ∀ {statements : List Statement} {n : Numbering},
      (∀ u ∈ Statement.substatementsAll statements, u.Allowed site.kind site.Declares ∧
        ∀ v ∈ Expression.subtermsAll u.expressions, v.Allowed site.kind site.Declares) →
      scan 0 (Statement.translateAll site subroutine n statements) = some 0
  | [], _, _ => rfl
  | statement :: rest, n, h => by
    rw [Statement.substatementsAll, List.forall_mem_append] at h
    rw [Statement.translateAll, scan_append, Statement.scan_translate h.1, Option.bind_some]
    exact Statement.scan_translateAll h.2
termination_by structural statements => statements

end

end statements

/-! ### Classes -/

theorem Subroutine.scan_prologue (fields : Nat) (s : Subroutine) :
    scan 0 (s.prologue fields) = some 0 := by
  unfold prologue
  cases s.kind <;> simp [scan, Admits, after, pops, pushes, isBoundary]

namespace Class

variable {c : Class} {s : Subroutine} {k : Nat}

theorem scan_block (h : s.Fits c) (k : Nat) : scan 0 (c.block k s) = some 0 := by
  have hfunction (name : String) (locals : Nat) (code : List Instr) :
      scan 0 (.function name locals :: code) = scan 0 code := rfl
  rw [block, hfunction, scan_append, Subroutine.scan_prologue, Option.bind_some]
  exact Statement.scan_translateAll h.body.allowed

/-- The block of a subroutine has heights. -/
theorem heights_block (h : s.Fits c) (k : Nat) :
    Heights (c.block k s) (heightAt (c.block k s)) :=
  heights_of_scan (scan_block h k) ⟨_, _, rfl⟩ (c.jumps_subset_labels_block k s)

/-- Whichever way the machine goes, a subroutine returns with one value on the stack. -/
theorem length_stack_of_return (hlabels : c.LabelsFit) (hs : c.subroutines[k]? = some s)
    (h : s.Fits c) {oracle : Oracle} {m m' : State} (hpc : m.pc = (c.blocks k).length + 1)
    (hsteps : Steps oracle c.translate m m') (hreturn : c.translate[m'.pc]? = some .return) :
    m'.stack.length = m.stack.length + 1 :=
  (heights_block h k).length_stack_of_return (isBlock_block hs) (nodup_labels_translate hlabels) hpc
    hsteps hreturn

end Class
end Syntax

namespace Compilation

/-- **Stack discipline.** The code of a source that compiles has a block for each subroutine, and
every block has heights. -/
theorem exists_heights {name source : String} {traced : Bool} {output : Output}
    (h : (ofText name source traced).outcome = .ok output) :
    ∃ compiled, compile (Line.ofText source) traced = .ok compiled ∧
      output.code = compiled.code.render ∧
      Code.ofText? output.code = some compiled.code.toList ∧
      ∃ c : Syntax.Class,
        (∀ c' : Syntax.Class, c'.tokens = (TokenStream.ofText source).texts ↔ c' = c) ∧
        (∀ k s, c.subroutines[k]? = some s →
          ∃ line block, Syntax.IsBlock compiled.code.toList line block ∧
            (compiled.code.toList.take line).countP Syntax.isFunction = k) ∧
        (c.CallsFit → ∀ line block, Syntax.IsBlock compiled.code.toList line block →
          ∃ height, Heights block height) := by
  obtain ⟨compiled, hcompile, hcode, htext⟩ := exists_compiled h
  obtain ⟨c, hc, hvalid, -, htranslate⟩ := compile_sound_capped hcompile
  refine ⟨compiled, hcompile, hcode, htext, c, hc, ?_, ?_⟩ <;> rw [htranslate]
  · exact fun k s hs => ⟨_, _, Syntax.Class.isBlock_map_capped hs⟩
  · intro hfit line block hblock
    rw [hfit.map_capped_translate] at hblock
    obtain ⟨k, s, hs, -, rfl⟩ := Syntax.Class.exists_of_isBlock hblock
    have hthis : .identifier "this" ∉ c.tokens := (hc c).2 rfl ▸ identifier_this_notMem
    have hfits : c.Fits := (Syntax.Class.fits_iff_valid hthis).2 hvalid
    exact ⟨_, Syntax.Class.heights_block (hfits.subroutines s (List.mem_of_getElem? hs)) k⟩

theorem exists_heights_counter : ∃ output code line block height,
    (ofText "Counter" Syntax.Counter.source false).outcome = .ok output ∧
      Code.ofText? output.code = some code ∧ Syntax.IsBlock code line block ∧
      Heights block height := by
  obtain ⟨output, h⟩ := Syntax.Counter.exists_output
  obtain ⟨compiled, -, -, htext, c, hc, hblocks, hheights⟩ := exists_heights h
  obtain rfl := (hc _).1 Syntax.Counter.tokens_tree
  obtain ⟨line, block, hblock, -⟩ := hblocks 0 _ rfl
  obtain ⟨height, hheight⟩ := hheights (by decide) line block hblock
  exact ⟨output, _, line, block, height, h, htext, hblock, hheight⟩

end Compilation
end JackLang
