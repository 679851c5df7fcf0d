import JackLang.Limits
import JackLang.Proofs.Syntax.Origin

/-! The counts of calls. An instruction counts up to `maxCount` values, so what is written for a call
is cut off there (`capped`). Where the arguments of every call fit, nothing is
(`Class.CallsFit.map_capped_translate`). -/

namespace JackLang.Syntax

variable {site : Site} {subroutine : String}

/-! ### Instructions -/

/-- An instruction as it can be written: a call counts up to `maxCount` values. -/
def capped : Instr → Instr
  | .call name n => .call name (min n maxCount)
  | instr => instr

@[simp] theorem capped_push (segment : Segment) (i : Nat) :
    capped (.push segment i) = .push segment i := rfl

@[simp] theorem capped_pop (segment : Segment) (i : Nat) :
    capped (.pop segment i) = .pop segment i := rfl

@[simp] theorem capped_operate (operation : Operation) :
    capped (.operate operation) = .operate operation := rfl

@[simp] theorem capped_label (name : String) : capped (.label name) = .label name := rfl

@[simp] theorem capped_goto (name : String) : capped (.goto name) = .goto name := rfl

@[simp] theorem capped_ifGoto (name : String) : capped (.ifGoto name) = .ifGoto name := rfl

@[simp] theorem capped_function (name : String) (locals : Nat) :
    capped (.function name locals) = .function name locals := rfl

@[simp] theorem capped_return : capped .return = .return := rfl

theorem capped_call (name : String) {n : Nat} (h : n ≤ maxCount) :
    capped (.call name n) = .call name n := by
  rw [capped, Nat.min_eq_left h]

@[simp] theorem Site.map_capped_pushVariable (site : Site) (name : String) :
    (site.pushVariable name).map capped = site.pushVariable name := by
  rw [pushVariable, List.map_map]
  rfl

@[simp] theorem Site.map_capped_popVariable (site : Site) (name : String) :
    (site.popVariable name).map capped = site.popVariable name := by
  rw [popVariable, List.map_map]
  rfl

@[simp] theorem Site.map_capped_pushThis (site : Site) :
    site.pushThis.map capped = site.pushThis := by
  rw [pushThis]
  cases site.kind <;> rfl

@[simp] theorem Site.map_capped_pushObject (site : Site) (qualifier : Option String) :
    (site.pushObject qualifier).map capped = site.pushObject qualifier := by
  cases qualifier with
  | none => exact site.map_capped_pushThis
  | some qualifier => exact site.map_capped_pushVariable qualifier

theorem Site.capped_callInstr (site : Site) (subroutine : String) {arguments : Nat}
    (h : arguments < maxCount) (qualifier : Option String) :
    capped (site.callInstr subroutine arguments qualifier) =
      site.callInstr subroutine arguments qualifier := by
  unfold callInstr
  split
  · exact capped_call _ h
  · split
    · exact capped_call _ h
    · exact capped_call _ (Nat.le_of_lt h)

/-! ### Expressions -/

@[simp] theorem capped_operatorInstr (op : Operator) :
    capped (operatorInstr op) = operatorInstr op := by
  cases op <;> rfl

@[simp] theorem capped_unaryInstr (op : UnaryOperator) :
    capped (unaryInstr op) = unaryInstr op := by
  cases op <;> rfl

@[simp] theorem map_capped_constantCode (constant : Constant) :
    (constantCode constant).map capped = constantCode constant := by
  cases constant <;> rfl

theorem map_capped_eq_self_iff {code : List Instr} :
    code.map capped = code ↔ ∀ instr ∈ code, capped instr = instr := by
  conv_lhs => rhs; rw [← List.map_id code]
  exact List.map_inj_left

@[simp] theorem map_capped_stringCode (text : String) :
    (stringCode text).map capped = stringCode text := by
  rw [map_capped_eq_self_iff]
  intro instr hinstr
  simp only [stringCode, List.mem_cons, List.mem_flatMap, List.not_mem_nil, or_false] at hinstr
  rcases hinstr with rfl | rfl | ⟨_, -, rfl | rfl⟩ <;> rfl

theorem Term.map_capped_own {u : Term} (h : u.CallFits) : (u.own site).map capped = u.own site := by
  cases u with
  | call qualifier subroutine arguments => simp [Term.own, site.capped_callInstr subroutine h]
  | _ => simp [Term.own]

theorem Stems.capped_eq {terms : List Term} {instr : Instr} (h : Stems site terms instr)
    (hfit : ∀ u ∈ terms, u.CallFits) : capped instr = instr := by
  rcases h with ⟨op, rfl⟩ | ⟨u, hu, hinstr⟩
  · exact capped_operatorInstr op
  · exact map_capped_eq_self_iff.1 (Term.map_capped_own (hfit u hu)) instr hinstr

theorem Expression.map_capped_translateAll (es : List Expression)
    (h : ∀ u ∈ Expression.subtermsAll es, u.CallFits) :
    (Expression.translateAll site es).map capped = Expression.translateAll site es :=
  map_capped_eq_self_iff.2 fun _ hinstr => (Expression.stems_of_mem_translateAll hinstr).capped_eq h

/-! ### Statements -/

/-- The calls of a statement itself fit. -/
def Statement.CallsFit (s : Statement) : Prop :=
  s.CallFits ∧ ∀ t ∈ Expression.subtermsAll s.expressions, t.CallFits

theorem Statement.map_capped_own {u : Statement} (h : u.CallFits) (n : Numbering) :
    (u.own site subroutine n).map capped = u.own site subroutine n := by
  cases u with
  | call qualifier subroutine' arguments =>
    have hcall : (Term.call qualifier subroutine' arguments).CallFits := h
    simp [Statement.own, Term.map_capped_own hcall]
  | «return» value => cases value <;> rfl
  | _ => simp [Statement.own]

theorem Statement.map_capped_translateAll (n : Numbering) (ss : List Statement)
    (h : ∀ u ∈ Statement.substatementsAll ss, u.CallsFit) :
    (Statement.translateAll site subroutine n ss).map capped =
      Statement.translateAll site subroutine n ss := by
  rw [map_capped_eq_self_iff]
  intro instr hinstr
  obtain ⟨u, hu, ⟨n, hown⟩ | hstems⟩ := Statement.exists_stems_of_mem_translateAll hinstr
  · exact map_capped_eq_self_iff.1 (Statement.map_capped_own (h u hu).1 n) instr hown
  · exact hstems.capped_eq (h u hu).2

/-! ### Classes -/

theorem Subroutine.CallsFit.fits {s : Subroutine} (h : s.CallsFit) :
    ∀ u ∈ Statement.substatementsAll s.body, u.CallsFit := fun u hu =>
  ⟨h.statements u hu, fun t ht => h.terms t (List.mem_flatMap.2 ⟨u, hu, ht⟩)⟩

@[simp] theorem Subroutine.map_capped_prologue (fields : Nat) (s : Subroutine) :
    (s.prologue fields).map capped = s.prologue fields := by
  rw [prologue]
  cases s.kind <;> rfl

theorem Class.map_capped_block {s : Subroutine} (h : s.CallsFit) (c : Class) (k : Nat) :
    (c.block k s).map capped = c.block k s := by
  simp [block, Statement.map_capped_translateAll _ s.body h.fits]

/-- Where instructions can count the arguments, nothing is cut off. -/
theorem Class.CallsFit.map_capped_translate {c : Class} (h : c.CallsFit) :
    c.translate.map capped = c.translate := by
  rw [map_capped_eq_self_iff]
  intro instr hinstr
  obtain ⟨block, hblock, hmem⟩ := List.mem_flatten.1 hinstr
  obtain ⟨k, hk, rfl⟩ := List.mem_mapIdx.1 hblock
  exact map_capped_eq_self_iff.1 (map_capped_block (h _ (List.getElem_mem hk)) c k) instr hmem

end JackLang.Syntax
