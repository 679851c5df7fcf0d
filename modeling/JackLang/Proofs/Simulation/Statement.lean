import JackLang.Proofs.Simulation.Expression
import JackLang.Proofs.Syntax.Labels

/-! The code of a statement does what the statement does. It runs to its end, or to a `return` with
the value on top of the stack where the statement returns (`Statement.ExecAll.completes`). The
induction is on the execution of the statement, so that a loop may run any number of times. -/

namespace JackLang

open Machine

namespace Syntax

/-! ### The current object of a method -/

/-- The first argument of a method has no other name than `this`. -/
def Site.ReceivesThis (site : Site) : Prop :=
  site.kind = .method → ∀ name v, site.find? name = some v → v.kind = .argument → v.index = 0 →
    name = "this"

theorem Context.Agrees.write {ctx : Context} {frame : Frame} {g : Globals} {name : String}
    {v : Variable} {x : Word} (h : ctx.Agrees frame) (hsite : ctx.site.ReceivesThis)
    (hname : name ≠ "this") (hfind : ctx.site.find? name = some v) :
    ctx.Agrees (v.write ctx.object ⟨frame, g⟩ x).frame := by
  intro hkind
  have hv := hsite hkind name v hfind
  rw [Variable.write]
  cases hvariable : v.kind with
  | argument =>
    have hne : 0 ≠ v.index := fun heq => hname (hv hvariable heq.symm)
    simpa [Store.setArgument, Function.update_of_ne hne] using h hkind
  | «local» | static | field => exact h hkind

section tokens

variable {t : Token} {condition : Expression} {body alternative : List Statement}

theorem Statement.notMem_of_ifThen (h : t ∉ (Statement.ifThen condition body).tokens) :
    t ∉ Statement.tokensAll body := fun hmem => h (by simp [Statement.tokens, inBraces, hmem])

theorem Statement.notMem_of_ifElse
    (h : t ∉ (Statement.ifElse condition body alternative).tokens) :
    t ∉ Statement.tokensAll body ∧ t ∉ Statement.tokensAll alternative :=
  ⟨fun hmem => h (by simp [Statement.tokens, inBraces, hmem]),
    fun hmem => h (by simp [Statement.tokens, inBraces, hmem])⟩

theorem Statement.notMem_of_while (h : t ∉ (Statement.while condition body).tokens) :
    t ∉ Statement.tokensAll body := fun hmem => h (by simp [Statement.tokens, inBraces, hmem])

end tokens

mutual

/-- Statements as they can be written leave the first argument of a method as it is. -/
theorem Statement.Exec.agrees {ctx : Context} (hsite : ctx.site.ReceivesThis) :
    ∀ {statement : Statement} {σ σ' : Store} {o : Completion},
      Statement.Exec ctx statement σ o σ' → .identifier "this" ∉ statement.tokens →
        ctx.Agrees σ.frame → ctx.Agrees σ'.frame
  | _, _, _, _, .assign _ hfind, hthis, h =>
    h.write hsite (fun heq => hthis (by simp [Statement.tokens, heq])) hfind
  | _, _, _, _, .assignElement .., _, h => h
  | _, _, _, _, .ifThen_true _ hbody, hthis, h =>
    Statement.ExecAll.agrees hsite hbody (Statement.notMem_of_ifThen hthis) h
  | _, _, _, _, .ifThen_false .., _, h => h
  | _, _, _, _, .ifElse_true _ hbody, hthis, h =>
    Statement.ExecAll.agrees hsite hbody (Statement.notMem_of_ifElse hthis).1 h
  | _, _, _, _, .ifElse_false _ _ halternative, hthis, h =>
    Statement.ExecAll.agrees hsite halternative (Statement.notMem_of_ifElse hthis).2 h
  | _, _, _, _, .while_true _ hbody hagain, hthis, h =>
    Statement.Exec.agrees hsite hagain hthis
      (Statement.ExecAll.agrees hsite hbody (Statement.notMem_of_while hthis) h)
  | _, _, _, _, .while_return _ hbody, hthis, h =>
    Statement.ExecAll.agrees hsite hbody (Statement.notMem_of_while hthis) h
  | _, _, _, _, .while_false .., _, h => h
  | _, _, _, _, .call .., _, h => h
  | _, _, _, _, .return_none, _, h => h
  | _, _, _, _, .return_some .., _, h => h
termination_by structural _ _ _ _ h => h

theorem Statement.ExecAll.agrees {ctx : Context} (hsite : ctx.site.ReceivesThis) :
    ∀ {statements : List Statement} {σ σ' : Store} {o : Completion},
      Statement.ExecAll ctx statements σ o σ' → .identifier "this" ∉ Statement.tokensAll statements →
        ctx.Agrees σ.frame → ctx.Agrees σ'.frame
  | _, _, _, _, .nil, _, h => h
  | _, _, _, _, .cons hstatement hrest, hthis, h => by
    rw [Statement.tokensAll, List.mem_append, not_or] at hthis
    exact Statement.ExecAll.agrees hsite hrest hthis.2
      (Statement.Exec.agrees hsite hstatement hthis.1 h)
  | _, _, _, _, .return hstatement, hthis, h => by
    rw [Statement.tokensAll, List.mem_append, not_or] at hthis
    exact Statement.Exec.agrees hsite hstatement hthis.1 h
termination_by structural _ _ _ _ h => h

end

/-! ### Completion -/

/-- The machine comes to a line, or to a `return` with the value on top of the stack. -/
def Completes (oracle : Oracle) (code : List Instr) (m : State) (pc : Nat) (stack : List Word)
    (o : Completion) (σ : Store) : Prop :=
  match o with
  | .finished => Reaches oracle code m pc stack σ
  | .returned x => ∃ pc', code[pc']? = some .return ∧ Reaches oracle code m pc' (x :: stack) σ

variable {oracle : Oracle} {code : List Instr} {m : State} {pc pc' : Nat}
  {stack stack' : List Word} {o : Completion} {σ σ' : Store}

theorem Completes.of_reaches (h : Reaches oracle code m pc stack σ)
    (h' : ∀ that temp,
      Completes oracle code ⟨pc, stack, σ, m.this, that, temp⟩ pc' stack' o σ') :
    Completes oracle code m pc' stack' o σ' := by
  cases o with
  | finished => exact h.trans h'
  | returned x =>
    obtain ⟨that, temp, hsteps⟩ := h
    obtain ⟨pc'', hreturn, that', temp', hsteps'⟩ := h' that temp
    exact ⟨pc'', hreturn, that', temp', hsteps.trans hsteps'⟩

/-- What is behind some code only matters where the code comes to its end. -/
theorem Completes.trans (h : Completes oracle code m pc stack o σ)
    (h' : ∀ that temp, Reaches oracle code ⟨pc, stack, σ, m.this, that, temp⟩ pc' stack σ) :
    Completes oracle code m pc' stack o σ := by
  cases o with
  | finished => exact Reaches.trans h h'
  | returned x => exact h

/-! ### Conditions -/

section conditions

variable {ctx : Context} {condition : Expression} {frame : Frame} {g g' : Globals} {x that : Word}
  {temp : Nat → Word} {name : String}

/-- The code that jumps unless a condition is -1. -/
def Expression.test (site : Site) (name : String) (condition : Expression) : List Instr :=
  condition.translate site ++ [.operate .not, .ifGoto name]

/-- Behind the test of a condition that is -1 the machine goes on with the next line. -/
theorem Expression.reaches_of_true (h : ctx.Agrees frame)
    (heval : condition.eval ctx frame g = some (-1, g'))
    (hat : At code pc (condition.test ctx.site name)) :
    Reaches ctx.oracle code ⟨pc, stack, ⟨frame, g⟩, ctx.object, that, temp⟩
      (pc + (condition.test ctx.site name).length) stack ⟨frame, g'⟩ := by
  rw [test, at_append_iff] at hat
  rw [test, List.length_append, ← Nat.add_assoc]
  exact (Expression.runs_translate h heval _ _ _ hat.1).trans
    fun _ _ => .not_ifGoto_neg_one hat.2

theorem Expression.reaches_of_false (hcode : (labels code).Nodup) (h : ctx.Agrees frame)
    (heval : condition.eval ctx frame g = some (x, g')) (hne : x ≠ -1)
    (hat : At code pc (condition.test ctx.site name))
    (hlabel : code[pc']? = some (.label name)) :
    Reaches ctx.oracle code ⟨pc, stack, ⟨frame, g⟩, ctx.object, that, temp⟩ pc' stack
      ⟨frame, g'⟩ := by
  rw [test, at_append_iff] at hat
  exact (Expression.runs_translate h heval _ _ _ hat.1).trans
    fun _ _ => .not_ifGoto hcode hat.2 hne hlabel

end conditions

/-! ### The parts of a statement -/

section parts

variable {site : Site} {subroutine : String} {n : Numbering} {condition : Expression}
  {body alternative : List Statement}

theorem Statement.at_ifThen
    (h : At code pc ((Statement.ifThen condition body).translate site subroutine n)) :
    ∃ name start stop, pc + (condition.test site name).length = start ∧
      start + (Statement.translateAll site subroutine (n.succ .if) body).length = stop ∧
      pc + ((Statement.ifThen condition body).translate site subroutine n).length = stop + 1 ∧
      At code pc (condition.test site name) ∧
      At code start (Statement.translateAll site subroutine (n.succ .if) body) ∧
      code[stop]? = some (.label name) := by
  rw [Statement.translate, ← Expression.test, at_append_iff, at_append_iff, at_singleton_iff,
    List.length_append, ← Nat.add_assoc] at h
  refine ⟨_, _, _, rfl, rfl, ?_, h.1.1, h.1.2, h.2⟩
  simp only [Statement.translate, Expression.test, List.length_append, List.length_singleton,
    Nat.add_assoc]

theorem Statement.at_ifElse
    (h : At code pc ((Statement.ifElse condition body alternative).translate site subroutine n)) :
    ∃ name done start stop start' stop', pc + (condition.test site name).length = start ∧
      start + (Statement.translateAll site subroutine (n.succ .if) body).length = stop ∧
      stop + 2 = start' ∧
      start' + (Statement.translateAll site subroutine ((n.succ .if).behind body)
        alternative).length = stop' ∧
      pc + ((Statement.ifElse condition body alternative).translate site subroutine n).length =
        stop' + 1 ∧
      At code pc (condition.test site name) ∧
      At code start (Statement.translateAll site subroutine (n.succ .if) body) ∧
      At code stop [.goto done, .label name] ∧
      At code start'
        (Statement.translateAll site subroutine ((n.succ .if).behind body) alternative) ∧
      code[stop']? = some (.label done) := by
  rw [Statement.translate, ← Expression.test, at_append_iff, at_append_iff, at_append_iff,
    at_append_iff, at_singleton_iff] at h
  simp only [List.length_append, List.length_cons, List.length_nil, Nat.zero_add, Nat.reduceAdd,
    ← Nat.add_assoc] at h
  obtain ⟨⟨⟨⟨htest, hbody⟩, hgoto⟩, halternative⟩, hdone⟩ := h
  refine ⟨_, _, _, _, _, _, rfl, rfl, rfl, rfl, ?_, htest, hbody, hgoto, halternative, hdone⟩
  simp only [Statement.translate, Expression.test, List.length_append, List.length_cons,
    List.length_nil, Nat.zero_add, Nat.reduceAdd, Nat.add_assoc]

theorem Statement.at_while
    (h : At code pc ((Statement.while condition body).translate site subroutine n)) :
    ∃ again done start stop, pc + 1 + (condition.test site done).length = start ∧
      start + (Statement.translateAll site subroutine (n.succ .while) body).length = stop ∧
      pc + ((Statement.while condition body).translate site subroutine n).length = stop + 2 ∧
      code[pc]? = some (.label again) ∧ At code (pc + 1) (condition.test site done) ∧
      At code start (Statement.translateAll site subroutine (n.succ .while) body) ∧
      At code stop [.goto again, .label done] := by
  rw [Statement.translate, List.append_assoc [_], ← Expression.test, at_append_iff, at_append_iff,
    at_append_iff, at_singleton_iff] at h
  simp only [List.length_append, List.length_cons, List.length_nil, Nat.zero_add,
    ← Nat.add_assoc] at h
  obtain ⟨⟨⟨hlabel, htest⟩, hbody⟩, hgoto⟩ := h
  refine ⟨_, _, _, _, rfl, rfl, ?_, hlabel, htest, hbody, hgoto⟩
  simp only [Statement.translate, Expression.test, List.length_append, List.length_cons,
    List.length_nil, Nat.zero_add, Nat.reduceAdd, Nat.add_assoc]

end parts

/-! ### Statements -/

mutual

theorem Statement.Exec.completes {ctx : Context} (hcode : (labels code).Nodup)
    (hsite : ctx.site.ReceivesThis) : ∀ {statement : Statement} {σ σ' : Store} {o : Completion},
      Statement.Exec ctx statement σ o σ' → .identifier "this" ∉ statement.tokens →
        ctx.Agrees σ.frame → ∀ {subroutine n pc stack that temp},
          At code pc (statement.translate ctx.site subroutine n) →
            Completes ctx.oracle code ⟨pc, stack, σ, ctx.object, that, temp⟩
              (pc + (statement.translate ctx.site subroutine n).length) stack o σ'
  | _, _, _, _, .assign hvalue hfind, _, h, _, _, _, _, _, _, hat => by
    rw [Statement.translate] at hat ⊢
    exact (Runs.append (Expression.runs_translate h hvalue) (Context.runs_popVariable hfind))
      _ _ _ hat
  | _, _, _, _, .assignElement hbase hindex hvalue, _, h, _, _, _, _, _, _, hat => by
    rw [Statement.translate] at hat ⊢
    exact (Runs.append (Context.runs_pushVariable hbase)
      (.append (Expression.runs_translate h hindex)
        (.cons (.operate rfl) (.append (Expression.runs_translate h hvalue) .write_element))))
      _ _ _ hat
  | _, _, _, _, .ifThen_true hcondition hbody, hthis, h, _, _, _, _, _, _, hat => by
    obtain ⟨name, _, _, rfl, rfl, hstop, htest, hbodyAt, hlabel⟩ := Statement.at_ifThen hat
    rw [hstop]
    refine .of_reaches (Expression.reaches_of_true h hcondition htest) fun _ _ => ?_
    exact (Statement.ExecAll.completes hcode hsite hbody (Statement.notMem_of_ifThen hthis) h
      hbodyAt).trans fun _ _ => .label hlabel
  | _, _, _, _, .ifThen_false hcondition hne, _, h, _, _, _, _, _, _, hat => by
    obtain ⟨name, _, _, rfl, rfl, hstop, htest, -, hlabel⟩ := Statement.at_ifThen hat
    rw [hstop]
    refine .of_reaches (Expression.reaches_of_false hcode h hcondition hne htest hlabel)
      fun _ _ => ?_
    exact Reaches.label hlabel
  | _, _, _, _, .ifElse_true hcondition hbody, hthis, h, _, _, _, _, _, _, hat => by
    obtain ⟨name, done, _, _, _, _, rfl, rfl, rfl, rfl, hstop, htest, hbodyAt, hgoto, -, hdone⟩ :=
      Statement.at_ifElse hat
    rw [at_cons_iff] at hgoto
    rw [hstop]
    refine .of_reaches (Expression.reaches_of_true h hcondition htest) fun _ _ => ?_
    refine (Statement.ExecAll.completes hcode hsite hbody (Statement.notMem_of_ifElse hthis).1 h
      hbodyAt).trans fun _ _ => ?_
    exact (Reaches.goto hcode hgoto.1 hdone).trans fun _ _ => .label hdone
  | _, _, _, _, .ifElse_false hcondition hne halternative, hthis, h, _, _, _, _, _, _, hat => by
    obtain ⟨name, done, _, _, _, _, rfl, rfl, rfl, rfl, hstop, htest, -, hgoto, halternativeAt,
      hdone⟩ := Statement.at_ifElse hat
    rw [at_cons_iff, at_singleton_iff] at hgoto
    rw [hstop]
    refine .of_reaches (Expression.reaches_of_false hcode h hcondition hne htest hgoto.2)
      fun _ _ => ?_
    refine .of_reaches (.label hgoto.2) fun _ _ => ?_
    exact (Statement.ExecAll.completes hcode hsite halternative (Statement.notMem_of_ifElse hthis).2
      h halternativeAt).trans fun _ _ => .label hdone
  | _, _, _, _, .while_true hcondition hbody hagain, hthis, h, _, _, _, _, _, _, hat => by
    obtain ⟨again, done, _, _, rfl, rfl, -, hlabel, htest, hbodyAt, hgoto⟩ := Statement.at_while hat
    rw [at_cons_iff] at hgoto
    have hbodyThis := Statement.notMem_of_while hthis
    refine .of_reaches (.label hlabel) fun _ _ => ?_
    refine .of_reaches (Expression.reaches_of_true h hcondition htest) fun _ _ => ?_
    refine .of_reaches (Statement.ExecAll.completes hcode hsite hbody hbodyThis h hbodyAt)
      fun _ _ => ?_
    refine .of_reaches (.goto hcode hgoto.1 hlabel) fun _ _ => ?_
    exact Statement.Exec.completes hcode hsite hagain hthis
      (Statement.ExecAll.agrees hsite hbody hbodyThis h) hat
  | _, _, _, _, .while_return hcondition hbody, hthis, h, _, _, _, _, _, _, hat => by
    obtain ⟨again, done, _, _, rfl, rfl, -, hlabel, htest, hbodyAt, -⟩ := Statement.at_while hat
    refine .of_reaches (.label hlabel) fun _ _ => ?_
    refine .of_reaches (Expression.reaches_of_true h hcondition htest) fun _ _ => ?_
    exact Statement.ExecAll.completes hcode hsite hbody (Statement.notMem_of_while hthis) h hbodyAt
  | _, _, _, _, .while_false hcondition hne, _, h, _, _, _, _, _, _, hat => by
    obtain ⟨again, done, _, _, rfl, rfl, hstop, hlabel, htest, -, hgoto⟩ := Statement.at_while hat
    rw [at_cons_iff, at_singleton_iff] at hgoto
    rw [hstop]
    refine .of_reaches (.label hlabel) fun _ _ => ?_
    refine .of_reaches (Expression.reaches_of_false hcode h hcondition hne htest hgoto.2)
      fun _ _ => ?_
    exact Reaches.label hgoto.2
  | _, _, _, _, .call hcall, _, h, _, _, _, _, _, _, hat => by
    rw [Statement.translate] at hat ⊢
    exact (Runs.append (Term.runs_translate h hcall) .pop_temp) _ _ _ hat
  | _, _, _, _, .return_none, _, _, _, _, _, _, _, _, hat => by
    rw [Statement.translate, at_cons_iff, at_singleton_iff] at hat
    exact ⟨_, hat.2, Runs.push_constant 0 _ _ _ (at_singleton_iff.2 hat.1)⟩
  | _, _, _, _, .return_some hvalue, _, h, _, _, _, _, _, _, hat => by
    rw [Statement.translate, at_append_iff, at_singleton_iff] at hat
    exact ⟨_, hat.2, Expression.runs_translate h hvalue _ _ _ hat.1⟩
termination_by structural _ _ _ _ h => h

theorem Statement.ExecAll.completes {ctx : Context} (hcode : (labels code).Nodup)
    (hsite : ctx.site.ReceivesThis) :
    ∀ {statements : List Statement} {σ σ' : Store} {o : Completion},
      Statement.ExecAll ctx statements σ o σ' → .identifier "this" ∉ Statement.tokensAll statements →
        ctx.Agrees σ.frame → ∀ {subroutine n pc stack that temp},
          At code pc (Statement.translateAll ctx.site subroutine n statements) →
            Completes ctx.oracle code ⟨pc, stack, σ, ctx.object, that, temp⟩
              (pc + (Statement.translateAll ctx.site subroutine n statements).length) stack o σ'
  | _, _, _, _, .nil, _, _, _, _, _, _, _, _, _ => .refl _
  | _, _, _, _, .cons hstatement hrest, hthis, h, _, _, _, _, _, _, hat => by
    rw [Statement.tokensAll, List.mem_append, not_or] at hthis
    rw [Statement.translateAll, at_append_iff] at hat
    rw [Statement.translateAll, List.length_append, ← Nat.add_assoc]
    refine .of_reaches (Statement.Exec.completes hcode hsite hstatement hthis.1 h hat.1) ?_
    exact fun _ _ => Statement.ExecAll.completes hcode hsite hrest hthis.2
      (Statement.Exec.agrees hsite hstatement hthis.1 h) hat.2
  | _, _, _, _, .return hstatement, hthis, h, _, _, _, _, _, _, hat => by
    rw [Statement.tokensAll, List.mem_append, not_or] at hthis
    rw [Statement.translateAll, at_append_iff] at hat
    exact Statement.Exec.completes hcode hsite hstatement hthis.1 h hat.1
termination_by structural _ _ _ _ h => h

end

end Syntax
end JackLang
