import JackLang.Proofs.Machine.Runs
import JackLang.Proofs.Semantics

/-! The code of an expression runs to its value. Wherever the code stands, it leaves the value on
top of the stack and what is shared as the evaluation does (`Expression.runs_translate`); the
variables of the subroutine are not touched. -/

namespace JackLang

open Machine

namespace Syntax

variable {code : List Instr} {ctx : Context} {frame : Frame} {stack : List Word} {σ σ' : Store}
  {g g' : Globals} {x y z : Word} {name : String}

/-! ### Variables -/

theorem load?_cell (m : State) (v : Variable) :
    m.load? (cell v).1 (cell v).2 = some (v.read m.this m.store) := by
  rw [cell, Variable.read]
  cases v.kind <;> rfl

theorem save?_cell (m : State) (v : Variable) (x : Word) : m.save? x (cell v).1 (cell v).2 =
    some { m with store := v.write m.this m.store x } := by
  rw [cell, Variable.write]
  cases v.kind <;> rfl

theorem Context.runs_pushVariable (h : ctx.value? name σ = some x) :
    Runs ctx.oracle code ctx.object (ctx.site.pushVariable name) stack σ (x :: stack) σ := by
  obtain ⟨v, hfind, rfl⟩ := Option.map_eq_some_iff.1 h
  rw [Site.pushVariable, hfind]
  exact .push fun _ _ _ => load?_cell _ v

theorem Context.runs_popVariable {v : Variable} (h : ctx.site.find? name = some v) :
    Runs ctx.oracle code ctx.object (ctx.site.popVariable name) (x :: stack) σ stack
      (v.write ctx.object σ x) := by
  rw [Site.popVariable, h]
  exact .pop fun _ _ _ => save?_cell _ v x

/-- In a method the current object is the first argument. -/
def Context.Agrees (ctx : Context) (frame : Frame) : Prop :=
  ctx.site.kind = .method → frame.arguments 0 = ctx.object

theorem Context.runs_pushThis (hctx : ctx.Agrees σ.frame) (h : ctx.current? = some x) :
    Runs ctx.oracle code ctx.object ctx.site.pushThis stack σ (x :: stack) σ := by
  rw [current?] at h
  rw [Site.pushThis]
  cases hkind : ctx.site.kind with
  | constructor =>
    rw [hkind] at h
    cases h
    exact .push fun _ _ _ => rfl
  | method =>
    rw [hkind] at h
    cases h
    rw [← hctx hkind]
    exact .push fun _ _ _ => rfl
  | function =>
    rw [hkind] at h
    cases h

/-! ### Calls -/

theorem runs_answer {oracle : Oracle} {this : Word} {arguments : List Word} {n : Nat}
    (hn : arguments.length = n) (h : oracle.answer name arguments g = some (x, g')) :
    Runs oracle code this [.call name n] (arguments.reverse ++ stack) ⟨frame, g⟩ (x :: stack)
      ⟨frame, g'⟩ := by
  obtain ⟨response, hresponse, heq⟩ := Option.map_eq_some_iff.1 h
  cases heq
  exact .call hn hresponse

/-- The object of a call goes below its arguments, and the instruction counts it. -/
theorem Context.runs_pushObject {subroutine callee : String} {qualifier : Option String}
    {object : List Word} (h : ctx.callee? subroutine σ qualifier = some (callee, object))
    (hctx : ctx.Agrees σ.frame) :
    Runs ctx.oracle code ctx.object (ctx.site.pushObject qualifier) stack σ
        (object.reverse ++ stack) σ ∧
      ∀ n, ctx.site.callInstr subroutine n qualifier = .call callee (n + object.length) := by
  cases qualifier with
  | none =>
    obtain ⟨x, hx, heq⟩ := Option.map_eq_some_iff.1 h
    cases heq
    exact ⟨runs_pushThis hctx hx, fun _ => rfl⟩
  | some qualifier =>
    rw [callee?] at h
    cases hfind : ctx.site.find? qualifier with
    | some v =>
      rw [hfind] at h
      cases h
      refine ⟨runs_pushVariable (by rw [value?, hfind, Option.map_some]), fun n => ?_⟩
      simp [Site.callInstr, hfind]
    | none =>
      rw [hfind] at h
      cases h
      refine ⟨?_, fun n => ?_⟩
      · simp only [Site.pushObject, Site.pushVariable, hfind]
        exact .nil
      · simp [Site.callInstr, hfind]

/-! ### Operators and constants -/

theorem runs_operatorInstr {oracle : Oracle} {this : Word} {op : Operator}
    (h : operatorValue oracle op x y g = some (z, g')) :
    Runs oracle code this [operatorInstr op] (y :: x :: stack) ⟨frame, g⟩ (z :: stack)
      ⟨frame, g'⟩ := by
  cases op with
  | multiply | divide => exact runs_answer (show [x, y].length = 2 from rfl) h
  | _ =>
    cases h
    exact .operate rfl

theorem runs_unaryInstr {oracle : Oracle} {this : Word} (op : UnaryOperator) :
    Runs oracle code this [unaryInstr op] (x :: stack) σ (unaryValue op x :: stack) σ := by
  cases op <;> exact .operate rfl

theorem runs_constantCode {oracle : Oracle} {this : Word} (constant : Constant) :
    Runs oracle code this (constantCode constant) stack σ (constantValue constant :: stack) σ := by
  cases constant with
  | true => exact (Runs.push_constant 1).cons (.operate rfl)
  | false | null => exact .push_constant 0

/-- The characters of a string are appended one by one. -/
theorem runs_appendChars {oracle : Oracle} {this : Word} : ∀ {chars : List Char} {x y : Word}
    {g g' : Globals},
    chars.foldlM (fun (string, g) c =>
      oracle.answer "String.appendChar" [string, .ofNat 16 c.toNat] g) (x, g) = some (y, g') →
    Runs oracle code this
      (chars.flatMap fun c => [.push .constant c.toNat, .call "String.appendChar" 2])
      (x :: stack) ⟨frame, g⟩ (y :: stack) ⟨frame, g'⟩
  | [], _, _, _, _, h => by
    cases h
    exact .nil
  | c :: chars, x, y, g, g', h => by
    rw [List.foldlM_cons, Option.bind_eq_bind, Option.bind_eq_some_iff] at h
    obtain ⟨⟨x', g₁⟩, hchar, hchars⟩ := h
    refine .append ((Runs.push_constant c.toNat).cons ?_) (runs_appendChars hchars)
    exact runs_answer (show [x, _].length = 2 from rfl) hchar

theorem runs_stringCode {oracle : Oracle} {this : Word} {text : String}
    (h : stringValue oracle text g = some (x, g')) :
    Runs oracle code this (stringCode text) stack ⟨frame, g⟩ (x :: stack) ⟨frame, g'⟩ := by
  rw [stringValue, Option.bind_eq_bind, Option.bind_eq_some_iff] at h
  obtain ⟨⟨made, g₁⟩, hmade, hchars⟩ := h
  refine (Runs.push_constant text.length).cons (.cons ?_ (runs_appendChars hchars))
  exact runs_answer (show [_].length = 1 from rfl) hmade

/-! ### Expressions -/

theorem Expression.length_evalAll : ∀ {expressions : List Expression} {xs : List Word}
    {g g' : Globals}, Expression.evalAll ctx frame expressions g = some (xs, g') →
      xs.length = expressions.length
  | [], _, _, _, h => by
    cases h
    rfl
  | expression :: rest, _, _, _, h => by
    simp only [Expression.evalAll, Option.bind_eq_bind, Option.bind_eq_some_iff,
      Option.pure_def, Option.some.injEq, Prod.exists] at h
    obtain ⟨x, g₁, -, xs, g₂, hrest, heq⟩ := h
    cases heq
    rw [List.length_cons, List.length_cons, Expression.length_evalAll hrest]

mutual

theorem Term.runs_translate (hctx : ctx.Agrees frame) : ∀ {term : Term} {stack : List Word}
    {g g' : Globals} {x : Word}, term.eval ctx frame g = some (x, g') →
      Runs ctx.oracle code ctx.object (term.translate ctx.site) stack ⟨frame, g⟩ (x :: stack)
        ⟨frame, g'⟩
  | .integer value, _, _, _, _, h => by
    cases h
    exact .push_constant value
  | .string _, _, _, _, _, h => runs_stringCode h
  | .constant constant, _, _, _, _, h => by
    cases h
    exact runs_constantCode constant
  | .this, _, _, _, _, h => by
    simp only [Term.eval, Option.bind_eq_bind, Option.bind_eq_some_iff] at h
    obtain ⟨object, hobject, heq⟩ := h
    cases heq
    exact Context.runs_pushThis hctx hobject
  | .variable name, _, _, _, _, h => by
    simp only [Term.eval, Option.bind_eq_bind, Option.bind_eq_some_iff] at h
    obtain ⟨x, hx, heq⟩ := h
    cases heq
    exact Context.runs_pushVariable hx
  | .element array index, _, _, _, _, h => by
    simp only [Term.eval, Option.bind_eq_bind, Option.bind_eq_some_iff, Prod.exists] at h
    obtain ⟨base, hbase, i, g₁, hindex, heq⟩ := h
    cases heq
    rw [Term.translate]
    exact .append (Context.runs_pushVariable hbase)
      (.append (Expression.runs_translate hctx hindex) .read_element)
  | .call qualifier subroutine arguments, stack, g, _, _, h => by
    simp only [Term.eval, Option.bind_eq_bind, Option.bind_eq_some_iff, Prod.exists] at h
    obtain ⟨callee, object, hcallee, xs, g₁, hxs, hanswer⟩ := h
    obtain ⟨hobject, hcall⟩ := Context.runs_pushObject hcallee hctx
    have hlength : (object ++ xs).length = arguments.length + object.length := by
      rw [List.length_append, Expression.length_evalAll hxs, Nat.add_comm]
    have hstack : xs.reverse ++ (object.reverse ++ stack) = (object ++ xs).reverse ++ stack := by
      rw [List.reverse_append, List.append_assoc]
    rw [Term.translate, hcall]
    refine .append hobject (.append (Expression.runs_translateAll hctx hxs) ?_)
    rw [hstack]
    exact runs_answer hlength hanswer
  | .group inner, _, _, _, _, h => by
    rw [Term.eval] at h
    rw [Term.translate]
    exact Expression.runs_translate hctx h
  | .unary op operand, _, _, _, _, h => by
    simp only [Term.eval, Option.bind_eq_bind, Option.bind_eq_some_iff, Prod.exists] at h
    obtain ⟨x, g₁, hoperand, heq⟩ := h
    cases heq
    rw [Term.translate]
    exact .append (Term.runs_translate hctx hoperand) (runs_unaryInstr op)
termination_by structural term => term

theorem Expression.runs_translate (hctx : ctx.Agrees frame) : ∀ {expression : Expression}
    {stack : List Word} {g g' : Globals} {x : Word}, expression.eval ctx frame g = some (x, g') →
      Runs ctx.oracle code ctx.object (expression.translate ctx.site) stack ⟨frame, g⟩ (x :: stack)
        ⟨frame, g'⟩
  | .mk first rest, _, _, _, _, h => by
    simp only [Expression.eval, Option.bind_eq_bind, Option.bind_eq_some_iff, Prod.exists] at h
    obtain ⟨x, g₁, hfirst, hrest⟩ := h
    rw [Expression.translate]
    exact .append (Term.runs_translate hctx hfirst) (Expression.runs_translateRest hctx hrest)
termination_by structural expression => expression

theorem Expression.runs_translateRest (hctx : ctx.Agrees frame) :
    ∀ {rest : List (Operator × Term)} {stack : List Word} {g g' : Globals} {x y : Word},
      Expression.evalRest ctx frame rest x g = some (y, g') →
        Runs ctx.oracle code ctx.object (Expression.translateRest ctx.site rest) (x :: stack)
          ⟨frame, g⟩ (y :: stack) ⟨frame, g'⟩
  | [], _, _, _, _, _, h => by
    cases h
    exact .nil
  | (op, operand) :: rest, _, _, _, _, _, h => by
    simp only [Expression.evalRest, Option.bind_eq_bind, Option.bind_eq_some_iff,
      Prod.exists] at h
    obtain ⟨y, g₁, hoperand, z, g₂, hvalue, hrest⟩ := h
    rw [Expression.translateRest]
    exact .append (Term.runs_translate hctx hoperand)
      (.cons (runs_operatorInstr hvalue) (Expression.runs_translateRest hctx hrest))
termination_by structural rest => rest

theorem Expression.runs_translateAll (hctx : ctx.Agrees frame) :
    ∀ {expressions : List Expression} {stack : List Word} {g g' : Globals} {xs : List Word},
      Expression.evalAll ctx frame expressions g = some (xs, g') →
        Runs ctx.oracle code ctx.object (Expression.translateAll ctx.site expressions) stack
          ⟨frame, g⟩ (xs.reverse ++ stack) ⟨frame, g'⟩
  | [], _, _, _, _, h => by
    cases h
    exact .nil
  | expression :: rest, stack, _, _, _, h => by
    simp only [Expression.evalAll, Option.bind_eq_bind, Option.bind_eq_some_iff,
      Prod.exists] at h
    obtain ⟨x, g₁, hx, xs, g₂, hxs, heq⟩ := h
    cases heq
    rw [Expression.translateAll, List.reverse_cons, List.append_assoc, List.singleton_append]
    exact .append (Expression.runs_translate hctx hx) (Expression.runs_translateAll hctx hxs)
termination_by structural expressions => expressions

end

end Syntax
end JackLang
