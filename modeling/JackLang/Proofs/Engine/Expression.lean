import JackLang.Proofs.Engine.Basic
import JackLang.Proofs.Parser.Soundness

/-! Terms and expressions. The engine follows the parser, notes the trace of the tree that this
answers and writes the code of it (`Engine.Follows.term`, `Engine.Follows.expression`). -/

namespace JackLang

/-! ### Names in scope -/

/-- The variable that a name stands for has that name. -/
structure Scopes.Named (s : Scopes) : Prop where
  classLevel {name : String} {v : Variable} (h : s.classLevel[name]? = some v) : v.name = name
  subroutineLevel {name : String} {v : Variable} (h : s.subroutineLevel[name]? = some v) :
    v.name = name

theorem Scopes.Named.find? {s : Scopes} (hs : s.Named) {name : String} {v : Variable}
    (h : s.find? name = some v) : v.name = name := by
  rw [Scopes.find?, Option.orElse_eq_orElse, Option.orElse_eq_or, Option.or_eq_some_iff] at h
  obtain h | ⟨-, h⟩ := h
  · exact hs.subroutineLevel h
  · exact hs.classLevel h

/-- What the engine knows of the subroutine around it, as a parser has it in its context. Everything
there has a name. -/
structure Enclosing.Agrees (enclosing : Enclosing) (cx : Context) : Prop where
  className : enclosing.className = cx.className
  kind : enclosing.kind = cx.kind
  named : cx.scopes.Named
  className_ne : enclosing.className ≠ ""
  subroutine_ne : enclosing.subroutine ≠ ""

/-! ### The trace of arguments -/

/-- The trace of expressions with commas between them. -/
def Expression.traceItems : List Expression → Trace.Events → Trace.Events
  | [], events => events
  | expression :: rest, events => Expression.traceMore rest (expression.trace events)

/-- The trace of arguments without the parentheses. -/
def Expression.traceList (arguments : List Expression) (events : Trace.Events) : Trace.Events :=
  (traceItems arguments (events.open "expressionList")).close "expressionList"

namespace Expression

theorem traceArguments_eq (arguments : List Expression) (events : Trace.Events) :
    traceArguments arguments events =
      (traceList arguments (events.symbol .openParen)).symbol .closeParen := by
  cases arguments <;> rfl

theorem traceMore_concat (expressions : List Expression) (expression : Expression) :
    traceMore (expressions ++ [expression]) =
      fun events => expression.trace ((traceMore expressions events).symbol .comma) := by
  funext events
  induction expressions generalizing events with
  | nil => rfl
  | cons first rest ih => exact ih _

theorem traceRest_concat (rest : List (Operator × Term)) (op : Operator) (operand : Term) :
    traceRest (rest ++ [(op, operand)]) =
      fun events => operand.trace ((traceRest rest events).symbol op.symbol) := by
  funext events
  induction rest generalizing events with
  | nil => rfl
  | cons first rest ih => exact ih _

theorem emitRest_concat (rest : List (Operator × Term)) (op : Operator) (operand : Term) :
    emitRest (rest ++ [(op, operand)]) =
      fun code => (operand.emit (emitRest rest code)).push op.instr := by
  funext code
  induction rest generalizing code with
  | nil => rfl
  | cons first rest ih => exact ih _

theorem emitAll_concat (expressions : List Expression) (expression : Expression) :
    emitAll (expressions ++ [expression]) =
      fun code => expression.emit (emitAll expressions code) := by
  funext code
  induction expressions generalizing code with
  | nil => rfl
  | cons first rest ih => exact ih _

end Expression

/-- Behind the first tag of a term, all of it but the last tag has been noted and written. -/
def Term.Written (l : Ledger) (t : Term) (_ : Unit) (l' : Ledger) : Prop :=
  l'.traced (·.close "term") = (l.traced t.trace).coded t.emit

namespace Engine

theorem countMore_min (count more : Nat) :
    countMore (min count maxCount) more = min (count + more) maxCount := by
  rw [countMore]
  omega

/-- In the scopes of a context an engine follows a parser, notes the trace of what this answers and
writes the code of it. -/
def Compiles {α : Type} (cx : Context) (e : Engine Unit) (q : Parser α)
    (trace : α → Trace.Events → Trace.Events) (emit : α → Code → Code) : Prop :=
  ∀ {stream l}, l.scopes = cx.scopes →
    Follows ⟨stream, l⟩ e q fun a _ l' => l' = (l.traced (trace a)).coded (emit a)

namespace Follows

variable {stream : TokenStream} {l : Ledger} {cx : Context} {enclosing : Enclosing} {name : String}
  {span : Span}

/-! ### What the context tells -/

section context

variable {α β : Type} {post : α → β → Ledger → Prop}

theorem lookup {f : Option Variable → Engine β} {g : Parser α} (hl : l.scopes = cx.scopes)
    (hf : Follows ⟨stream, l⟩ (f (cx.scopes.find? name)) g post) :
    Follows ⟨stream, l⟩ (Engine.lookup name >>= f) g post := of_run (hl ▸ rfl) hf

theorem resolve {f : Variable → Engine β} {g : Variable → Parser α} (hl : l.scopes = cx.scopes)
    (hf : ∀ v, cx.scopes.find? name = some v → Follows ⟨stream, l⟩ (f v) (g v) post) :
    Follows ⟨stream, l⟩ (Engine.resolve name span >>= f) (cx.resolve name span >>= g) post := by
  rw [Engine.resolve, Context.resolve, bind_assoc]
  refine lookup hl ?_
  cases hfind : cx.scopes.find? name with
  | none => exact throw _
  | some v => exact hf v hfind

theorem receiver {f : Unit → Engine β} {g : Receiver → Parser α} (hcx : enclosing.Agrees cx)
    (hf : ∀ receiver : Receiver,
      Follows ⟨stream, l.coded (·.push receiver.instr)⟩ (f ()) (g receiver) post) :
    Follows ⟨stream, l⟩ (pushReceiver enclosing span >>= f) (cx.receiver span >>= g) post := by
  rw [pushReceiver, Context.receiver, hcx.kind]
  cases cx.kind.receiver? with
  | none => exact throw _
  | some receiver => exact write (by simp) (hf receiver)

end context

/-! ### String constants -/

theorem appendChars (cs : List Char) :
    Follows ⟨stream, l⟩ (appendChars span cs)
      (match cs.find? (maxConstant < ·.toNat) with
        | some c => MonadExcept.throw (Fault.characterTooLarge span c)
        | none => Pure.pure ()) fun _ _ l' =>
      l' = l.coded fun code => cs.foldl (fun code c =>
        (code.push (.push .constant c.toNat)).push (.call "String.appendChar" 2)) code := by
  induction cs generalizing l with
  | nil => exact pure rfl
  | cons c cs ih =>
    rw [Engine.appendChars]
    by_cases hc : maxConstant < c.toNat
    · rw [if_pos hc, List.find?_cons_of_pos (by simpa using hc)]
      exact throw _
    · rw [if_neg hc, List.find?_cons_of_neg (by simpa using hc)]
      refine write (by simp) (write (by simp) ?_)
      exact ih

theorem stringConstant (text : String) :
    Follows ⟨stream, l⟩ (stringConstant text span) (Parser.checkString text span) fun _ _ l' =>
      l' = l.coded (emitString text) := by
  rw [Engine.stringConstant, Parser.checkString]
  dsimp only
  split
  · exact throw _
  · refine write (by simp) (write (by simp) ?_)
    exact appendChars text.toList

/-! ### Expressions -/

theorem expressionOf {term : Engine Unit} {term' : Parser Term}
    (hterm : Compiles cx term term' Term.trace Term.emit) :
    Compiles cx (Engine.expressionOf term) (Parser.expressionOf term') Expression.trace
      Expression.emit := by
  intro stream l hl
  rw [Engine.expressionOf, Parser.expressionOf]
  refine note (.next (hterm hl) fun first _ stream => ?_)
  generalize hfirst : ((l.traced _).traced first.trace).coded first.emit = l₁
  have hl₁ : l₁.scopes = cx.scopes := hfirst ▸ hl
  let effect (rest : List (Operator × Term)) : Ledger :=
    (l₁.traced (Expression.traceRest rest)).coded (Expression.emitRest rest)
  refine (many effect l₁.traced_id fun rest stream => ?_).next fun rest _ stream => note_pure ?_
  · refine peek Parser.operator?_run ?_
    cases hop : stream.symbol?.bind Operator.ofSymbol? with
    | none => exact pure ⟨rfl, by simp⟩
    | some op =>
      have hsymbol : stream.current? = some (.symbol op.symbol) := by
        obtain ⟨symbol, hsymbol, hop⟩ := Option.bind_eq_some_iff.1 hop
        rw [TokenStream.symbol?_eq_some_iff.1 hsymbol, Operator.ofSymbol?_eq_some_iff.1 hop]
      refine (advance hsymbol).next fun _ _ _ => .next (hterm hl₁) fun operand _ _ => ?_
      refine write (by simp) (pure ⟨rfl, ?_⟩)
      simp [effect, Expression.traceRest_concat, Expression.emitRest_concat]
  · simp only [effect, ← hfirst, Ledger.traced_traced, Ledger.coded_traced, Ledger.coded_coded]
    rfl

theorem ofVariable (hcx : enclosing.Agrees cx) (hl : l.scopes = cx.scopes) :
    Follows ⟨stream, l.traced (·.open "term")⟩
      (do
        let v ← Engine.resolve name span
        Engine.noteName name .varName false
        Engine.write v.pushInstr)
      (do return Term.variable (← cx.resolve name span)) (Term.Written l) := by
  refine resolve hl fun v hfind => noteVariable (hcx.named.find? hfind) (hl ▸ hfind) ?_
  refine write_pure (by simp) ?_
  simp only [Term.Written, Ledger.traced_traced, Ledger.coded_traced]
  rfl

section expressions

variable {expression : Engine Unit} {expression' : Parser Expression}
  (hexpression : Compiles cx expression expression' Expression.trace Expression.emit)
include hexpression

theorem counted (hl : l.scopes = cx.scopes) :
    Follows ⟨stream, l⟩ (Engine.counted expression) (Parser.commaSeparated expression')
      fun xs count l' => count = min xs.length maxCount ∧
        l' = (l.traced (Expression.traceItems xs)).coded (Expression.emitAll xs) := by
  rw [Engine.counted, Parser.commaSeparated]
  refine .next (hexpression hl) fun first _ stream => ?_
  generalize hfirst : (l.traced first.trace).coded first.emit = l₁
  have hl₁ : l₁.scopes = cx.scopes := hfirst ▸ hl
  rw [← bind_pure (Engine.iterate _ _)]
  refine (manySteps (fun rest count l => count = min (rest.length + 1) maxCount ∧
    l = (l₁.traced (Expression.traceMore rest)).coded (Expression.emitAll rest))
    (fun rest count stream l h => ?_) ⟨rfl, l₁.traced_id.symm⟩).bind ?_
  · obtain ⟨rfl, rfl⟩ := h
    refine comma.bind ?_
    rintro _ more stream l ⟨rfl, rfl⟩
    cases more with
    | false => exact pure ⟨rfl, rfl⟩
    | true =>
      refine .next (hexpression hl₁) fun x _ stream => pure ⟨?_, ?_⟩
      · rw [countMore_min, List.length_append, List.length_singleton]
      · simp [Expression.traceMore_concat, Expression.emitAll_concat]
  · rintro rest count stream l ⟨rfl, rfl⟩
    refine pure ⟨rfl, ?_⟩
    rw [← hfirst]
    simp only [Ledger.coded_traced, Ledger.traced_traced, Ledger.coded_coded]
    rfl

theorem arguments (hl : l.scopes = cx.scopes) :
    Follows ⟨stream, l⟩ (Engine.arguments expression) (Parser.arguments expression')
      fun xs count l' => count = min xs.length maxCount ∧
        l' = (l.traced (Expression.traceList xs)).coded (Expression.emitAll xs) := by
  rw [Engine.arguments, Parser.arguments]
  refine note (peek Parser.currentSymbol_run ?_)
  dsimp only
  split
  · rw [pure_bind]
    exact note (pure ⟨rfl, l.traced_traced _ _⟩)
  · refine .seq (counted hexpression hl) ?_
    rintro xs count stream l ⟨rfl, rfl⟩
    refine note (pure ⟨rfl, ?_⟩)
    simp only [Ledger.traced_traced, Ledger.coded_traced]
    rfl

/-- The arguments of a call up to the last parenthesis, and the call. -/
theorem passed (callee : Callee) (subroutine : String) (hl : l.scopes = cx.scopes) :
    Follows ⟨stream, l⟩
      (do
        let count ← Engine.arguments expression
        Engine.expectSymbol .closeParen
        Engine.write (.call s!"{callee.className}.{subroutine}"
          (countMore count callee.implicitArguments)))
      (do
        let arguments ← Parser.arguments expression'
        Parser.expectSymbol .closeParen
        return (callee, subroutine, arguments)) fun call _ l' =>
      ∃ xs, call = (callee, subroutine, xs) ∧
        l' = (l.traced fun events => (Expression.traceList xs events).symbol .closeParen).coded
          fun code => (Expression.emitAll xs code).push
            (callee.callInstr subroutine xs.length) := by
  refine .bind (arguments hexpression hl) ?_
  rintro xs _ stream _ ⟨rfl, rfl⟩
  refine .next (expectSymbol _) fun _ _ _ => write_pure (by simp) ⟨xs, rfl, ?_⟩
  simp only [Ledger.coded_traced, Ledger.traced_traced, Ledger.coded_coded, countMore_min]
  rfl

theorem callOf (hcx : enclosing.Agrees cx) (hl : l.scopes = cx.scopes) :
    Follows ⟨stream, l⟩ (Engine.callOf enclosing expression name span)
      (Parser.callOf cx expression' name span) fun call _ l' =>
        l' = (l.traced fun events =>
            Expression.traceArguments call.2.2 (call.1.trace call.2.1 events)).coded fun code =>
          (Expression.emitAll call.2.2 (call.1.emit code)).push
            (call.1.callInstr call.2.1 call.2.2.length) := by
  rw [Engine.callOf, Parser.callOf, hcx.className]
  refine peek Parser.currentSymbol_run ?_
  cases hsymbol : stream.symbol? with
  | none => exact unexpected _
  | some symbol =>
    have hcurrent := TokenStream.symbol?_eq_some_iff.1 hsymbol
    cases symbol with
    | openParen =>
      refine noteName (by simp) (receiver hcx fun receiver => ?_)
      refine .next (advance hcurrent) fun _ _ stream => ?_
      refine .mono (passed hexpression (.own receiver cx.className) name hl) ?_
      rintro _ _ _ ⟨xs, rfl, rfl⟩
      simp only [Ledger.consumed_symbol, Ledger.coded_traced, Ledger.traced_traced,
        Ledger.coded_coded, Expression.traceArguments_eq]
      rfl
    | dot =>
      refine lookup hl ?_
      cases hfind : cx.scopes.find? name with
      | none =>
        refine noteName (by simp) (.next (advance hcurrent) fun _ _ stream => ?_)
        refine .bind identifier ?_
        rintro ⟨subroutine, _⟩ _ stream _ ⟨rfl, -, rfl⟩
        refine noteName (by simp) (.next (expectSymbol _) fun _ _ stream => ?_)
        refine .mono (passed hexpression (.ofClass name) subroutine hl) ?_
        rintro _ _ _ ⟨xs, rfl, rfl⟩
        simp only [Ledger.consumed_symbol, Ledger.traced_traced, Expression.traceArguments_eq]
        rfl
      | some v =>
        refine noteVariable (hcx.named.find? hfind) (hl ▸ hfind) ?_
        refine .next (advance hcurrent) fun _ _ stream => ?_
        refine .bind identifier ?_
        rintro ⟨subroutine, _⟩ _ stream _ ⟨rfl, -, rfl⟩
        refine noteName (by simp) (.next (expectSymbol _) fun _ _ stream => write (by simp) ?_)
        refine .mono (passed hexpression (.object v) subroutine hl) ?_
        rintro _ _ _ ⟨xs, rfl, rfl⟩
        simp only [Ledger.consumed_symbol, Ledger.coded_traced, Ledger.traced_traced,
          Ledger.coded_coded, Expression.traceArguments_eq]
        rfl
    | _ => exact unexpected _

theorem ofCall (hcx : enclosing.Agrees cx) (hl : l.scopes = cx.scopes) :
    Follows ⟨stream, l.traced (·.open "term")⟩
      (Engine.callOf enclosing expression name span)
      (do
        let (callee, subroutine, arguments) ←
          Parser.callOf cx expression' name span
        return Term.call callee subroutine arguments) (Term.Written l) := by
  rw [← bind_pure (Engine.callOf _ _ _ _)]
  refine .next (callOf hexpression hcx hl) fun call _ _ => pure ?_
  simp only [Term.Written, Ledger.traced_traced, Ledger.coded_traced]
  rfl

theorem named (hcx : enclosing.Agrees cx) (hl : l.scopes = cx.scopes) :
    Follows ⟨stream, l.traced (·.open "term")⟩
      (Engine.named enclosing expression name span)
      (Parser.named cx expression' name span) (Term.Written l) := by
  rw [Engine.named, Parser.named]
  refine peek Parser.currentSymbol_run ?_
  cases hsymbol : stream.symbol? with
  | none => exact ofVariable hcx hl
  | some symbol =>
    cases symbol with
    | openBracket =>
      refine resolve hl fun array hfind => noteVariable (hcx.named.find? hfind) (hl ▸ hfind) ?_
      refine .next (advance (TokenStream.symbol?_eq_some_iff.1 hsymbol)) fun _ _ stream => ?_
      refine write (by simp) (.next (hexpression hl) fun index _ stream => ?_)
      refine .next (expectSymbol _) fun _ _ stream => ?_
      refine write (by simp) (write (by simp) (write_pure (by simp) ?_))
      simp only [Term.Written, Ledger.traced_traced, Ledger.consumed_symbol, Ledger.coded_traced,
        Ledger.coded_coded]
      rfl
    | openParen | dot => exact ofCall hexpression hcx hl
    | _ => exact ofVariable hcx hl

end expressions

/-! ### Terms -/

theorem termBody {levels : Nat} (hcx : enclosing.Agrees cx)
    (hterm : Compiles cx (Engine.term enclosing levels) (Parser.term cx levels) Term.trace
      Term.emit)
    (hl : l.scopes = cx.scopes) :
    Follows ⟨stream, l.traced (·.open "term")⟩
      (Engine.termBody enclosing (Engine.term enclosing levels)) (Parser.term cx (levels + 1))
      (Term.Written l) := by
  rw [Engine.termBody, Parser.term]
  refine peek Parser.span_run (peek Parser.current_run ?_)
  cases htoken : stream.current? with
  | none => exact unexpected _
  | some t =>
    have hadvance := advance (l := l.traced (·.open "term")) htoken
    cases t with
    | integer value =>
      dsimp only
      split
      · exact throw _
      · refine hadvance.next fun _ _ _ => write_pure (by simp) ?_
        simp only [Term.Written, Ledger.consumed_integer, Ledger.traced_traced, Ledger.coded_traced]
        rfl
    | string text =>
      refine hadvance.next fun _ _ _ => ?_
      rw [← bind_pure (Engine.stringConstant _ _)]
      refine .next (stringConstant text) fun _ _ _ => pure ?_
      simp only [Term.Written, Ledger.consumed_string, Ledger.traced_traced, Ledger.coded_traced]
      rfl
    | keyword k =>
      cases k with
      | «true» =>
        refine hadvance.next fun _ _ _ => write (by simp) (write_pure (by simp) ?_)
        simp only [Term.Written, Ledger.consumed_keyword, Ledger.traced_traced, Ledger.coded_coded,
          Ledger.coded_traced]
        rfl
      | «false» | null =>
        refine hadvance.next fun _ _ _ => write_pure (by simp) ?_
        simp only [Term.Written, Ledger.consumed_keyword, Ledger.traced_traced, Ledger.coded_traced]
        rfl
      | this =>
        refine hadvance.next fun _ _ _ => ?_
        rw [← bind_pure (pushReceiver _ _)]
        refine receiver hcx fun receiver => pure ?_
        simp only [Term.Written, Ledger.consumed_keyword, Ledger.traced_traced, Ledger.coded_traced]
        rfl
      | _ => exact unexpected _
    | symbol symbol =>
      cases symbol with
      | openParen =>
        refine hadvance.next fun _ _ _ => .next (expressionOf hterm hl) fun inner _ _ => ?_
        rw [← bind_pure (Engine.expectSymbol _)]
        refine .next (expectSymbol _) fun _ _ _ => pure ?_
        simp only [Term.Written, Ledger.consumed_symbol, Ledger.traced_traced, Ledger.coded_traced]
        rfl
      | minus | tilde =>
        refine hadvance.next fun _ _ _ => .next (hterm hl) fun operand _ _ => ?_
        refine write_pure (by simp) ?_
        simp only [Term.Written, Ledger.consumed_symbol, Ledger.traced_traced, Ledger.coded_coded,
          Ledger.coded_traced]
        rfl
      | _ => exact unexpected _
    | identifier name =>
      exact hadvance.next fun _ _ _ => named (expressionOf hterm) hcx hl

theorem term (hcx : enclosing.Agrees cx) (levels : Nat) :
    Compiles cx (Engine.term enclosing levels) (Parser.term cx levels) Term.trace Term.emit := by
  induction levels with
  | zero => exact fun _ => unexpected _
  | succ levels ih =>
    intro stream l hl
    refine note (.seq (termBody hcx ih hl) fun t _ stream l' h => ?_)
    exact note_pure h

theorem expression (hcx : enclosing.Agrees cx) (levels : Nat) :
    Compiles cx (Engine.expression enclosing levels) (Parser.expression cx levels) Expression.trace
      Expression.emit := expressionOf (term hcx levels)

end Follows
end Engine
end JackLang
