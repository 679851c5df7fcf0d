import JackLang.Engine.Class

/-! An engine is blind to its trace: from two sessions that differ in the trace alone it goes on in
lock-step, to the same answer or the same fault, and again the sessions differ in the trace alone.
Each operation keeps that, the lookups included that are made for the trace, so every production
does (`Engine.Blind.program`). -/

namespace JackLang

/-- A session that keeps no trace. -/
def Session.untraced (s : Session) : Session :=
  { s with ledger := { s.ledger with trace? := none } }

namespace Engine

variable {α β : Type}

/-- A result with no trace in its session. -/
def untraced : EStateM.Result Fault Session α → EStateM.Result Fault Session α
  | .ok a s => .ok a s.untraced
  | .error fault s => .error fault s.untraced

/-- From a session without its trace an engine does what it does from the session, the trace apart.
-/
def Blind (e : Engine α) : Prop := ∀ s, e.run s.untraced = untraced (e.run s)

namespace Blind

variable {e : Engine α} {f : α → Engine β} {enclosing : Enclosing}

/-! ### Operations -/

theorem pure {a : α} : Blind (pure a : Engine α) := fun _ => rfl

theorem throw {fault : Fault} : Blind (throw fault : Engine α) := fun _ => rfl

theorem bind (he : Blind e) (hf : ∀ a, Blind (f a)) : Blind (e >>= f) := by
  intro s
  rw [EStateM.run_bind, EStateM.run_bind, he s]
  cases e.run s with
  | ok a s => exact hf a s
  | error fault s => rfl

theorem read {q : Parser α} : Blind (read q) := by
  rintro ⟨stream, ledger⟩
  simp only [EStateM.run, Engine.read, Session.untraced]
  cases q stream <;> rfl

theorem note {event : Trace.Event} : Blind (note event) := fun _ => rfl

theorem noteName {name : String} {role : Trace.Role} {defined : Bool} :
    Blind (noteName name role defined) := by
  rintro ⟨stream, scopes, trace?, emission⟩
  cases trace? <;> rfl

theorem declare {name : String} {type : VarType} {kind : VarKind} {span : Span} :
    Blind (declare name type kind span) := by
  rintro ⟨stream, scopes, trace?, emission⟩
  simp only [EStateM.run, Engine.declare, Session.untraced]
  cases Scopes.declare name type kind span scopes <;> rfl

theorem enterSubroutine : Blind enterSubroutine := fun _ => rfl

theorem lookup {name : String} : Blind (lookup name) := fun _ => rfl

theorem count {kind : VarKind} : Blind (count kind) := fun _ => rfl

theorem write {instr : Instr} : Blind (write instr) := by
  rintro ⟨stream, scopes, trace?, code, labels⟩
  simp only [EStateM.run, Engine.write, Session.untraced]
  cases code.add instr <;> rfl

theorem drawLabels {construct : Construct} : Blind (drawLabels enclosing construct) := by
  rintro ⟨stream, scopes, trace?, code, labels⟩
  simp only [EStateM.run, Engine.drawLabels, Session.untraced]
  cases labels.next enclosing.className enclosing.subroutine construct <;> rfl

/-! ### Repetition -/

theorem iterate {σ : Type} {step : σ → Engine (ForInStep σ)} (hstep : ∀ state, Blind (step state))
    (state : σ) : Blind (iterate step state) := by
  intro s
  suffices ∀ left state, Blind (iterate.rounds step left state) from
    this s.stream.tokens state s
  intro left
  induction left with
  | nil => exact fun state => pure
  | cons _ left ih =>
    refine fun state => (hstep state).bind fun next => ?_
    cases next with
    | done state => exact pure
    | yield state => exact ih state

theorem repeatWhile {round : Engine Bool} (hround : Blind round) : Blind (repeatWhile round) := by
  refine iterate (fun _ => hround.bind fun again => ?_) ()
  cases again with
  | true | false => exact pure

/-! ### Tokens and names -/

theorem resolve {name : String} {span : Span} : Blind (resolve name span) := by
  refine lookup.bind fun v? => ?_
  cases v? with
  | none => exact throw
  | some v => exact pure

theorem advance : Blind advance := by
  refine read.bind fun t? => ?_
  cases t? with
  | none => exact read
  | some t =>
    cases t with
    | identifier name => exact read
    | keyword | symbol | integer | string => exact note.bind fun _ => read

theorem expectKeyword {k : Keyword} : Blind (expectKeyword k) := by
  refine read.bind fun k? => ?_
  split
  · exact advance
  · exact read

theorem expectSymbol {symbol : Symbol} : Blind (expectSymbol symbol) := by
  refine read.bind fun symbol? => ?_
  split
  · exact advance
  · exact read

theorem identifier : Blind identifier := by
  refine read.bind fun t? => ?_
  split
  · exact read.bind fun span => advance.bind fun _ => pure
  · exact read

theorem comma : Blind comma := by
  refine read.bind fun symbol? => ?_
  split
  · exact advance.bind fun _ => pure
  · exact pure

/-! ### Expressions -/

theorem pushReceiver {span : Span} : Blind (pushReceiver enclosing span) := by
  rw [Engine.pushReceiver]
  split
  · exact write
  · exact throw

theorem appendChars {span : Span} {cs : List Char} : Blind (appendChars span cs) := by
  induction cs with
  | nil => exact pure
  | cons c cs ih =>
    rw [Engine.appendChars]
    dsimp only
    split
    · exact throw
    · exact write.bind fun _ => write.bind fun _ => ih

theorem stringConstant {text : String} {span : Span} : Blind (stringConstant text span) := by
  rw [Engine.stringConstant]
  dsimp only
  split
  · exact throw
  · exact write.bind fun _ => write.bind fun _ => appendChars

theorem expressionOf {term : Engine Unit} (hterm : Blind term) : Blind (expressionOf term) := by
  refine note.bind fun _ => hterm.bind fun _ => (repeatWhile ?_).bind fun _ => note
  refine read.bind fun op? => ?_
  cases op? with
  | none => exact pure
  | some op => exact advance.bind fun _ => hterm.bind fun _ => write.bind fun _ => pure

section arguments

variable {expression : Engine Unit} (hexpression : Blind expression)
include hexpression

theorem counted : Blind (counted expression) := by
  refine hexpression.bind fun _ => iterate (fun count => comma.bind fun more => ?_) _
  split
  · exact hexpression.bind fun _ => pure
  · exact pure

theorem arguments : Blind (arguments expression) := by
  refine note.bind fun _ => read.bind fun symbol? => ?_
  dsimp only
  split
  · exact note.bind fun _ => pure
  · exact (counted hexpression).bind fun count => note.bind fun _ => pure

theorem callOf {name : String} {span : Span} : Blind (callOf enclosing expression name span) := by
  refine read.bind fun symbol? => ?_
  split
  · refine noteName.bind fun _ => pushReceiver.bind fun _ => advance.bind fun _ => ?_
    exact (arguments hexpression).bind fun count => expectSymbol.bind fun _ => write
  · refine lookup.bind fun object? => noteName.bind fun _ => advance.bind fun _ => ?_
    refine identifier.bind fun (subroutine, _) => noteName.bind fun _ => ?_
    refine expectSymbol.bind fun _ => ?_
    have hcall (className : String) (implicit : Nat) : Blind (do
        let count ← Engine.arguments expression
        Engine.expectSymbol .closeParen
        Engine.write (.call s!"{className}.{subroutine}" (countMore count implicit))) :=
      (arguments hexpression).bind fun count => expectSymbol.bind fun _ => write
    cases object? with
    | none => exact hcall name 0
    | some v => exact write.bind fun _ => hcall v.type.text 1
  · exact read

theorem named {name : String} {span : Span} : Blind (named enclosing expression name span) := by
  refine read.bind fun symbol? => ?_
  split
  · refine resolve.bind fun array => noteName.bind fun _ => ?_
    refine advance.bind fun _ => write.bind fun _ => hexpression.bind fun _ => ?_
    refine expectSymbol.bind fun _ => write.bind fun _ => write.bind fun _ => write
  · exact callOf hexpression
  · exact callOf hexpression
  · exact resolve.bind fun v => noteName.bind fun _ => write

end arguments

theorem termBody {term : Engine Unit} (hterm : Blind term) : Blind (termBody enclosing term) := by
  refine read.bind fun span => read.bind fun t? => ?_
  split
  · next value =>
    dsimp only
    split
    · exact throw
    · exact advance.bind fun _ => write
  · next text => exact advance.bind fun _ => stringConstant
  · exact advance.bind fun _ => write.bind fun _ => write
  · exact advance.bind fun _ => write
  · exact advance.bind fun _ => write
  · exact advance.bind fun _ => pushReceiver
  · exact advance.bind fun _ => (expressionOf hterm).bind fun _ => expectSymbol
  · exact advance.bind fun _ => hterm.bind fun _ => write
  · exact advance.bind fun _ => hterm.bind fun _ => write
  · next name => exact advance.bind fun _ => named (expressionOf hterm)
  · exact read

theorem term {levels : Nat} : Blind (term enclosing levels) := by
  induction levels with
  | zero => exact read
  | succ levels ih => exact note.bind fun _ => (termBody ih).bind fun _ => note

theorem expression {levels : Nat} : Blind (expression enclosing levels) := expressionOf term

/-! ### Statements -/

theorem jumpUnless {label : String} : Blind (jumpUnless label) := write.bind fun _ => write

section statements

variable {expression block : Engine Unit} (hexpression : Blind expression)
include hexpression

theorem letStatement : Blind (letStatement expression) := by
  refine note.bind fun _ => expectKeyword.bind fun _ => identifier.bind fun (name, span) => ?_
  refine resolve.bind fun target => noteName.bind fun _ => ?_
  refine read.bind fun symbol? => ?_
  have hend : Blind (do
      Engine.expectSymbol .semicolon
      Engine.note (.close "letStatement")) := expectSymbol.bind fun _ => note
  dsimp only
  split
  · refine advance.bind fun _ => write.bind fun _ => hexpression.bind fun _ => ?_
    refine expectSymbol.bind fun _ => write.bind fun _ => expectSymbol.bind fun _ => ?_
    refine hexpression.bind fun _ => write.bind fun _ => write.bind fun _ => ?_
    exact write.bind fun _ => write.bind fun _ => hend
  · exact expectSymbol.bind fun _ => hexpression.bind fun _ => write.bind fun _ => hend

theorem doStatement : Blind (doStatement enclosing expression) := by
  refine note.bind fun _ => expectKeyword.bind fun _ => identifier.bind fun (name, span) => ?_
  refine (callOf hexpression).bind fun _ => write.bind fun _ => ?_
  exact expectSymbol.bind fun _ => note

theorem returnStatement : Blind (returnStatement expression) := by
  refine note.bind fun _ => expectKeyword.bind fun _ => read.bind fun symbol? => ?_
  have hend : Blind (do
      Engine.write .return
      Engine.expectSymbol .semicolon
      Engine.note (.close "returnStatement")) :=
    write.bind fun _ => expectSymbol.bind fun _ => note
  dsimp only
  split
  · exact write.bind fun _ => hend
  · exact hexpression.bind fun _ => hend

variable (hblock : Blind block)
include hblock

theorem ifStatement : Blind (ifStatement enclosing expression block) := by
  refine note.bind fun _ => expectKeyword.bind fun _ => expectSymbol.bind fun _ => ?_
  refine hexpression.bind fun _ => expectSymbol.bind fun _ => drawLabels.bind fun labels => ?_
  refine jumpUnless.bind fun _ => hblock.bind fun _ => read.bind fun k? => ?_
  dsimp only
  split
  · refine advance.bind fun _ => write.bind fun _ => write.bind fun _ => hblock.bind fun _ => ?_
    exact write.bind fun _ => note
  · exact write.bind fun _ => note

theorem whileStatement : Blind (whileStatement enclosing expression block) := by
  refine note.bind fun _ => expectKeyword.bind fun _ => expectSymbol.bind fun _ => ?_
  refine drawLabels.bind fun labels => write.bind fun _ => hexpression.bind fun _ => ?_
  refine expectSymbol.bind fun _ => jumpUnless.bind fun _ => hblock.bind fun _ => ?_
  exact write.bind fun _ => write.bind fun _ => note

theorem statement? : Blind (statement? enclosing expression block) := by
  refine read.bind fun k? => ?_
  split
  · exact (letStatement hexpression).bind fun _ => pure
  · exact (ifStatement hexpression hblock).bind fun _ => pure
  · exact (whileStatement hexpression hblock).bind fun _ => pure
  · exact (doStatement hexpression).bind fun _ => pure
  · exact (returnStatement hexpression).bind fun _ => pure
  · exact pure

end statements

theorem statements {levels : Nat} : Blind (statements enclosing levels) := by
  induction levels with
  | zero => exact read
  | succ levels ih =>
    have hblock : Blind (braced (Engine.statements enclosing levels)) :=
      expectSymbol.bind fun _ => ih.bind fun _ => expectSymbol
    refine note.bind fun _ => (repeatWhile ?_).bind fun _ => note
    exact statement? expression hblock

/-! ### Classes -/

theorem type : Blind type := by
  refine read.bind fun type? => ?_
  cases type? with
  | none => exact read
  | some type =>
    cases type with
    | int | char | boolean => exact advance.bind fun _ => pure
    | object name => exact noteName.bind fun _ => advance.bind fun _ => pure

theorem declaredName {type : VarType} {kind : VarKind} : Blind (declaredName type kind) :=
  identifier.bind fun _ => declare.bind fun _ => noteName

theorem commaSeparated {item : Engine Unit} (hitem : Blind item) : Blind (commaSeparated item) := by
  refine hitem.bind fun _ => repeatWhile (comma.bind fun more => ?_)
  split
  · exact hitem.bind fun _ => pure
  · exact pure

theorem declarations {kind? : Keyword → Option VarKind} : Blind (declarations kind?) := by
  refine repeatWhile (read.bind fun k? => ?_)
  split
  · refine note.bind fun _ => expectKeyword.bind fun _ => ?_
    refine Blind.bind ?_ fun _ => note.bind fun _ => pure
    exact type.bind fun _ => (commaSeparated declaredName).bind fun _ => expectSymbol
  · exact pure

theorem parameterList : Blind parameterList := by
  refine note.bind fun _ => read.bind fun type? => ?_
  dsimp only
  split
  · refine (commaSeparated ?_).bind fun _ => note
    exact type.bind fun _ => declaredName
  · exact note

theorem declareReceiver {className : String} {kind : SubroutineKind} {span : Span} :
    Blind (declareReceiver className kind span) := by
  cases kind with
  | method => exact declare
  | constructor | function => exact pure

theorem prologue : Blind (prologue enclosing) := by
  rw [Engine.prologue]
  split
  · refine count.bind fun fields => ?_
    dsimp only
    split
    · exact throw
    · exact write.bind fun _ => write.bind fun _ => write
  · exact write.bind fun _ => write
  · exact pure

theorem subroutineBody : Blind (subroutineBody enclosing) := by
  refine note.bind fun _ => expectSymbol.bind fun _ => declarations.bind fun _ => ?_
  refine count.bind fun locals => write.bind fun _ => prologue.bind fun _ => ?_
  exact statements.bind fun _ => expectSymbol.bind fun _ => note

theorem subroutine {className : String} {kind : SubroutineKind} :
    Blind (subroutine className kind) := by
  refine note.bind fun _ => enterSubroutine.bind fun _ => read.bind fun span => ?_
  refine advance.bind fun _ => declareReceiver.bind fun _ => read.bind fun k? => ?_
  have hrest : Blind (Engine.identifier >>= fun name => do
      Engine.noteName name.1 .subroutineName true
      Engine.expectSymbol .openParen
      Engine.parameterList
      Engine.expectSymbol .closeParen
      Engine.subroutineBody ⟨className, name.1, kind⟩
      Engine.note (.close "subroutineDec")) := by
    refine identifier.bind fun name => noteName.bind fun _ => expectSymbol.bind fun _ => ?_
    refine parameterList.bind fun _ => expectSymbol.bind fun _ => ?_
    exact subroutineBody.bind fun _ => note
  dsimp only
  split
  · exact advance.bind fun _ => hrest
  · exact (type.bind fun _ => pure).bind fun _ => hrest

theorem classDeclaration : Blind classDeclaration := by
  refine note.bind fun _ => expectKeyword.bind fun _ => identifier.bind fun (name, _) => ?_
  refine noteName.bind fun _ => expectSymbol.bind fun _ => declarations.bind fun _ => ?_
  refine (repeatWhile (read.bind fun k? => ?_)).bind fun _ => ?_
  · split
    · exact subroutine.bind fun _ => pure
    · exact pure
  · exact expectSymbol.bind fun _ => note.bind fun _ => pure

theorem program : Blind program := by
  refine read.bind fun _ => classDeclaration.bind fun name => read.bind fun t? => ?_
  dsimp only
  split
  · exact read.bind fun _ => pure
  · exact pure

end Blind
end Engine
end JackLang
