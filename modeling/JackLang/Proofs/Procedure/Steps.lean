import Mathlib.Logic.Relation
import JackLang.Proofs.Procedure.Runs

/-! Runs one step at a time. A `State` is a place that a run comes to: the procedure that it goes on
with, what is to be done behind that (`Frames`), and the reader. The productions in progress there
stand among the frames, each with whether it has descended and is not up again. A run takes the
steps from its start to its end (`Runs.comes`). -/

namespace JackLang.Procedure

/-! ### States -/

/-- What is to be done behind a procedure until a class is found, the innermost first. -/
inductive Frames : Type → Type 1
  | done : Frames Class
  | next {α β : Type} (next : α → Procedure β) (frames : Frames β) : Frames α
  /-- A production in progress, which returns to what called it. -/
  | activation {α : Type} (p : Production α) (descended : Bool) (frames : Frames α) : Frames α

/-- A production in progress. -/
structure Activation where
  site : Site
  descended : Bool
deriving DecidableEq, Repr

namespace Frames

/-- The productions in progress, the innermost first. -/
def activations : {α : Type} → Frames α → List Activation
  | _, done => []
  | _, next _ frames => frames.activations
  | _, activation p descended frames => ⟨p.site, descended⟩ :: frames.activations

/-- Notes of the innermost production whether it has descended, if that is to be noted. -/
def mark (descended? : Option Bool) : {α : Type} → Frames α → Frames α
  | _, done => done
  | _, next f frames => next f (frames.mark descended?)
  | _, activation p descended frames => activation p (descended?.getD descended) frames

end Frames

/-- The place that a run has come to. -/
structure State where
  {answer : Type}
  procedure : Procedure answer
  frames : Frames answer
  reader : Reader

/-- What a loop goes on with behind a round. -/
def again {σ : Type} (l : Loop) (step : σ → Procedure (ForInStep σ)) : ForInStep σ → Procedure σ
  | .done state => answer (.ok state)
  | .yield state => loop l step state

/-- One step. A production is in progress from its call until it has answered. A fault ends the run
where it is met, with all that is in progress there. -/
inductive Step : State → State → Prop
  | look {α : Type} {next : View → Procedure α} {frames : Frames α} {reader : Reader} :
    Step ⟨.look next, frames, reader⟩ ⟨next reader.view, frames, reader⟩
  | read {α : Type} {next : Procedure α} {frames : Frames α} {reader : Reader}
    {token? : Option Located} {lexer : Lexer} : reader.lexer.advance = .ok token? lexer →
    Step ⟨.read next, frames, reader⟩ ⟨next, frames, { reader with lexer }⟩
  | readFault {α : Type} {next : Procedure α} {frames : Frames α} {reader : Reader} {fault : Fault}
    {lexer : Lexer} : reader.lexer.advance = .error fault lexer →
    Step ⟨.read next, frames, reader⟩ ⟨.answer (.error fault), frames, { reader with lexer }⟩
  | descend {α : Type} {next : Procedure α} {frames : Frames α} {reader : Reader} :
    Step ⟨.descend next, frames, reader⟩
      ⟨next, frames.mark (some true), { reader with depth := reader.depth + 1 }⟩
  | ascend {α : Type} {next : Procedure α} {frames : Frames α} {reader : Reader} :
    Step ⟨.ascend next, frames, reader⟩
      ⟨next, frames.mark (some false), { reader with depth := reader.depth - 1 }⟩
  | call {α : Type} {p : Production α} {frames : Frames α} {reader : Reader} :
    Step ⟨.call p, frames, reader⟩ ⟨p.procedure, .activation p false frames, reader⟩
  | loop {σ : Type} {l : Loop} {step : σ → Procedure (ForInStep σ)} {state : σ} {frames : Frames σ}
    {reader : Reader} :
    Step ⟨.loop l step state, frames, reader⟩ ⟨step state, .next (again l step) frames, reader⟩
  | bind {α β : Type} {first : Procedure α} {next : α → Procedure β} {frames : Frames β}
    {reader : Reader} :
    Step ⟨.bind first next, frames, reader⟩ ⟨first, .next next frames, reader⟩
  | next {α β : Type} {a : α} {next : α → Procedure β} {frames : Frames β} {reader : Reader} :
    Step ⟨.answer (.ok a), .next next frames, reader⟩ ⟨next a, frames, reader⟩
  | leave {α : Type} {a : α} {p : Production α} {descended : Bool} {frames : Frames α}
    {reader : Reader} :
    Step ⟨.answer (.ok a), .activation p descended frames, reader⟩
      ⟨.answer (.ok a), frames, reader⟩

/-- Any number of steps. -/
abbrev Steps : State → State → Prop := Relation.ReflTransGen Step

/-- A state that the compilation of some lines comes to. -/
def State.Reached (lines : List Line) (s : State) : Prop :=
  Steps ⟨program, .done, .ofLines lines⟩ s

/-! ### The steps of a run -/

namespace Frames

variable {α : Type}

theorem mark_none (frames : Frames α) : frames.mark none = frames := by
  induction frames with
  | done => rfl
  | next f frames ih => rw [mark, ih]
  | activation p descended frames => rfl

theorem mark_mark (first? second? : Option Bool) (frames : Frames α) :
    (frames.mark first?).mark second? = frames.mark (second? <|> first?) := by
  induction frames with
  | done => rfl
  | next f frames ih => rw [mark, mark, mark, ih]
  | activation p descended frames =>
    cases second? with
    | none | some _ => rfl

end Frames

/-- From a state a run comes to an answer, with the frames left behind it, or to a fault. -/
inductive Comes {α : Type} (s : State) (frames : Frames α) : Except Fault α → Reader → Prop
  | ok {a : α} {reader : Reader} (descended? : Option Bool) :
    Steps s ⟨.answer (.ok a), frames.mark descended?, reader⟩ → Comes s frames (.ok a) reader
  | error {β : Type} {fault : Fault} {frames' : Frames β} {reader : Reader} :
    Steps s ⟨.answer (.error fault), frames', reader⟩ → Comes s frames (.error fault) reader

variable {α : Type} {p : Procedure α} {s s' : State} {frames : Frames α} {reader reader' : Reader}
  {events : List Event} {answer : Except Fault α}

theorem Comes.behind (hsteps : Steps s s') (h : Comes s' frames answer reader) :
    Comes s frames answer reader := by
  cases h with
  | ok descended? h => exact .ok descended? (hsteps.trans h)
  | error h => exact .error (hsteps.trans h)

/-- What is noted of the innermost production is not part of what is left. -/
theorem Comes.of_mark {descended? : Option Bool}
    (h : Comes s (frames.mark descended?) answer reader) : Comes s frames answer reader := by
  cases h with
  | ok _ h =>
    rw [Frames.mark_mark] at h
    exact .ok _ h
  | error h => exact .error h

/-- A run is steps. -/
theorem Runs.comes (h : p.Runs reader events answer reader') (frames : Frames α) :
    Comes ⟨p, frames, reader⟩ frames answer reader' := by
  induction h with
  | answer answer reader =>
    cases answer with
    | ok a =>
      refine .ok none ?_
      rw [Frames.mark_none]
    | error fault => exact .error .refl
  | look _ ih => exact (ih frames).behind (.single .look)
  | read hadvance _ ih => exact (ih frames).behind (.single (.read hadvance))
  | readFault hadvance => exact .error (.single (.readFault hadvance))
  | descend _ ih => exact (ih _).of_mark.behind (.single .descend)
  | ascend _ ih => exact (ih _).of_mark.behind (.single .ascend)
  | @call _ p _ _ _ _ _ ih =>
    refine .behind (.single .call) ?_
    cases ih (.activation p false frames) with
    | ok _ h =>
      refine .ok none (h.tail ?_)
      rw [Frames.mark_none]
      exact .leave
    | error h => exact .error h
  | @done _ l step _ _ _ _ _ _ ih =>
    cases ih (.next (again l step) frames) with
    | ok _ h => exact .ok _ ((h.tail .next).head .loop)
  | @yield _ l step _ _ _ _ _ _ _ _ _ _ ih ih' =>
    cases ih (.next (again l step) frames) with
    | ok _ h => exact (ih' _).of_mark.behind ((h.tail .next).head .loop)
  | @loopFault _ l step _ _ _ _ _ _ ih =>
    cases ih (.next (again l step) frames) with
    | error h => exact .error (h.head .loop)
  | @bind _ _ _ next _ _ _ _ _ _ _ _ _ ih ih' =>
    cases ih (.next next frames) with
    | ok _ h => exact (ih' _).of_mark.behind ((h.tail .next).head .bind)
  | @bindFault _ _ _ next _ _ _ _ _ ih =>
    cases ih (.next next frames) with
    | error h => exact .error (h.head .bind)

/-! ### Steps that are computed -/

namespace State

/-- The next state, which an end does not have. -/
def next? : State → Option State
  | ⟨.answer (.ok _), .done, _⟩ => none
  | ⟨.answer (.ok a), .next next frames, reader⟩ => some ⟨next a, frames, reader⟩
  | ⟨.answer (.ok a), .activation _ _ frames, reader⟩ => some ⟨.answer (.ok a), frames, reader⟩
  | ⟨.answer (.error _), _, _⟩ => none
  | ⟨.look next, frames, reader⟩ => some ⟨next reader.view, frames, reader⟩
  | ⟨.read next, frames, reader⟩ =>
    match reader.lexer.advance with
    | .ok _ lexer => some ⟨next, frames, { reader with lexer }⟩
    | .error fault lexer => some ⟨.answer (.error fault), frames, { reader with lexer }⟩
  | ⟨.descend next, frames, reader⟩ =>
    some ⟨next, frames.mark (some true), { reader with depth := reader.depth + 1 }⟩
  | ⟨.ascend next, frames, reader⟩ =>
    some ⟨next, frames.mark (some false), { reader with depth := reader.depth - 1 }⟩
  | ⟨.call p, frames, reader⟩ => some ⟨p.procedure, .activation p false frames, reader⟩
  | ⟨.loop l step state, frames, reader⟩ =>
    some ⟨step state, .next (again l step) frames, reader⟩
  | ⟨.bind first next, frames, reader⟩ => some ⟨first, .next next frames, reader⟩

/-- The state after so many steps. -/
def after? : Nat → State → Option State
  | 0, s => some s
  | n + 1, s => s.next?.bind (after? n)

theorem step_of_next? (h : s.next? = some s') : Step s s' := by
  obtain ⟨p, frames, reader⟩ := s
  cases p with
  | answer answer =>
    cases answer with
    | error fault => cases h
    | ok a =>
      cases frames with
      | done => cases h
      | next next frames =>
        cases h
        exact .next
      | activation p descended frames =>
        cases h
        exact .leave
  | read next =>
    rw [next?] at h
    split at h
    · next hadvance =>
      cases h
      exact .read hadvance
    · next hadvance =>
      cases h
      exact .readFault hadvance
  | look next =>
    cases h
    exact .look
  | descend next =>
    cases h
    exact .descend
  | ascend next =>
    cases h
    exact .ascend
  | call p =>
    cases h
    exact .call
  | loop l step state =>
    cases h
    exact .loop
  | bind first next =>
    cases h
    exact .bind

theorem steps_of_after? {n : Nat} (h : s.after? n = some s') : Steps s s' := by
  induction n generalizing s with
  | zero =>
    cases h
    exact .refl
  | succ n ih =>
    obtain ⟨s₁, hnext, hafter⟩ := Option.bind_eq_some_iff.1 h
    exact (ih hafter).head (step_of_next? hnext)

end State

end JackLang.Procedure
