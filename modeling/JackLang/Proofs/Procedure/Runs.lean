import JackLang.Proofs.Procedure.Grammar

/-! Runs of procedures, each with the events in it: the advances of the lexer, and the sites that
the run comes by. A run is finite, and there is at most one (`Procedure.Runs.unique`); that a
procedure comes to an end on a reader is that it has a run there. -/

namespace JackLang.Procedure

inductive Event
  /-- The lexer advances; what was current is consumed. -/
  | advance (current? : Option Located)
  | reach (site : Site) (view : View)
deriving DecidableEq, Repr

namespace Event

/-- What was current at each advance. -/
def advances : List Event → List (Option Located)
  | [] => []
  | advance current? :: events => current? :: advances events
  | reach .. :: events => advances events

@[simp] theorem advances_append (events events' : List Event) :
    advances (events ++ events') = advances events ++ advances events' := by
  induction events with
  | nil => rfl
  | cons event events ih => cases event with
    | advance => rw [List.cons_append, advances, advances, ih, List.cons_append]
    | reach => rw [List.cons_append, advances, advances, ih]

theorem mem_advances {current? : Option Located} {events : List Event} :
    current? ∈ advances events ↔ .advance current? ∈ events := by
  induction events with
  | nil => simp [advances]
  | cons event events ih => cases event with
    | advance => simp [advances, ih]
    | reach => simp [advances, ih]

end Event

inductive Runs :
    {α : Type} → Procedure α → Reader → List Event → Except Fault α → Reader → Prop
  | answer {α : Type} (answer : Except Fault α) (reader : Reader) :
    Runs (.answer answer) reader [] answer reader
  | look {α : Type} {next : View → Procedure α} {reader reader' : Reader} {events : List Event}
    {answer : Except Fault α} :
    Runs (next reader.view) reader events answer reader' →
    Runs (.look next) reader events answer reader'
  | read {α : Type} {next : Procedure α} {reader reader' : Reader} {events : List Event}
    {answer : Except Fault α} {token? : Option Located} {lexer : Lexer} :
    reader.lexer.advance = .ok token? lexer →
    Runs next { reader with lexer } events answer reader' →
    Runs (.read next) reader (.advance reader.lexer.current :: events) answer reader'
  | readFault {α : Type} {next : Procedure α} {reader : Reader} {fault : Fault} {lexer : Lexer} :
    reader.lexer.advance = .error fault lexer →
    Runs (.read next) reader [.advance reader.lexer.current] (.error fault) { reader with lexer }
  | descend {α : Type} {next : Procedure α} {reader reader' : Reader} {events : List Event}
    {answer : Except Fault α} :
    Runs next { reader with depth := reader.depth + 1 } events answer reader' →
    Runs (.descend next) reader events answer reader'
  | ascend {α : Type} {next : Procedure α} {reader reader' : Reader} {events : List Event}
    {answer : Except Fault α} :
    Runs next { reader with depth := reader.depth - 1 } events answer reader' →
    Runs (.ascend next) reader events answer reader'
  | call {α : Type} {p : Production α} {reader reader' : Reader} {events : List Event}
    {answer : Except Fault α} :
    Runs p.procedure reader events answer reader' →
    Runs (.call p) reader (.reach p.site reader.view :: events) answer reader'
  | done {σ : Type} {loop : Loop} {step : σ → Procedure (ForInStep σ)} {state state' : σ}
    {reader reader' : Reader} {events : List Event} :
    Runs (step state) reader events (.ok (.done state')) reader' →
    Runs (.loop loop step state) reader (.reach (.loop loop) reader.view :: events) (.ok state')
      reader'
  | yield {σ : Type} {loop : Loop} {step : σ → Procedure (ForInStep σ)} {state state' : σ}
    {reader reader₁ reader' : Reader} {events events' : List Event} {answer : Except Fault σ} :
    Runs (step state) reader events (.ok (.yield state')) reader₁ →
    Runs (.loop loop step state') reader₁ events' answer reader' →
    Runs (.loop loop step state) reader (.reach (.loop loop) reader.view :: (events ++ events'))
      answer reader'
  | loopFault {σ : Type} {loop : Loop} {step : σ → Procedure (ForInStep σ)} {state : σ}
    {reader reader' : Reader} {events : List Event} {fault : Fault} :
    Runs (step state) reader events (.error fault) reader' →
    Runs (.loop loop step state) reader (.reach (.loop loop) reader.view :: events)
      (.error fault) reader'
  | bind {α β : Type} {first : Procedure α} {next : α → Procedure β} {a : α}
    {reader reader₁ reader' : Reader} {events events' : List Event} {answer : Except Fault β} :
    Runs first reader events (.ok a) reader₁ → Runs (next a) reader₁ events' answer reader' →
    Runs (.bind first next) reader (events ++ events') answer reader'
  | bindFault {α β : Type} {first : Procedure α} {next : α → Procedure β}
    {reader reader' : Reader} {events : List Event} {fault : Fault} :
    Runs first reader events (.error fault) reader' →
    Runs (.bind first next) reader events (.error fault) reader'

variable {α : Type} {p : Procedure α} {reader reader' reader'' : Reader}
  {events events' : List Event} {answer answer' : Except Fault α}

/-- Where a run starts determines it. -/
theorem Runs.unique (h : p.Runs reader events answer reader')
    (h' : p.Runs reader events' answer' reader'') :
    events' = events ∧ answer' = answer ∧ reader'' = reader' := by
  induction h generalizing events' reader'' with
  | answer =>
    cases h'
    exact ⟨rfl, rfl, rfl⟩
  | look _ ih =>
    cases h' with
    | look h' => exact ih h'
  | read hadvance _ ih =>
    cases h' with
    | read hadvance' h' =>
      cases hadvance.symm.trans hadvance'
      obtain ⟨rfl, rfl, rfl⟩ := ih h'
      exact ⟨rfl, rfl, rfl⟩
    | readFault hadvance' => cases hadvance.symm.trans hadvance'
  | readFault hadvance =>
    cases h' with
    | read hadvance' => cases hadvance.symm.trans hadvance'
    | readFault hadvance' =>
      cases hadvance.symm.trans hadvance'
      exact ⟨rfl, rfl, rfl⟩
  | descend _ ih =>
    cases h' with
    | descend h' => exact ih h'
  | ascend _ ih =>
    cases h' with
    | ascend h' => exact ih h'
  | call _ ih =>
    cases h' with
    | call h' =>
      obtain ⟨rfl, rfl, rfl⟩ := ih h'
      exact ⟨rfl, rfl, rfl⟩
  | done _ ih =>
    cases h' with
    | done h' =>
      obtain ⟨rfl, heq, rfl⟩ := ih h'
      cases heq
      exact ⟨rfl, rfl, rfl⟩
    | yield h' => cases (ih h').2.1
    | loopFault h' => cases (ih h').2.1
  | yield _ _ ih ih' =>
    cases h' with
    | done h' => cases (ih h').2.1
    | yield h' h'' =>
      obtain ⟨rfl, heq, rfl⟩ := ih h'
      cases heq
      obtain ⟨rfl, rfl, rfl⟩ := ih' h''
      exact ⟨rfl, rfl, rfl⟩
    | loopFault h' => cases (ih h').2.1
  | loopFault _ ih =>
    cases h' with
    | done h' => cases (ih h').2.1
    | yield h' => cases (ih h').2.1
    | loopFault h' =>
      obtain ⟨rfl, heq, rfl⟩ := ih h'
      cases heq
      exact ⟨rfl, rfl, rfl⟩
  | bind _ _ ih ih' =>
    cases h' with
    | bind h' h'' =>
      obtain ⟨rfl, heq, rfl⟩ := ih h'
      cases heq
      obtain ⟨rfl, rfl, rfl⟩ := ih' h''
      exact ⟨rfl, rfl, rfl⟩
    | bindFault h' => cases (ih h').2.1
  | bindFault _ ih =>
    cases h' with
    | bind h' => cases (ih h').2.1
    | bindFault h' =>
      obtain ⟨rfl, heq, rfl⟩ := ih h'
      cases heq
      exact ⟨rfl, rfl, rfl⟩

/-! ### Runs that are computed -/

/-- The run of a procedure, unless it takes more steps than there is fuel for. -/
def run? : {α : Type} → Nat → Procedure α → Reader → Option (List Event × Except Fault α × Reader)
  | _, 0, _, _ => none
  | _, _ + 1, .answer a, reader => some ([], a, reader)
  | _, fuel + 1, .look next, reader => (next reader.view).run? fuel reader
  | _, fuel + 1, .read next, reader =>
    let event := .advance reader.lexer.current
    match reader.lexer.advance with
    | .ok _ lexer => do
      let (events, answer, reader) ← next.run? fuel { reader with lexer }
      return (event :: events, answer, reader)
    | .error fault lexer => some ([event], .error fault, { reader with lexer })
  | _, fuel + 1, .descend next, reader => next.run? fuel { reader with depth := reader.depth + 1 }
  | _, fuel + 1, .ascend next, reader => next.run? fuel { reader with depth := reader.depth - 1 }
  | _, fuel + 1, .call p, reader => do
    let (events, answer, reader') ← p.procedure.run? fuel reader
    return (.reach p.site reader.view :: events, answer, reader')
  | _, fuel + 1, .loop l step state, reader => do
    let event := .reach (.loop l) reader.view
    match ← (step state).run? fuel reader with
    | (events, .ok (.done state), reader) => return (event :: events, .ok state, reader)
    | (events, .ok (.yield state), reader) =>
      let (events', answer, reader) ← (Procedure.loop l step state).run? fuel reader
      return (event :: (events ++ events'), answer, reader)
    | (events, .error fault, reader) => return (event :: events, .error fault, reader)
  | _, fuel + 1, .bind first next, reader => do
    match ← first.run? fuel reader with
    | (events, .ok a, reader) =>
      let (events', answer, reader) ← (next a).run? fuel reader
      return (events ++ events', answer, reader)
    | (events, .error fault, reader) => return (events, .error fault, reader)

theorem runs_of_run? {fuel : Nat} (h : p.run? fuel reader = some (events, answer, reader')) :
    p.Runs reader events answer reader' := by
  induction fuel generalizing α p reader events answer reader' with
  | zero => rw [run?] at h; cases h
  | succ fuel ih =>
    cases p with
    | answer a =>
      rw [run?] at h
      cases h
      exact .answer _ _
    | look next =>
      rw [run?] at h
      exact .look (ih h)
    | read next =>
      rw [run?] at h
      split at h
      · next hadvance =>
        simp only [Option.bind_eq_bind, Option.bind_eq_some_iff] at h
        obtain ⟨⟨events, answer, reader⟩, h, heq⟩ := h
        cases heq
        exact .read hadvance (ih h)
      · next hadvance =>
        cases h
        exact .readFault hadvance
    | descend next =>
      rw [run?] at h
      exact .descend (ih h)
    | ascend next =>
      rw [run?] at h
      exact .ascend (ih h)
    | call p =>
      rw [run?, Option.bind_eq_bind, Option.bind_eq_some_iff] at h
      obtain ⟨⟨events, answer, reader⟩, h, heq⟩ := h
      cases heq
      exact .call (ih h)
    | loop loop step state =>
      rw [run?, Option.bind_eq_bind, Option.bind_eq_some_iff] at h
      obtain ⟨⟨events, next, reader⟩, hstep, h⟩ := h
      cases next with
      | error fault =>
        cases h
        exact .loopFault (ih hstep)
      | ok next =>
        cases next with
        | done state =>
          cases h
          exact .done (ih hstep)
        | yield state =>
          simp only [Option.bind_eq_bind, Option.bind_eq_some_iff] at h
          obtain ⟨⟨events', answer, reader'⟩, h, heq⟩ := h
          cases heq
          exact .yield (ih hstep) (ih h)
    | bind first next =>
      rw [run?, Option.bind_eq_bind, Option.bind_eq_some_iff] at h
      obtain ⟨⟨events, a?, reader⟩, hfirst, h⟩ := h
      cases a? with
      | error fault =>
        cases h
        exact .bindFault (ih hfirst)
      | ok a =>
        simp only [Option.bind_eq_bind, Option.bind_eq_some_iff] at h
        obtain ⟨⟨events', answer, reader'⟩, h, heq⟩ := h
        cases heq
        exact .bind (ih hfirst) (ih h)

end JackLang.Procedure
