import JackLang.Proofs.Procedure.Levels
import JackLang.Proofs.Traffic

/-! How levels of nesting are counted. Wherever a compilation has come to, its reader is as deep as
there are statements and terms in progress that have descended, so every production that comes to an
answer leaves the count as it was (`Procedure.nesting_exact`). -/

namespace JackLang.Procedure

variable {α : Type} {p : Procedure α} {frames : Frames α} {s s' : State} {lines : List Line}
  {reader reader' : Reader} {events : List Event}

/-! ### Procedures that nest -/

/-- How far the procedure of a production that nests has come, and whether it has descended;
`base` is the depth that it was called at. -/
inductive Nesting (base : Nat) : {α : Type} → Bool → Procedure α → Prop
  | start {α : Type} (nested : Nested) {inner : Procedure α} :
    Level inner → Nesting base false (nest nested inner)
  | descend {α : Type} {inner : Procedure α} : base < maxNesting → Level inner →
    Nesting base false (.descend (do let a ← inner; ascend (return a)))
  | inside {α : Type} {inner : Procedure α} :
    Level inner → Nesting base true (do let a ← inner; ascend (return a))
  | ascend {α : Type} (a : α) : Nesting base true (.ascend (return a))

/-- A procedure that comes to an answer ends at the depth that it was called at. -/
theorem Runs.depth_eq {answer : Except Fault α} (h : p.Runs reader events answer reader')
    {base : Nat} (hp : Level p ∧ reader.depth = base ∨
      ∃ descended, Nesting base descended p ∧ reader.depth = base + descended.toNat)
    {a : α} (hanswer : answer = .ok a) : reader'.depth = base := by
  induction h generalizing base with
  | answer answer reader =>
    obtain ⟨-, hdepth⟩ | ⟨_, ⟨⟩, -⟩ := hp
    exact hdepth
  | look _ ih =>
    obtain ⟨hp, hdepth⟩ | ⟨_, hp, hdepth⟩ := hp
    · cases hp with
      | look hp => exact ih (.inl ⟨hp _, hdepth⟩) hanswer
    · cases hp with
      | start nested hinner =>
        -- Where there is room for a level it descends next, and otherwise it has only to fail.
        dsimp only at ih
        split at ih
        · next hlt =>
          have hbase := Nat.lt_of_le_of_lt (Nat.le_of_eq hdepth.symm) hlt
          exact ih (.inr ⟨false, .descend hbase hinner, hdepth⟩) hanswer
        · exact ih (.inl ⟨.peek _, hdepth⟩) hanswer
  | read _ _ ih =>
    obtain ⟨hp, hdepth⟩ | ⟨_, ⟨⟩, -⟩ := hp
    cases hp with
    | read hp => exact ih (.inl ⟨hp, hdepth⟩) hanswer
  | readFault => cases hanswer
  | descend _ ih =>
    obtain ⟨⟨⟩, -⟩ | ⟨_, hp, hdepth⟩ := hp
    cases hp with
    | descend _ hinner => exact ih (.inr ⟨true, .inside hinner, congrArg (· + 1) hdepth⟩) hanswer
  | ascend _ ih =>
    obtain ⟨⟨⟩, -⟩ | ⟨_, hp, hdepth⟩ := hp
    cases hp with
    | ascend a => exact ih (.inl ⟨.pure a, congrArg (· - 1) hdepth⟩) hanswer
  | @call _ p _ _ _ _ _ ih =>
    obtain ⟨-, rfl⟩ | ⟨_, ⟨⟩, -⟩ := hp
    obtain hlevel | ⟨-, nested, inner, hinner, heq⟩ := level_or_nest p
    · exact ih (.inl ⟨hlevel, rfl⟩) hanswer
    · exact ih (.inr ⟨false, heq ▸ .start nested hinner, rfl⟩) hanswer
  | done _ ih =>
    obtain ⟨hp, hdepth⟩ | ⟨_, ⟨⟩, -⟩ := hp
    cases hp with
    | loop _ hstep => exact ih (.inl ⟨hstep _, hdepth⟩) rfl
  | yield _ _ ih ih' =>
    obtain ⟨hp, hdepth⟩ | ⟨_, ⟨⟩, -⟩ := hp
    cases hp with
    | loop _ hstep => exact ih' (.inl ⟨.loop _ hstep, ih (.inl ⟨hstep _, hdepth⟩) rfl⟩) hanswer
  | loopFault => cases hanswer
  | bind _ _ ih ih' =>
    obtain ⟨hp, hdepth⟩ | ⟨_, hp, hdepth⟩ := hp
    · cases hp with
      | bind hfirst hnext =>
        exact ih' (.inl ⟨hnext _, ih (.inl ⟨hfirst, hdepth⟩) rfl⟩) hanswer
    · cases hp with
      | inside hinner =>
        exact ih' (.inr ⟨true, .ascend _, ih (.inl ⟨hinner, hdepth⟩) rfl⟩) hanswer
  | bindFault => cases hanswer

/-- Whatever a production does, when it comes to an answer the count is as it was. -/
theorem Runs.depth_call {production : Production α} {a : α}
    (h : (Procedure.call production).Runs reader events (.ok a) reader') :
    reader'.depth = reader.depth :=
  h.depth_eq (.inl ⟨.call production, rfl⟩) rfl

/-! ### Levels in progress -/

/-- A production that is a level of nesting of what is in progress. -/
def Activation.isLevel (a : Activation) : Bool := a.site.nests && a.descended

/-- How many statements and terms are in progress and have descended. -/
def Frames.levels (frames : Frames α) : Nat := frames.activations.countP Activation.isLevel

namespace Frames

theorem levels_activation {p : Production α} {descended : Bool} (h : descended → p.site.nests)
    (frames : Frames α) :
    (activation p descended frames).levels = frames.levels + descended.toNat := by
  rw [levels, activations, List.countP_cons, Activation.isLevel, levels]
  cases descended with
  | false => rw [Bool.and_false]; rfl
  | true => rw [h rfl]; rfl

theorem levels_returning (p : Production α) (frames : Frames α) :
    (activation p false frames).levels = frames.levels :=
  @levels_activation _ p false nofun frames

/-- What is to be done is level, and goes up behind a production that has descended. -/
inductive Sound : {α : Type} → Frames α → Prop
  | done : Sound done
  | next {α β : Type} {next : α → Procedure β} {frames : Frames β} :
    (∀ a, Level (next a)) → frames.Sound → Sound (.next next frames)
  | activation {α : Type} (p : Production α) {frames : Frames α} :
    frames.Sound → Sound (.activation p false frames)
  | inside {α : Type} {p : Production α} {frames : Frames α} : p.site.nests → frames.Sound →
    Sound (.next (fun a => ascend (return a)) (.activation p true frames))

end Frames

/-- A state that is as deep as it has levels in progress. It is in a level procedure, or in that of
a production that nests. -/
inductive State.Sound : State → Prop
  | level {α : Type} {p : Procedure α} {frames : Frames α} {reader : Reader} :
    Level p → frames.Sound → reader.depth = frames.levels → reader.depth ≤ maxNesting →
    Sound ⟨p, frames, reader⟩
  | nesting {α : Type} {production : Production α} {descended : Bool} {p : Procedure α}
    {frames : Frames α} {reader : Reader} : production.site.nests →
    Nesting frames.levels descended p → frames.Sound →
    reader.depth = frames.levels + descended.toNat → reader.depth ≤ maxNesting →
    Sound ⟨p, .activation production descended frames, reader⟩

namespace State

theorem Sound.depth_eq (h : s.Sound) : s.reader.depth = s.frames.levels := by
  cases h with
  | level _ _ hdepth _ => exact hdepth
  | nesting hnests _ _ hdepth _ => rw [Frames.levels_activation fun _ => hnests, hdepth]

theorem Sound.depth_le (h : s.Sound) : s.reader.depth ≤ maxNesting := by
  cases h with
  | level _ _ _ hle | nesting _ _ _ _ hle => exact hle

/-- Every step keeps the count. -/
theorem Sound.step (h : s.Sound) (hstep : Step s s') : s'.Sound := by
  -- Only what nests goes down and up, and each of its forms takes one kind of step.
  cases hstep with
  | look =>
    cases h with
    | level hp hframes hdepth hle =>
      cases hp with
      | look hp => exact .level (hp _) hframes hdepth hle
    | nesting hnests hp hframes hdepth hle =>
      cases hp with
      | start nested hinner =>
        dsimp only
        split
        · next hlt =>
          have hbase := Nat.lt_of_le_of_lt (Nat.le_of_eq hdepth.symm) hlt
          exact .nesting hnests (.descend hbase hinner) hframes hdepth hle
        · exact .level (.peek _) (.activation _ hframes)
            (hdepth.trans (Frames.levels_returning ..).symm) hle
  | read =>
    cases h with
    | level hp hframes hdepth hle =>
      cases hp with
      | read hp => exact .level hp hframes hdepth hle
    | nesting _ hp => cases hp
  | readFault =>
    cases h with
    | level hp hframes hdepth hle => exact .level (.answer _) hframes hdepth hle
    | nesting _ hp => cases hp
  | descend =>
    cases h with
    | level hp => cases hp
    | nesting hnests hp hframes hdepth hle =>
      cases hp with
      | descend hbase hinner =>
        have hle := Nat.succ_le_of_lt (Nat.lt_of_le_of_lt (Nat.le_of_eq hdepth) hbase)
        exact .nesting hnests (.inside hinner) hframes (congrArg (· + 1) hdepth) hle
  | ascend =>
    cases h with
    | level hp => cases hp
    | @nesting _ production _ _ frames _ hnests hp hframes hdepth hle =>
      cases hp with
      | ascend a =>
        have hlevels := Frames.levels_returning production frames
        exact .level (.pure a) (.activation _ hframes)
          ((congrArg (· - 1) hdepth).trans hlevels.symm) (Nat.le_trans (Nat.sub_le _ _) hle)
  | @call _ p _ _ =>
    cases h with
    | level _ hframes hdepth hle =>
      obtain hlevel | ⟨hnests, nested, inner, hinner, heq⟩ := level_or_nest p
      · exact .level hlevel (.activation p hframes) (hdepth.trans (Frames.levels_returning ..).symm)
          hle
      · rw [heq]
        exact .nesting hnests (.start nested hinner) hframes hdepth hle
    | nesting _ hp => cases hp
  | loop =>
    cases h with
    | level hp hframes hdepth hle =>
      cases hp with
      | loop _ hstep =>
        refine .level (hstep _) (.next (fun next => ?_) hframes) hdepth hle
        cases next with
        | done => exact .answer _
        | yield => exact .loop _ hstep
    | nesting _ hp => cases hp
  | bind =>
    cases h with
    | level hp hframes hdepth hle =>
      cases hp with
      | bind hfirst hnext => exact .level hfirst (.next hnext hframes) hdepth hle
    | nesting hnests hp hframes hdepth hle =>
      cases hp with
      | inside hinner =>
        refine .level hinner (.inside hnests hframes) (hdepth.trans ?_) hle
        exact (Frames.levels_activation (fun _ => hnests) _).symm
  | next =>
    cases h with
    | level hp hframes hdepth hle =>
      cases hframes with
      | next hnext hframes => exact .level (hnext _) hframes hdepth hle
      | inside hnests hframes =>
        refine .nesting hnests (.ascend _) hframes (hdepth.trans ?_) hle
        exact Frames.levels_activation (fun _ => hnests) _
  | leave =>
    cases h with
    | level hp hframes hdepth hle =>
      cases hframes with
      | activation p hframes =>
        exact .level (.answer _) hframes (hdepth.trans (Frames.levels_returning ..)) hle
    | nesting _ hp => cases hp

theorem Reached.sound (h : s.Reached lines) : s.Sound := by
  induction h with
  | refl => exact .level .program .done rfl (Nat.zero_le _)
  | tail _ hstep ih => exact ih.step hstep

/-- What goes up a level is a level below, and does nothing else before it answers. -/
theorem Sound.of_ascend (h : Sound ⟨.ascend p, frames, reader⟩) :
    0 < reader.depth ∧ ∃ a production frames',
      p = .answer (.ok a) ∧ frames = .activation production true frames' := by
  cases h with
  | level hp => cases hp
  | nesting _ hp _ hdepth _ =>
    cases hp with
    | ascend a => exact ⟨hdepth ▸ Nat.succ_pos _, a, _, _, rfl, rfl⟩

theorem Sound.of_loop {l : Loop} {step : α → Procedure (ForInStep α)} {state : α}
    (h : Sound ⟨.loop l step state, frames, reader⟩) (state' : α) : Level (step state') := by
  cases h with
  | level hp =>
    cases hp with
    | loop _ hstep => exact hstep state'
  | nesting _ hp => cases hp

end State

/-- **Levels of nesting are counted exactly.** The compilation of some lines goes through states to
the end that it has. In each of these the count is that of the statements and terms in progress that
have descended, and is never above the limit; what goes up a level is a level below, and has only to
answer then. A production that comes to an answer leaves the count as it was, and so does every
round of a loop, so that no number of rounds uses up a level. -/
theorem nesting_exact (lines : List Line) :
    (∃ reader, Comes ⟨program, .done, .ofLines lines⟩ .done (parse lines) reader) ∧
      (∀ s : State, s.Reached lines →
        s.reader.depth = s.frames.levels ∧ s.reader.depth ≤ maxNesting) ∧
      (∀ {α : Type} (next : Procedure α) frames reader,
        State.Reached lines ⟨.ascend next, frames, reader⟩ →
        0 < reader.depth ∧ ∃ a production frames',
          next = .answer (.ok a) ∧ frames = .activation production true frames') ∧
      (∀ {α : Type} (production : Production α) reader events a reader',
        (call production).Runs reader events (.ok a) reader' → reader'.depth = reader.depth) ∧
      ∀ {σ : Type} l (step : σ → Procedure (ForInStep σ)) state frames reader,
        State.Reached lines ⟨.loop l step state, frames, reader⟩ →
        ∀ events next reader', (step state).Runs reader events (.ok next) reader' →
          reader'.depth = reader.depth := by
  refine ⟨?_, fun s hs => ⟨hs.sound.depth_eq, hs.sound.depth_le⟩, ?_, ?_, ?_⟩
  · obtain ⟨_, reader, _, _, hrun, -⟩ := exists_run lines
    exact ⟨reader, hrun.comes .done⟩
  · intro α next frames reader hs
    exact hs.sound.of_ascend
  · intro α production reader events a reader' hrun
    exact hrun.depth_call
  · intro σ l step state frames reader hs events next reader' hrun
    exact hrun.depth_eq (.inl ⟨hs.sound.of_loop state, rfl⟩) rfl

/-- A term in parentheses behind a sign. -/
def signedReturn : List Line := [.text "class A { function int f() { return -(2); } }".toList]

/-- Four levels are in progress at the number: the statements of the subroutine and three terms. -/
theorem nesting_exact_signedReturn : ∃ s : State, s.Reached signedReturn ∧
    s.frames.activations =
      [⟨.termBody, false⟩, ⟨.term, true⟩, ⟨.expression, false⟩, ⟨.termBody, false⟩, ⟨.term, true⟩,
        ⟨.termBody, false⟩, ⟨.term, true⟩, ⟨.expression, false⟩, ⟨.returnStatement, false⟩,
        ⟨.statements, true⟩, ⟨.subroutine, false⟩, ⟨.classDeclaration, false⟩] ∧
    s.frames.levels = 4 ∧ s.reader.depth = 4 := by
  have hactivations : ((State.after? 210 ⟨program, .done, .ofLines signedReturn⟩).map
      (·.frames.activations)) = some
      [⟨.termBody, false⟩, ⟨.term, true⟩, ⟨.expression, false⟩, ⟨.termBody, false⟩, ⟨.term, true⟩,
        ⟨.termBody, false⟩, ⟨.term, true⟩, ⟨.expression, false⟩, ⟨.returnStatement, false⟩,
        ⟨.statements, true⟩, ⟨.subroutine, false⟩, ⟨.classDeclaration, false⟩] := by
    decide +kernel
  obtain ⟨s, hafter, hactivations⟩ := Option.map_eq_some_iff.1 hactivations
  have hreached : s.Reached signedReturn := State.steps_of_after? hafter
  have hlevels : s.frames.levels = 4 := by rw [Frames.levels, hactivations]; rfl
  obtain ⟨-, hdepth, -⟩ := nesting_exact signedReturn
  exact ⟨s, hreached, hactivations, hlevels, (hdepth s hreached).1.trans hlevels⟩

end JackLang.Procedure
