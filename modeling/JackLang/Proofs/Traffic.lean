import JackLang.Proofs.Engine.Class
import JackLang.Proofs.Procedure.Productions

/-! What a compilation asks of the lexer. The procedure of a whole source runs to an end on every
source, and ends as the parser does on its tokens. It has the lexer advance once to the first token
and once over each token that it consumes, and comes back to no production and to no round of a loop
before it has consumed a token (`Procedure.traffic_linear`). -/

namespace JackLang.Procedure

open Event (advances)

/-- The run of a whole source: the lexer advances once where nothing is current, and then over the
tokens that are consumed, all of them if a class is found; and so the run falls from the top. -/
theorem exists_run (lines : List Line) :
    ∃ events reader consumed ceiling,
      program.Runs (.ofLines lines) (.advance none :: events) (parse lines) reader ∧
        advances events = consumed.map some ∧ consumed <+: (TokenStream.ofLines lines).tokens ∧
        (∀ c, parse lines = .ok c → consumed = (TokenStream.ofLines lines).tokens) ∧
        Falls Site.top events ceiling := by
  obtain ⟨token?, lexer, hadvance, hfollows⟩ | ⟨fault, lexer, hadvance, hstart⟩ :=
    Lexer.advance_start (rfl : (Lexer.ofLines lines).peeked = none)
  · have hs : Reader.Follows { lexer } maxNesting (.ofLines lines) := ⟨hfollows, rfl⟩
    have hclass := Performs.wholeClass hs (Nat.le_refl _)
    rw [EStateM.run] at hclass
    rw [parse]
    generalize hresult : Parser.program (.ofLines lines) = result at hclass
    cases hclass with
    | ok hrun _ htokens hfalls _ =>
      rw [(Parser.program_eq_ok.1 hresult).2.2, List.map_nil, List.append_nil] at htokens
      exact ⟨_, _, _, _, .read hadvance hrun, htokens.symm, List.prefix_refl _, fun _ _ => rfl,
        hfalls⟩
    | error hrun hprefix hfalls =>
      obtain ⟨consumed, hconsumed, hadvances⟩ := List.prefix_map_iff.1 hprefix
      exact ⟨_, _, consumed, _, .read hadvance hrun, hadvances, hconsumed,
        (fun _ hok => by cases hok), hfalls⟩
  · change Parser.start.run (.ofLines lines) = .error fault (.ofLines lines) at hstart
    have hprogram : Parser.program.run (.ofLines lines) = .error fault (.ofLines lines) := by
      rw [Parser.program, EStateM.run_bind, hstart]
    rw [EStateM.run] at hprogram
    rw [parse, hprogram]
    exact ⟨[], _, [], _, .readFault hadvance, rfl, List.nil_prefix, (fun _ hok => by cases hok),
      .nil _⟩

/-- **Compilations terminate, with linear token traffic.** On any lines the procedure of a whole
source has one run, which ends as the lines parse. In it the lexer advances at most once more than
there are tokens before the end or the first fault, and just so often if the lines compile. Before
the run comes back to a production, or to a round of a loop, it consumes a token. -/
theorem traffic_linear (lines : List Line) :
    ∃ events reader,
      program.Runs (.ofLines lines) events (parse lines) reader ∧
      (∀ events' answer reader', program.Runs (.ofLines lines) events' answer reader' →
        events' = events ∧ answer = parse lines ∧ reader' = reader) ∧
      (advances events).length ≤ (TokenStream.ofLines lines).tokens.length + 1 ∧
      (∀ traced compiled, compile lines traced = .ok compiled →
        (advances events).length = (TokenStream.ofLines lines).tokens.length + 1) ∧
      ∀ before between after site view view',
        events = before ++ .reach site view :: (between ++ .reach site view' :: after) →
        ∃ token, .advance (some token) ∈ between := by
  obtain ⟨events, reader, consumed, ceiling, hrun, hadvances, hprefix, hall, hfalls⟩ :=
    exists_run lines
  have hlength : (advances (.advance none :: events)).length = consumed.length + 1 := by
    rw [advances, hadvances, List.length_cons, List.length_map]
  refine ⟨_, reader, hrun, fun _ _ _ h => hrun.unique h, ?_, ?_, ?_⟩
  · rw [hlength]
    exact Nat.succ_le_succ hprefix.length_le
  · intro traced compiled hcompile
    rw [hlength]
    cases hparse : parse lines with
    | error fault =>
      rw [compile_eq, hparse] at hcompile
      cases hcompile
    | ok c => rw [hall c hparse]
  · intro before between after site view view' heq
    -- The first advance comes before every site.
    cases before with
    | nil => cases heq
    | cons event before =>
      cases heq
      obtain ⟨current?, hmem⟩ := hfalls.exists_advance
      have hconsumed : current? ∈ consumed.map some := by
        rw [← hadvances, Event.mem_advances]
        exact List.mem_append_right _ (List.mem_cons_of_mem _ (List.mem_append_left _ hmem))
      obtain ⟨token, -, rfl⟩ := List.mem_map.1 hconsumed
      exact ⟨token, hmem⟩

example : (program.run? 20 (.ofLines [.text "class A {}".toList])).map
    (fun run => (advances run.1).length) = some 5 := by decide +kernel

end JackLang.Procedure
