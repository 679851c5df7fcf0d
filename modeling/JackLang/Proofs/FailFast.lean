import JackLang.Proofs.Acceptance
import JackLang.Proofs.Lockstep.Productions
import JackLang.Proofs.Scanning

/-! Readers that fail. A line that cannot be read ends the compilation, unless an error comes before
it; and such an error comes of the lines before it alone, whatever the reader would have delivered
(`Compilation.error_of_unreadable`). -/

namespace JackLang

namespace TokenStream

/-- The tokens that were there first stand beside any that come behind them. -/
theorem Alongside.append (tokens rest : List Located) : Alongside Eq tokens (tokens ++ rest) := by
  induction tokens with
  | nil => exact .nil _
  | cons token tokens ih => exact .cons token.token rfl ih

/-- Lines of which one cannot be read end in a fault. Either it comes before, and stands whatever comes
behind the lines; or it is that line, and the tokens before it stay. -/
theorem ofLines_unreadable (lines : List (List Char)) (reason : String) (rest : List Line) :
    ∃ fault, (ofLines (lines.map .text ++ .unreadable reason :: rest)).fault? = some fault ∧
      ((∀ rest', ofLines (lines.map .text ++ rest') =
          ofLines (lines.map .text ++ .unreadable reason :: rest)) ∨
        fault = .unreadable (lines.length + 1) reason ∧
          ∀ rest', (ofLines (lines.map .text ++ .unreadable reason :: rest)).Beside Eq
            (ofLines (lines.map .text ++ rest'))) := by
  have hreadable : Scanner.Readable { lines := lines.map .text } := by
    intro line hline
    obtain ⟨chars, -, rfl⟩ := List.mem_map.1 hline
    exact ⟨chars, rfl⟩
  have hextend more : ofLines (lines.map .text ++ more) =
      (Scanner.extend { lines := lines.map .text } more).stream [] := rfl
  simp only [hextend]
  obtain ⟨stream, fault, hfault, h⟩ | ⟨s', read, ⟨hrest, hlines⟩, hline, h⟩ :=
    Scanner.stream_extend hreadable []
  · simp only [h]
    exact ⟨fault, hfault, .inl fun _ => trivial⟩
  · have hscan : (s'.extend (.unreadable reason :: rest)).scan =
        .error (.unreadable (s'.line + 1) reason) ⟨[], s'.line, s'.column, s'.comment, rest⟩ := by
      rw [Scanner.extend, hlines, Scanner.scan, Scanner.scan.go, hrest, scanLine]
      rfl
    have hnumber : s'.line = lines.length := by
      rw [hline, Scanner.lastLine, List.length_map, Nat.zero_add]
    rw [h, Scanner.stream_of_error hscan, hnumber]
    refine ⟨_, rfl, .inr ⟨rfl, fun rest' => ⟨?_, fun hnone => by cases hnone⟩⟩⟩
    obtain ⟨more, hmore⟩ := Scanner.reverse_prefix_stream (s'.extend rest') read
    rw [h, ← hmore]
    exact .append read.reverse more

end TokenStream

/-- Compilation sees the tokens of its lines alone. -/
theorem compile_congr {lines lines' : List Line}
    (h : TokenStream.ofLines lines = .ofLines lines') (traced : Bool) :
    compile lines traced = compile lines' traced := by
  rw [compile_eq, compile_eq, parse, parse, h]

theorem exists_compile_error {lines : List Line} {fault : Fault}
    (h : (TokenStream.ofLines lines).fault? = some fault) (traced : Bool) :
    ∃ fault', compile lines traced = .error fault' := by
  rw [compile_eq]
  cases hparse : parse lines with
  | ok t => cases h.symm.trans (parse_sound hparse).1
  | error fault' => exact ⟨fault', rfl⟩

namespace Compilation

/-- **Failing readers.** Where a line cannot be read behind some that can, there is an error and no
output: the failure itself, or an error that those lines get whatever comes behind them. -/
theorem error_of_unreadable (name source : String) (lines : List (List Char)) (reason : String)
    (rest : List Line) (traced : Bool) :
    ∃ error, (ofLines name source (lines.map .text ++ .unreadable reason :: rest) traced).outcome =
        .error error ∧
      (error = .read (lines.length + 1) reason ∨
        ∀ rest', (ofLines name source (lines.map .text ++ rest') traced).outcome = .error error) := by
  obtain ⟨fault, hfault, hstream⟩ := TokenStream.ofLines_unreadable lines reason rest
  obtain ⟨fault', herror⟩ := exists_compile_error hfault traced
  simp only [ofLines, herror]
  refine ⟨_, rfl, or_iff_not_imp_left.2 fun hread rest' => ?_⟩
  suffices compile (lines.map .text ++ rest') traced = .error fault' by rw [this]
  obtain hsame | ⟨rfl, hbeside⟩ := hstream
  · rw [compile_congr (hsame rest'), herror]
  · obtain ⟨_, hok, -⟩ | ⟨_, _, h, h', hfaults⟩ | ⟨_, h, hcut⟩ :=
      compile_alike traced (hbeside rest')
    · cases herror.symm.trans hok
    · cases herror.symm.trans h
      rw [h', hfaults.eq]
    · cases herror.symm.trans h
      cases hcut.symm.trans hfault
      exact absurd rfl hread

/-- Behind the last brace the parser still asks whether a token follows. -/
example : (ofLines "A" "" [.text "class A { }".toList, .unreadable "gone"] false).outcome =
    .error (.read 2 "gone") := by
  decide +kernel

/-- A token that cannot follow is at fault before the failure behind it is met. -/
example : (ofLines "A" "" [.text "class { }".toList, .unreadable "gone"] false).outcome =
    .error (.syntactic ⟨1, 7⟩ "identifier" "symbol '\x7b'") := by
  decide +kernel

end Compilation
end JackLang
