import JackLang.Proofs.Acceptance
import JackLang.Proofs.Emission
import JackLang.Proofs.Legibility
import JackLang.Proofs.Syntax.Unambiguity

/-! Correctness of the translation. A compiled source has one tree, which is valid
(`compile_sound`), and the lines of the text that is written for it are the translation of that tree
(`Compilation.code_eq_translate`). -/

namespace JackLang

/-- What compiles has one tree, whose translation is the code as far as calls count. -/
theorem compile_sound_capped {lines : List Line} {traced : Bool} {compiled : Compiled}
    (h : compile lines traced = .ok compiled) :
    ∃ c : Syntax.Class,
      (∀ c' : Syntax.Class, c'.tokens = (TokenStream.ofLines lines).texts ↔ c' = c) ∧ c.Valid ∧
        compiled.className = c.name ∧
          compiled.code.toList = c.translate.map Syntax.capped := by
  rw [compile_eq] at h
  cases hparse : parse lines with
  | error fault =>
    rw [hparse] at h
    cases h
  | ok t =>
    rw [hparse] at h
    cases h
    obtain ⟨-, c, htokens, hvalid, hresolve⟩ := parse_sound hparse
    refine ⟨c, fun c' => ⟨fun h => ?_, fun h => h ▸ htokens⟩, hvalid, ?_,
      Syntax.Class.toList_emit_capped hresolve⟩
    · exact Syntax.Class.tokens_injective (h.trans htokens.symm)
    · simp only [Syntax.Class.resolve?, Option.bind_eq_bind, Option.bind_eq_some_iff] at hresolve
      obtain ⟨_, -, heq⟩ := hresolve
      cases heq
      rfl

/-- What compiles has one tree, whose translation is the code. -/
theorem compile_sound {lines : List Line} {traced : Bool} {compiled : Compiled}
    (h : compile lines traced = .ok compiled) :
    ∃ c : Syntax.Class,
      (∀ c' : Syntax.Class, c'.tokens = (TokenStream.ofLines lines).texts ↔ c' = c) ∧ c.Valid ∧
        compiled.className = c.name ∧ (c.CallsFit → compiled.code.toList = c.translate) := by
  obtain ⟨c, hc, hvalid, hname, hcode⟩ := compile_sound_capped h
  exact ⟨c, hc, hvalid, hname, fun hfit => hcode.trans hfit.map_capped_translate⟩

/-- Compiled code is read back from its text. -/
theorem ofText?_render_of_compile {lines : List Line} {traced : Bool} {compiled : Compiled}
    (h : compile lines traced = .ok compiled) :
    Code.ofText? compiled.code.render = some compiled.code.toList := by
  obtain ⟨c, hc, hvalid, -, hcode⟩ := compile_sound_capped h
  have hwords : Syntax.Worded c.tokens := (hc c).2 rfl ▸ TokenStream.worded_texts lines
  refine Code.ofText?_render fun instr hinstr => ?_
  exact Syntax.Class.legible_of_mem_map_capped hvalid hwords
    (hcode ▸ Array.mem_toList_iff.2 hinstr)

namespace Compilation

/-- The output of a source is the code of its compilation, written out, and says what that is. -/
theorem exists_compiled {name source : String} {traced : Bool} {output : Output}
    (h : (ofText name source traced).outcome = .ok output) :
    ∃ compiled, compile (Line.ofText source) traced = .ok compiled ∧
      output.code = compiled.code.render ∧
      Code.ofText? output.code = some compiled.code.toList := by
  rw [ofText, ofLines] at h
  cases hcompile : compile (Line.ofText source) traced with
  | error fault =>
    rw [hcompile] at h
    cases h
  | ok compiled =>
    rw [hcompile] at h
    cases h
    exact ⟨compiled, rfl, rfl, ofText?_render_of_compile hcompile⟩

/-- **Translation correctness.** A source that compiles has one tree, and the lines of its code are
the translation of the tree. -/
theorem code_eq_translate {name source : String} {traced : Bool} {output : Output}
    (h : (ofText name source traced).outcome = .ok output) :
    ∃ c : Syntax.Class,
      (∀ c' : Syntax.Class, c'.tokens = (TokenStream.ofText source).texts ↔ c' = c) ∧ c.Valid ∧
        (c.CallsFit → output.code = Code.render c.translate.toArray ∧
          Code.ofText? output.code = some c.translate) := by
  obtain ⟨compiled, hcompile, hcode, htext⟩ := exists_compiled h
  obtain ⟨c, hc, hvalid, -, htranslate⟩ := compile_sound hcompile
  refine ⟨c, hc, hvalid, fun hfit => ?_⟩
  rw [← htranslate hfit, Array.toArray_toList]
  exact ⟨hcode, htext⟩

theorem code_eq_translate_counter : ∃ output,
    (ofText "Counter" Syntax.Counter.source false).outcome = .ok output ∧
      Code.ofText? output.code = some Syntax.Counter.tree.translate := by
  obtain ⟨output, h⟩ := Syntax.Counter.exists_output
  obtain ⟨c, hc, -, hcode⟩ := code_eq_translate h
  obtain rfl := (hc _).1 Syntax.Counter.tokens_tree
  exact ⟨output, h, (hcode (by decide)).2⟩

/-- The translation of a class of counters. -/
example : (Syntax.Counter.tree.translate.map Instr.text) = [
    "function Counter.next 0", "push argument 0", "pop pointer 0", "push argument 1",
    "push constant 0", "gt", "not", "if-goto Counter.next$IF_FALSE0", "push this 0",
    "push argument 1", "add", "pop this 0", "label Counter.next$IF_FALSE0", "push this 0",
    "return"] := by
  decide

end Compilation
end JackLang
