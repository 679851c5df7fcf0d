import JackLang.Proofs.Compilation

/-! Operands and frames. Compiled code is read back from its text. In each block it uses the cells
that the subroutine has for its variables, and no others (`Compilation.operands_in_frame`). -/

namespace JackLang

open Machine

namespace Syntax

theorem Extent.allows_capped_iff {e : Extent} : e.Allows (capped instr) ↔ e.Allows instr := by
  cases instr <;> exact Iff.rfl

end Syntax

namespace Compilation

/-- **Operands in the frame.** The code of a source that compiles is read back from its text. It has
a block for each subroutine and no line outside them, and each block stays inside the extent that
the declarations and its `function` line give it. -/
theorem operands_in_frame {name source : String} {traced : Bool} {output : Output}
    (h : (ofText name source traced).outcome = .ok output) :
    ∃ code, Code.ofText? output.code = some code ∧
      (∀ i < code.length, ∃ line block, Syntax.IsBlock code line block ∧ line ≤ i ∧
        i < line + block.length) ∧
      ∃ c : Syntax.Class,
        (∀ c' : Syntax.Class, c'.tokens = (TokenStream.ofText source).texts ↔ c' = c) ∧
        code.countP Syntax.isFunction = c.subroutines.length ∧
        ∀ line block, Syntax.IsBlock code line block →
          ∃ s locals, c.subroutines[(code.take line).countP Syntax.isFunction]? = some s ∧
            block.head? = some (.function s!"{c.name}.{s.name}" locals) ∧
            ∀ instr ∈ block, (c.extent s locals).Allows instr := by
  obtain ⟨compiled, hcompile, -, htext⟩ := exists_compiled h
  obtain ⟨c, hc, hvalid, -, htranslate⟩ := compile_sound_capped hcompile
  have hwords : Syntax.Worded c.tokens := (hc c).2 rfl ▸ TokenStream.worded_texts _
  refine ⟨compiled.code.toList, htext, ?_, c, hc, ?_, ?_⟩
  · rw [htranslate]
    exact fun i hi => Syntax.Class.exists_isBlock_map_capped hi
  · rw [htranslate, Syntax.countP_isFunction_map_capped, Syntax.Class.translate_eq_blocks]
    exact Syntax.Class.countP_isFunction_blocks (Nat.le_refl _)
  · intro line block hblock
    rw [htranslate] at hblock ⊢
    obtain ⟨k, s, hs, -, rfl, hk⟩ := Syntax.Class.exists_of_isBlock_map_capped hblock
    refine ⟨s, s.localCount, by rw [hk, hs], rfl, fun instr hinstr => ?_⟩
    obtain ⟨instr, hmem, rfl⟩ := List.mem_map.1 hinstr
    exact Syntax.Extent.allows_capped_iff.2
      (Syntax.Class.allows_of_mem_block hvalid hwords (List.mem_of_getElem? hs) hmem)

/-- A method has its object and a parameter for arguments, and the class has one field. -/
theorem operands_in_frame_counter : ∃ output code line block locals,
    (ofText "Counter" Syntax.Counter.source false).outcome = .ok output ∧
      Code.ofText? output.code = some code ∧ Syntax.IsBlock code line block ∧
      block.head? = some (.function "Counter.next" locals) ∧
      ∀ instr ∈ block, (⟨locals, 2, 0, 1⟩ : Syntax.Extent).Allows instr := by
  obtain ⟨output, h⟩ := Syntax.Counter.exists_output
  obtain ⟨code, hcode, hblocks, c, hc, hcount, hframe⟩ := operands_in_frame h
  obtain rfl := (hc _).1 Syntax.Counter.tokens_tree
  have hlength : 0 < code.length := by
    calc 0 < Syntax.Counter.tree.subroutines.length := by decide
      _ = code.countP Syntax.isFunction := hcount.symm
      _ ≤ code.length := List.countP_le_length
  obtain ⟨line, block, hblock, -, -⟩ := hblocks 0 hlength
  obtain ⟨s, locals, hs, hhead, hallows⟩ := hframe line block hblock
  obtain rfl := List.mem_singleton.1 (List.mem_of_getElem? hs)
  exact ⟨output, code, line, block, locals, h, hcode, hblock, hhead, hallows⟩

end Compilation
end JackLang
