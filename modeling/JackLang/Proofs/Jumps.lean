import JackLang.Proofs.Compilation

/-! Labels and jumps of compiled code. A listing is resolved if it sets each label once and every jump
stands in one block with the label that it goes to (`Resolved`). The translation of a class is, since
its labels are distinct and each block sets the labels that it jumps to; cutting off the counts of
calls changes neither. -/

namespace JackLang

open Machine

namespace Syntax

/-! ### Resolved listings -/

/-- Each label is set once, and every jump goes to a label in its own block. -/
structure Resolved (code : List Instr) : Prop where
  nodup : (labels code).Nodup
  jump : ∀ i instr name, code[i]? = some instr → jump? instr = some name →
    ∃ line block, IsBlock code line block ∧ (line ≤ i ∧ i < line + block.length) ∧
      ∃ j, (line ≤ j ∧ j < line + block.length) ∧ ∀ j', code[j']? = some (.label name) ↔ j' = j

variable {code block : List Instr} {line i j : Nat} {instr : Instr} {name : String}

theorem eq_of_getElem?_label (hcode : (labels code).Nodup) (hi : code[i]? = some (.label name))
    (hj : code[j]? = some (.label name)) : i = j := by
  have h := (target?_eq_some hcode hi).symm.trans (target?_eq_some hcode hj)
  exact Option.some.inj h

/-! ### Counts that are cut off -/

theorem Resolved.map_capped (h : Resolved code) : Resolved (code.map capped) where
  nodup := by
    rw [labels_map_capped]
    exact h.nodup
  jump := by
    intro i instr name hi hjump
    rw [List.getElem?_map, Option.map_eq_some_iff] at hi
    obtain ⟨instr, hi, rfl⟩ := hi
    rw [jump?_capped] at hjump
    obtain ⟨line, block, hblock, hline, j, hj, hlabel⟩ := h.jump i instr name hi hjump
    refine ⟨line, block.map capped, hblock.map_capped, ?_, j, ?_, fun j' => ?_⟩
    · rwa [List.length_map]
    · rwa [List.length_map]
    · rw [← hlabel, List.getElem?_map, Option.map_eq_some_iff]
      simp only [capped_eq_label_iff, exists_eq_right]

/-! ### Classes -/

namespace Class

variable {c : Class} {s : Subroutine} {k : Nat}

theorem resolved_translate (hfit : c.LabelsFit) : Resolved c.translate where
  nodup := nodup_labels_translate hfit
  jump := by
    intro i instr name hi hjump
    obtain ⟨k, s, i', hs, rfl, hi'⟩ := exists_block_of_getElem? hi
    have hblock := isBlock_block hs
    have hname : name ∈ labels (c.block k s) :=
      c.jumps_subset_labels_block k s (List.mem_filterMap.2 ⟨instr, List.mem_of_getElem? hi', hjump⟩)
    obtain ⟨j, hj⟩ := exists_of_mem_labels hname
    have hlabel := getElem?_of_at hblock.isAt hj
    have hi_lt := (List.getElem?_eq_some_iff.1 hi').1
    have hj_lt := (List.getElem?_eq_some_iff.1 hj).1
    refine ⟨_, _, hblock, ⟨Nat.le_add_right _ _, Nat.add_lt_add_left hi_lt _⟩, _,
      ⟨Nat.le_add_right _ _, Nat.add_lt_add_left hj_lt _⟩, fun j' => ⟨fun hj' => ?_, ?_⟩⟩
    · exact eq_of_getElem?_label (nodup_labels_translate hfit) hj' hlabel
    · rintro rfl
      exact hlabel

end Class
end Syntax

namespace Compilation

/-- **Labels and jumps.** The code of a source that compiles sets each label once, and every jump
goes to a label in its own block, as long as 32 bits hold the numbers of the labels. -/
theorem labels_resolved {name source : String} {traced : Bool} {output : Output}
    (h : (ofText name source traced).outcome = .ok output) :
    ∃ compiled, compile (Line.ofText source) traced = .ok compiled ∧
      output.code = compiled.code.render ∧
      Code.ofText? output.code = some compiled.code.toList ∧
      ∃ c : Syntax.Class,
        (∀ c' : Syntax.Class, c'.tokens = (TokenStream.ofText source).texts ↔ c' = c) ∧
        (c.LabelsFit → Syntax.Resolved compiled.code.toList) := by
  obtain ⟨compiled, hcompile, hcode, htext⟩ := exists_compiled h
  obtain ⟨c, hc, -, -, htranslate⟩ := compile_sound_capped hcompile
  refine ⟨compiled, hcompile, hcode, htext, c, hc, fun hfit => ?_⟩
  rw [htranslate]
  exact (Syntax.Class.resolved_translate hfit).map_capped

theorem labels_resolved_counter : ∃ output code,
    (ofText "Counter" Syntax.Counter.source false).outcome = .ok output ∧
      Code.ofText? output.code = some code ∧ Syntax.Resolved code := by
  obtain ⟨output, h⟩ := Syntax.Counter.exists_output
  obtain ⟨compiled, -, -, htext, c, hc, hresolved⟩ := labels_resolved h
  obtain rfl := (hc _).1 Syntax.Counter.tokens_tree
  exact ⟨output, _, h, htext, hresolved (by decide)⟩

end Compilation
end JackLang
