import JackLang.Proofs.Listing
import JackLang.Proofs.Operands
import JackLang.Proofs.Syntax.Extent
import JackLang.Proofs.Syntax.Jumps

/-! Legible code. Names in the code of a valid class are words and labels made of words, and numbers
are counts, so its text can be read back (`Syntax.Class.legible_of_mem_map_capped`). -/

namespace JackLang

open Machine Instr

/-! ### Names -/

theorem Instr.Undivided.append {xs ys : String} (hxs : Undivided xs) (hys : Undivided ys) :
    Undivided (xs ++ ys) := by
  intro c hc
  rw [String.toList_append, List.mem_append] at hc
  exact hc.elim (hxs c) (hys c)

theorem IsWord.undivided {word : String} (h : IsWord word) : Undivided word := by
  intro c hc
  have hchar := h.2 c hc
  constructor <;> rintro rfl <;> exact absurd hchar (by decide)

theorem IsFunctionName.undivided {name : String} (h : IsFunctionName name) :
    name ≠ "" ∧ Undivided name := by
  obtain ⟨className, subroutine, hclass, hsubroutine, rfl⟩ := h
  have hdot : Undivided "." := by decide
  refine ⟨?_, (hclass.undivided.append hdot).append hsubroutine.undivided⟩
  intro hempty
  exact hclass.1 (String.append_eq_empty_iff.1 (String.append_eq_empty_iff.1 hempty).1).1

namespace Syntax

variable {c : Class} {s : Subroutine} {k : Nat} {instr : Instr} {name : String}

theorem IsLabel.undivided {site : Site} {subroutine : String} {construct : Construct}
    {number : Nat} (h : IsLabel site subroutine construct number name)
    (hclass : IsWord site.className) (hsubroutine : IsWord subroutine) :
    name ≠ "" ∧ Undivided name := by
  have hlabel {base : String} (hbase : Undivided base) :
      site.label subroutine base number ≠ "" ∧
        Undivided (site.label subroutine base number) := by
    have hdot : Undivided "." ∧ Undivided "$" := by decide
    have hname := (hclass.undivided.append hdot.1).append hsubroutine.undivided
    refine ⟨?_, ((hname.append hdot.2).append hbase).append (undivided_repr _)⟩
    intro hempty
    have htoList := congrArg String.toList hempty
    rw [Site.toList_label] at htoList
    simp at htoList
  have hbases : Undivided construct.firstBase ∧ Undivided construct.secondBase := by
    cases construct <;> decide
  rcases h with rfl | rfl
  · exact hlabel hbases.1
  · exact hlabel hbases.2

theorem Class.undivided_of_mem_labels_block (hwords : Worded c.tokens) (hs : s ∈ c.subroutines)
    (h : name ∈ labels (c.block k s)) : name ≠ "" ∧ Undivided name := by
  obtain ⟨construct, number, -, -, hlabel⟩ := (c.labelsBetween_block k s).isLabel name h
  refine hlabel.undivided (hwords c.name (by simp [Class.tokens])) (hwords s.name ?_)
  exact tokens_subset_of_mem_subroutines hs (by simp [Subroutine.tokens])

/-! ### Numbers -/

/-- A class has no more variables of a kind than a count can tell. -/
theorem Class.Valid.count_extent_le (hc : c.Valid) (hs : s ∈ c.subroutines) (kind : VarKind) :
    (c.extent s s.localCount).count kind ≤ maxCount := by
  have hvalid := hc.subroutines s hs
  cases kind with
  | static => exact Nat.le_trans (Nat.le_of_eq (c.count_declared .static).symm) hc.statics_le
  | field => exact Nat.le_trans (Nat.le_of_eq (c.count_declared .field).symm) hc.fields_le
  | argument =>
    exact Nat.le_trans (Nat.le_of_eq (s.count_declared c.name .argument).symm) hvalid.arguments_le
  | «local» =>
    exact Nat.le_trans (Nat.le_of_eq (s.count_declared c.name .local).symm) hvalid.locals_le

theorem Extent.Covers.le_maxCount {e : Extent} {segment : Segment} {i : Nat}
    (h : e.Covers segment i) (he : ∀ kind, e.count kind ≤ maxCount) : i ≤ maxCount := by
  have hconstant : maxConstant ≤ maxCount := by decide
  have hpointer : 1 ≤ maxCount := by decide
  cases segment with
  | constant => exact Nat.le_trans h hconstant
  | argument => exact Nat.le_trans (Nat.le_of_lt h) (he .argument)
  | «local» => exact Nat.le_trans (Nat.le_of_lt h) (he .local)
  | static => exact Nat.le_trans (Nat.le_of_lt h) (he .static)
  | this => exact Nat.le_trans (Nat.le_of_lt h) (he .field)
  | pointer => exact Nat.le_trans h hpointer
  | that | temp => exact Nat.le_trans (Nat.le_of_eq h) (Nat.zero_le _)

theorem Extent.Covers.le_lastIndex {e : Extent} {segment : Segment} {i : Nat}
    (h : e.Covers segment i) : ∀ last ∈ segment.lastIndex?, i ≤ last := by
  cases segment with
  | pointer =>
    rintro _ ⟨⟩
    exact h
  | temp =>
    rintro _ ⟨⟩
    exact Nat.le_trans (Nat.le_of_eq h) (Nat.zero_le _)
  | _ => rintro _ ⟨⟩

/-! ### Legible code -/

theorem Class.legible_capped_of_mem_block (hc : c.Valid) (hwords : Worded c.tokens)
    (hs : s ∈ c.subroutines) (h : instr ∈ c.block k s) : (capped instr).Legible := by
  have hallows := allows_of_mem_block hc hwords hs h
  have hcount := hc.count_extent_le hs
  have hlabel (name : String) (hname : name ∈ labels (c.block k s)) :
      name ≠ "" ∧ Undivided name := undivided_of_mem_labels_block hwords hs hname
  have hjump (name : String) (hjump : jump? instr = some name) : name ∈ labels (c.block k s) :=
    c.jumps_subset_labels_block k s (List.mem_filterMap.2 ⟨instr, h, hjump⟩)
  have hnone {P : String → Prop} : ∀ name ∈ none, P name := by rintro _ ⟨⟩
  have hnone' {P : Nat → Prop} : ∀ n ∈ none, P n := by rintro _ ⟨⟩
  cases instr with
  | push segment i =>
    refine ⟨hnone, ?_, fault?_push_eq_none_iff.2 hallows.le_lastIndex⟩
    rintro _ ⟨⟩
    exact hallows.le_maxCount hcount
  | pop segment i =>
    refine ⟨hnone, ?_, fault?_pop_eq_none_iff.2 ⟨hallows.1, hallows.2.le_lastIndex⟩⟩
    rintro _ ⟨⟩
    exact hallows.2.le_maxCount hcount
  | operate operation => exact ⟨hnone, hnone', rfl⟩
  | «return» => exact ⟨hnone, hnone', rfl⟩
  | label name =>
    refine ⟨?_, hnone', rfl⟩
    rintro _ ⟨⟩
    exact hlabel name (List.mem_filterMap.2 ⟨_, h, rfl⟩)
  | goto name | ifGoto name =>
    refine ⟨?_, hnone', rfl⟩
    rintro _ ⟨⟩
    exact hlabel name (hjump name rfl)
  | call name n =>
    refine ⟨?_, ?_, rfl⟩
    · rintro _ ⟨⟩
      exact hallows.undivided
    · rintro _ ⟨⟩
      exact Nat.min_le_right _ _
  | function name locals =>
    refine ⟨?_, ?_, rfl⟩
    · rintro _ ⟨⟩
      exact hallows.undivided
    · rintro _ ⟨⟩
      rcases List.mem_cons.1 h with heq | htail
      · cases heq
        exact hcount .local
      · exact absurd rfl (List.any_eq_false.1 (c.any_isFunction_tail_block k s) _ htail)

/-- All that is written for a class can be read back. -/
theorem Class.legible_of_mem_map_capped (hc : c.Valid) (hwords : Worded c.tokens)
    (h : instr ∈ c.translate.map capped) : instr.Legible := by
  obtain ⟨instr, hmem, rfl⟩ := List.mem_map.1 h
  obtain ⟨i, hi⟩ := List.getElem?_of_mem hmem
  obtain ⟨k, s, i', hs, -, hi'⟩ := exists_block_of_getElem? hi
  exact legible_capped_of_mem_block hc hwords (List.mem_of_getElem? hs) (List.mem_of_getElem? hi')

end Syntax

namespace TokenStream

theorem worded_texts (lines : List Line) : Syntax.Worded (ofLines lines).texts :=
  fun _ hname => (legible_of_mem_texts hname).isWord

end TokenStream

end JackLang
