import JackLang.Proofs.Syntax.Translation

/-! Where the instructions of a subroutine come from. A phrase adds instructions of its own to those
of the phrases in it (`Term.own`, `Statement.own`), so each instruction of a body is that of a
binary operator or one that a term or a statement in the body adds
(`Subroutine.stems_of_mem_translateAll`). -/

namespace JackLang.Syntax

variable {site : Site} {instr : Instr}

/-! ### Expressions -/

/-- The instructions that a term adds to those of its parts. -/
def Term.own (site : Site) : Term → List Instr
  | .integer value => [.push .constant value]
  | .string text => stringCode text
  | .constant keyword => constantCode keyword
  | .this => site.pushThis
  | .variable name => site.pushVariable name
  | .element array _ => site.pushVariable array ++ [.operate .add, .pop .pointer 1, .push .that 0]
  | .call qualifier subroutine arguments =>
    site.pushObject qualifier ++ [site.callInstr subroutine arguments.length qualifier]
  | .group _ => []
  | .unary op _ => [unaryInstr op]

/-- An instruction of an operator between terms, or one that some terms add. -/
def Stems (site : Site) (terms : List Term) (instr : Instr) : Prop :=
  (∃ op, instr = operatorInstr op) ∨ ∃ u ∈ terms, instr ∈ u.own site

section stems

variable {u : Term} {us vs : List Term}

theorem Stems.mono (h : Stems site us instr) (hsub : us ⊆ vs) : Stems site vs instr := by
  rcases h with hop | ⟨u, hu, hinstr⟩
  · exact .inl hop
  · exact .inr ⟨u, hsub hu, hinstr⟩

theorem stems_of_mem_own (h : instr ∈ u.own site) : Stems site (u :: us) instr :=
  .inr ⟨u, List.mem_cons_self, h⟩

theorem Stems.cons (h : Stems site us instr) : Stems site (u :: us) instr :=
  h.mono (List.subset_cons_self _ _)

theorem Stems.append_left (h : Stems site us instr) : Stems site (us ++ vs) instr :=
  h.mono (List.subset_append_left _ _)

theorem Stems.append_right (h : Stems site vs instr) : Stems site (us ++ vs) instr :=
  h.mono (List.subset_append_right _ _)

end stems

mutual

theorem Term.stems_of_mem_translate :
    ∀ {term : Term}, instr ∈ term.translate site → Stems site term.subterms instr
  | .integer _, h | .string _, h | .constant _, h | .this, h | .variable _, h => stems_of_mem_own h
  | .element array index, h => by
    rw [Term.translate, List.mem_append, List.mem_append] at h
    rcases h with h | h | h
    · exact stems_of_mem_own (List.mem_append_left _ h)
    · exact (Expression.stems_of_mem_translate h).cons
    · exact stems_of_mem_own (List.mem_append_right _ h)
  | .call qualifier subroutine arguments, h => by
    rw [Term.translate, List.mem_append, List.mem_append] at h
    rcases h with h | h | h
    · exact stems_of_mem_own (List.mem_append_left _ h)
    · exact (Expression.stems_of_mem_translateAll h).cons
    · exact stems_of_mem_own (List.mem_append_right _ h)
  | .group inner, h => by
    rw [Term.translate] at h
    exact (Expression.stems_of_mem_translate h).cons
  | .unary op operand, h => by
    rw [Term.translate, List.mem_append] at h
    rcases h with h | h
    · exact (Term.stems_of_mem_translate h).cons
    · exact stems_of_mem_own h
termination_by structural term => term

theorem Expression.stems_of_mem_translate : ∀ {expression : Expression},
    instr ∈ expression.translate site → Stems site expression.subterms instr
  | .mk first rest, h => by
    rw [Expression.translate, List.mem_append] at h
    rcases h with h | h
    · exact (Term.stems_of_mem_translate h).append_left
    · exact (Expression.stems_of_mem_translateRest h).append_right
termination_by structural expression => expression

theorem Expression.stems_of_mem_translateRest : ∀ {rest : List (Operator × Term)},
    instr ∈ Expression.translateRest site rest → Stems site (Expression.subtermsRest rest) instr
  | [], h => by cases h
  | (op, operand) :: rest, h => by
    rw [Expression.translateRest, List.mem_append, List.mem_cons] at h
    rcases h with h | h | h
    · exact (Term.stems_of_mem_translate h).append_left
    · exact .inl ⟨op, h⟩
    · exact (Expression.stems_of_mem_translateRest h).append_right
termination_by structural rest => rest

theorem Expression.stems_of_mem_translateAll : ∀ {expressions : List Expression},
    instr ∈ Expression.translateAll site expressions →
      Stems site (Expression.subtermsAll expressions) instr
  | [], h => by cases h
  | expression :: rest, h => by
    rw [Expression.translateAll, List.mem_append] at h
    rcases h with h | h
    · exact (Expression.stems_of_mem_translate h).append_left
    · exact (Expression.stems_of_mem_translateAll h).append_right
termination_by structural expressions => expressions

end

/-! ### Statements -/

/-- The instructions that a statement adds to those of its parts. -/
def Statement.own (site : Site) (subroutine : String) (n : Numbering) : Statement → List Instr
  | .assign target _ => site.popVariable target
  | .assignElement array _ _ => site.pushVariable array ++
      [.operate .add, .pop .temp 0, .pop .pointer 1, .push .temp 0, .pop .that 0]
  | .ifThen _ _ =>
    let otherwise := site.label subroutine "IF_FALSE" (n .if)
    [.operate .not, .ifGoto otherwise, .label otherwise]
  | .ifElse _ _ _ =>
    let otherwise := site.label subroutine "IF_FALSE" (n .if)
    let done := site.label subroutine "IF_END" (n .if)
    [.operate .not, .ifGoto otherwise, .goto done, .label otherwise, .label done]
  | .while _ _ =>
    let again := site.label subroutine "WHILE_EXP" (n .while)
    let done := site.label subroutine "WHILE_END" (n .while)
    [.label again, .operate .not, .ifGoto done, .goto again, .label done]
  | .call qualifier subroutine' arguments =>
    (Term.call qualifier subroutine' arguments).own site ++ [.pop .temp 0]
  | .return none => [.push .constant 0, .return]
  | .return (some _) => [.return]

/-- An instruction that a statement adds, or one of its terms or operators. -/
def Statement.Stems (site : Site) (subroutine : String) (statement : Statement) (instr : Instr) :
    Prop :=
  (∃ n, instr ∈ statement.own site subroutine n) ∨
    Syntax.Stems site (Expression.subtermsAll statement.expressions) instr

mutual

theorem Statement.exists_stems_of_mem_translate {subroutine : String} :
    ∀ {n : Numbering} {statement : Statement}, instr ∈ statement.translate site subroutine n →
      ∃ u ∈ statement.substatements, u.Stems site subroutine instr
  | n, .assign target value, h => by
    refine ⟨_, List.mem_cons_self, ?_⟩
    rw [Statement.translate, List.mem_append] at h
    rcases h with h | h
    · exact .inr (Expression.stems_of_mem_translate h).append_left
    · exact .inl ⟨n, h⟩
  | n, .assignElement array index value, h => by
    refine ⟨_, List.mem_cons_self, ?_⟩
    simp only [Statement.translate, List.mem_append, List.mem_cons] at h
    rcases h with h | h | h | h | h
    · exact .inl ⟨n, List.mem_append_left _ h⟩
    · exact .inr (Expression.stems_of_mem_translate h).append_left
    · exact .inl ⟨n, List.mem_append_right _ (h ▸ List.mem_cons_self)⟩
    · exact .inr (Expression.stems_of_mem_translate h).append_left.append_right
    · refine .inl ⟨n, List.mem_append_right _ (List.mem_cons_of_mem _ ?_)⟩
      simpa using h
  | n, .ifThen condition body, h => by
    simp only [Statement.translate, List.mem_append] at h
    rcases h with ((h | h) | h) | h
    · exact ⟨_, List.mem_cons_self, .inr (Expression.stems_of_mem_translate h).append_left⟩
    · exact ⟨_, List.mem_cons_self, .inl ⟨n, List.mem_append_left [_] h⟩⟩
    · obtain ⟨u, hu, hstems⟩ := Statement.exists_stems_of_mem_translateAll h
      exact ⟨u, List.mem_cons_of_mem _ hu, hstems⟩
    · exact ⟨_, List.mem_cons_self, .inl ⟨n, List.mem_append_right [_, _] h⟩⟩
  | n, .ifElse condition body alternative, h => by
    simp only [Statement.translate, List.mem_append] at h
    rcases h with ((((h | h) | h) | h) | h) | h
    · exact ⟨_, List.mem_cons_self, .inr (Expression.stems_of_mem_translate h).append_left⟩
    · exact ⟨_, List.mem_cons_self, .inl ⟨n, List.mem_append_left [_, _, _] h⟩⟩
    · obtain ⟨u, hu, hstems⟩ := Statement.exists_stems_of_mem_translateAll h
      exact ⟨u, List.mem_cons_of_mem _ (List.mem_append_left _ hu), hstems⟩
    · exact ⟨_, List.mem_cons_self,
        .inl ⟨n, List.mem_append_right [_, _] (List.mem_append_left [_] h)⟩⟩
    · obtain ⟨u, hu, hstems⟩ := Statement.exists_stems_of_mem_translateAll h
      exact ⟨u, List.mem_cons_of_mem _ (List.mem_append_right _ hu), hstems⟩
    · exact ⟨_, List.mem_cons_self, .inl ⟨n, List.mem_append_right [_, _, _, _] h⟩⟩
  | n, .while condition body, h => by
    simp only [Statement.translate, List.mem_append] at h
    rcases h with (((h | h) | h) | h) | h
    · exact ⟨_, List.mem_cons_self, .inl ⟨n, List.mem_append_left [_, _, _, _] h⟩⟩
    · exact ⟨_, List.mem_cons_self, .inr (Expression.stems_of_mem_translate h).append_left⟩
    · exact ⟨_, List.mem_cons_self,
        .inl ⟨n, List.mem_append_right [_] (List.mem_append_left [_, _] h)⟩⟩
    · obtain ⟨u, hu, hstems⟩ := Statement.exists_stems_of_mem_translateAll h
      exact ⟨u, List.mem_cons_of_mem _ hu, hstems⟩
    · exact ⟨_, List.mem_cons_self, .inl ⟨n, List.mem_append_right [_, _, _] h⟩⟩
  | n, .call qualifier subroutine' arguments, h => by
    refine ⟨_, List.mem_cons_self, ?_⟩
    simp only [Statement.translate, Term.translate, List.mem_append] at h
    rcases h with (h | h | h) | h
    · exact .inl ⟨n, List.mem_append_left _ (List.mem_append_left _ h)⟩
    · exact .inr (Expression.stems_of_mem_translateAll h)
    · exact .inl ⟨n, List.mem_append_left _ (List.mem_append_right _ h)⟩
    · exact .inl ⟨n, List.mem_append_right _ h⟩
  | n, .return none, h => ⟨_, List.mem_cons_self, .inl ⟨n, h⟩⟩
  | n, .return (some value), h => by
    refine ⟨_, List.mem_cons_self, ?_⟩
    rw [Statement.translate, List.mem_append] at h
    rcases h with h | h
    · exact .inr (Expression.stems_of_mem_translate h).append_left
    · exact .inl ⟨n, h⟩
termination_by structural _ statement => statement

theorem Statement.exists_stems_of_mem_translateAll {subroutine : String} :
    ∀ {n : Numbering} {statements : List Statement},
      instr ∈ Statement.translateAll site subroutine n statements →
        ∃ u ∈ Statement.substatementsAll statements, u.Stems site subroutine instr
  | _, [], h => by cases h
  | n, statement :: rest, h => by
    rw [Statement.translateAll, List.mem_append] at h
    rw [Statement.substatementsAll]
    rcases h with h | h
    · obtain ⟨u, hu, hstems⟩ := Statement.exists_stems_of_mem_translate h
      exact ⟨u, List.mem_append_left _ hu, hstems⟩
    · obtain ⟨u, hu, hstems⟩ := Statement.exists_stems_of_mem_translateAll h
      exact ⟨u, List.mem_append_right _ hu, hstems⟩
termination_by structural _ statements => statements

end

/-! ### Bodies -/

/-- An instruction of a body is that of an operator, or one that a term or a statement adds. -/
theorem Subroutine.stems_of_mem_translateAll {s : Subroutine} {subroutine : String} {n : Numbering}
    (h : instr ∈ Statement.translateAll site subroutine n s.body) :
    (∃ u ∈ s.statements, ∃ n, instr ∈ u.own site subroutine n) ∨ Stems site s.terms instr := by
  obtain ⟨u, hu, hown | hstems⟩ := Statement.exists_stems_of_mem_translateAll h
  · exact .inl ⟨u, hu, hown⟩
  · exact .inr (hstems.mono fun t ht => List.mem_flatMap.2 ⟨u, hu, ht⟩)

end JackLang.Syntax
