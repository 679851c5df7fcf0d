import JackLang.Proofs.Syntax.Tree
import JackLang.Proofs.TokenStream
import Mathlib.Tactic.Choose

/-! The grammar does not look at names and constants: with each of them replaced by another, the
tokens of a class are those of a class (`Class.exists_tokens_eq_map`). -/

namespace JackLang

/-- A change of tokens that changes names and constants only, each to one of its sort. -/
structure Token.Renaming where
  rename : Token → Token
  keyword : ∀ k, rename (.keyword k) = .keyword k
  symbol : ∀ s, rename (.symbol s) = .symbol s
  integer : ∀ value, ∃ value', rename (.integer value) = .integer value'
  string : ∀ text, ∃ text', rename (.string text) = .string text'
  identifier : ∀ name, ∃ name', rename (.identifier name) = .identifier name'

namespace Syntax

open Token (Renaming)

variable (r : Renaming)

attribute [simp] Renaming.keyword Renaming.symbol

theorem exists_callNames_eq_map (qualifier : Option String) (subroutine : String) :
    ∃ qualifier' subroutine', callNames subroutine' qualifier' =
      (callNames subroutine qualifier).map r.rename := by
  obtain ⟨subroutine', hsubroutine⟩ := r.identifier subroutine
  cases qualifier with
  | none => exact ⟨none, subroutine', by simp [callNames, hsubroutine]⟩
  | some qualifier =>
    obtain ⟨qualifier', hqualifier⟩ := r.identifier qualifier
    exact ⟨some qualifier', subroutine', by simp [callNames, hsubroutine, hqualifier]⟩

mutual

theorem Term.exists_tokens_eq_map : ∀ term : Term, ∃ term' : Term,
    term'.tokens = term.tokens.map r.rename
  | .integer value => by
    obtain ⟨value', hvalue⟩ := r.integer value
    exact ⟨.integer value', by simp [Term.tokens, hvalue]⟩
  | .string text => by
    obtain ⟨text', htext⟩ := r.string text
    exact ⟨.string text', by simp [Term.tokens, htext]⟩
  | .constant constant => ⟨.constant constant, by simp [Term.tokens]⟩
  | .this => ⟨.this, by simp [Term.tokens]⟩
  | .variable name => by
    obtain ⟨name', hname⟩ := r.identifier name
    exact ⟨.variable name', by simp [Term.tokens, hname]⟩
  | .element array index => by
    obtain ⟨array', harray⟩ := r.identifier array
    obtain ⟨index', hindex⟩ := index.exists_tokens_eq_map
    exact ⟨.element array' index', by simp [Term.tokens, inBrackets, harray, hindex]⟩
  | .call qualifier subroutine arguments => by
    obtain ⟨qualifier', subroutine', hnames⟩ := exists_callNames_eq_map r qualifier subroutine
    obtain ⟨arguments', harguments⟩ := Expression.exists_tokensAll_eq_map arguments
    exact ⟨.call qualifier' subroutine' arguments', by simp [Term.tokens, inParens, hnames, harguments]⟩
  | .group inner => by
    obtain ⟨inner', hinner⟩ := inner.exists_tokens_eq_map
    exact ⟨.group inner', by simp [Term.tokens, inParens, hinner]⟩
  | .unary op operand => by
    obtain ⟨operand', hoperand⟩ := operand.exists_tokens_eq_map
    exact ⟨.unary op operand', by simp [Term.tokens, hoperand]⟩
termination_by structural term => term

theorem Expression.exists_tokens_eq_map : ∀ expression : Expression, ∃ expression' : Expression,
    expression'.tokens = expression.tokens.map r.rename
  | .mk first rest => by
    obtain ⟨first', hfirst⟩ := first.exists_tokens_eq_map
    obtain ⟨rest', hrest⟩ := Expression.exists_tokensRest_eq_map rest
    exact ⟨.mk first' rest', by simp [Expression.tokens, hfirst, hrest]⟩
termination_by structural expression => expression

theorem Expression.exists_tokensRest_eq_map : ∀ rest : List (Operator × Term),
    ∃ rest', Expression.tokensRest rest' = (Expression.tokensRest rest).map r.rename
  | [] => ⟨[], rfl⟩
  | (op, operand) :: rest => by
    obtain ⟨operand', hoperand⟩ := operand.exists_tokens_eq_map
    obtain ⟨rest', hrest⟩ := Expression.exists_tokensRest_eq_map rest
    exact ⟨(op, operand') :: rest', by simp [Expression.tokensRest, hoperand, hrest]⟩
termination_by structural rest => rest

theorem Expression.exists_tokensAll_eq_map : ∀ expressions : List Expression,
    ∃ expressions', Expression.tokensAll expressions' =
      (Expression.tokensAll expressions).map r.rename
  | [] => ⟨[], rfl⟩
  | expression :: rest => by
    obtain ⟨expression', hexpression⟩ := expression.exists_tokens_eq_map
    obtain ⟨rest', hrest⟩ := Expression.exists_tokensMore_eq_map rest
    exact ⟨expression' :: rest', by simp [Expression.tokensAll, hexpression, hrest]⟩
termination_by structural expressions => expressions

theorem Expression.exists_tokensMore_eq_map : ∀ expressions : List Expression,
    ∃ expressions', Expression.tokensMore expressions' =
      (Expression.tokensMore expressions).map r.rename
  | [] => ⟨[], rfl⟩
  | expression :: rest => by
    obtain ⟨expression', hexpression⟩ := expression.exists_tokens_eq_map
    obtain ⟨rest', hrest⟩ := Expression.exists_tokensMore_eq_map rest
    exact ⟨expression' :: rest', by simp [Expression.tokensMore, hexpression, hrest]⟩
termination_by structural expressions => expressions

end

mutual

theorem Statement.exists_tokens_eq_map : ∀ statement : Statement, ∃ statement' : Statement,
    statement'.tokens = statement.tokens.map r.rename
  | .assign target value => by
    obtain ⟨target', htarget⟩ := r.identifier target
    obtain ⟨value', hvalue⟩ := value.exists_tokens_eq_map r
    exact ⟨.assign target' value', by simp [Statement.tokens, htarget, hvalue]⟩
  | .assignElement array index value => by
    obtain ⟨array', harray⟩ := r.identifier array
    obtain ⟨index', hindex⟩ := index.exists_tokens_eq_map r
    obtain ⟨value', hvalue⟩ := value.exists_tokens_eq_map r
    exact ⟨.assignElement array' index' value',
      by simp [Statement.tokens, inBrackets, harray, hindex, hvalue]⟩
  | .ifThen condition body => by
    obtain ⟨condition', hcondition⟩ := condition.exists_tokens_eq_map r
    obtain ⟨body', hbody⟩ := Statement.exists_tokensAll_eq_map body
    exact ⟨.ifThen condition' body',
      by simp [Statement.tokens, inParens, inBraces, hcondition, hbody]⟩
  | .ifElse condition body alternative => by
    obtain ⟨condition', hcondition⟩ := condition.exists_tokens_eq_map r
    obtain ⟨body', hbody⟩ := Statement.exists_tokensAll_eq_map body
    obtain ⟨alternative', halternative⟩ := Statement.exists_tokensAll_eq_map alternative
    exact ⟨.ifElse condition' body' alternative',
      by simp [Statement.tokens, inParens, inBraces, hcondition, hbody, halternative]⟩
  | .while condition body => by
    obtain ⟨condition', hcondition⟩ := condition.exists_tokens_eq_map r
    obtain ⟨body', hbody⟩ := Statement.exists_tokensAll_eq_map body
    exact ⟨.while condition' body',
      by simp [Statement.tokens, inParens, inBraces, hcondition, hbody]⟩
  | .call qualifier subroutine arguments => by
    obtain ⟨qualifier', subroutine', hnames⟩ := exists_callNames_eq_map r qualifier subroutine
    obtain ⟨arguments', harguments⟩ := Expression.exists_tokensAll_eq_map r arguments
    exact ⟨.call qualifier' subroutine' arguments',
      by simp [Statement.tokens, inParens, hnames, harguments]⟩
  | .return none => ⟨.return none, by simp [Statement.tokens]⟩
  | .return (some value) => by
    obtain ⟨value', hvalue⟩ := value.exists_tokens_eq_map r
    exact ⟨.return (some value'), by simp [Statement.tokens, hvalue]⟩
termination_by structural statement => statement

theorem Statement.exists_tokensAll_eq_map : ∀ statements : List Statement,
    ∃ statements', Statement.tokensAll statements' = (Statement.tokensAll statements).map r.rename
  | [] => ⟨[], rfl⟩
  | statement :: rest => by
    obtain ⟨statement', hstatement⟩ := statement.exists_tokens_eq_map
    obtain ⟨rest', hrest⟩ := Statement.exists_tokensAll_eq_map rest
    exact ⟨statement' :: rest', by simp [Statement.tokensAll, hstatement, hrest]⟩
termination_by structural statements => statements

end

/-! ### Declarations and classes -/

theorem exists_type_eq (type : VarType) : ∃ type' : VarType, type'.token = r.rename type.token := by
  cases type with
  | int => exact ⟨.int, by simp [VarType.token]⟩
  | char => exact ⟨.char, by simp [VarType.token]⟩
  | boolean => exact ⟨.boolean, by simp [VarType.token]⟩
  | object name =>
    obtain ⟨name', hname⟩ := r.identifier name
    exact ⟨.object name', hname.symm⟩

theorem map_withCommas (tss : List (List Token)) :
    (withCommas tss).map r.rename = withCommas (tss.map (List.map r.rename)) := by
  cases tss with
  | nil => rfl
  | cons ts tss => simp [withCommas, List.map_flatMap, List.flatMap_map]

theorem Declaration.exists_tokens_eq_map (d : Declaration) :
    ∃ d' : Declaration, d'.tokens = d.tokens.map r.rename := by
  obtain ⟨type', htype⟩ := exists_type_eq r d.type
  choose name hname using r.identifier
  refine ⟨⟨type', name d.first, d.rest.map name⟩, ?_⟩
  simp [tokens, names, htype, map_withCommas, hname, Function.comp_def]

theorem Parameter.exists_tokens_eq_map (p : Parameter) :
    ∃ p' : Parameter, p'.tokens = p.tokens.map r.rename := by
  obtain ⟨type', htype⟩ := exists_type_eq r p.type
  obtain ⟨name', hname⟩ := r.identifier p.name
  exact ⟨⟨type', name'⟩, by simp [tokens, htype, hname]⟩

theorem Subroutine.exists_tokens_eq_map (s : Subroutine) :
    ∃ s' : Subroutine, s'.tokens = s.tokens.map r.rename := by
  obtain ⟨returnType', hreturn⟩ : ∃ returnType' : Option VarType,
      (returnType'.map VarType.token).getD (.keyword .void) =
        r.rename ((s.returnType.map VarType.token).getD (.keyword .void)) := by
    cases s.returnType with
    | none => exact ⟨none, (r.keyword .void).symm⟩
    | some type =>
      obtain ⟨type', htype⟩ := exists_type_eq r type
      exact ⟨some type', htype⟩
  obtain ⟨name', hname⟩ := r.identifier s.name
  choose parameter hparameter using Parameter.exists_tokens_eq_map r
  choose declaration hdeclaration using Declaration.exists_tokens_eq_map r
  obtain ⟨body', hbody⟩ := Statement.exists_tokensAll_eq_map r s.body
  refine ⟨⟨s.kind, returnType', name', s.parameters.map parameter, s.locals.map declaration, body'⟩, ?_⟩
  simp [tokens, bodyTokens, inParens, inBraces, hreturn, hname, hbody, map_withCommas, hparameter,
    hdeclaration, List.map_flatMap, List.flatMap_map, Function.comp_def]

/-- With other names and constants the tokens of a class are those of a class. -/
theorem Class.exists_tokens_eq_map (c : Class) :
    ∃ c' : Class, c'.tokens = c.tokens.map r.rename := by
  obtain ⟨name', hname⟩ := r.identifier c.name
  choose declaration hdeclaration using Declaration.exists_tokens_eq_map r
  choose subroutine hsubroutine using Subroutine.exists_tokens_eq_map r
  refine ⟨⟨name', c.declarations.map fun d => (d.1, declaration d.2), c.subroutines.map subroutine⟩, ?_⟩
  simp [tokens, inBraces, hname, hdeclaration, hsubroutine, List.map_flatMap, List.flatMap_map]

/-! ### Tokens that can be read -/

open Classical in
/-- Tokens that cannot be read are replaced by some that can. -/
noncomputable def legible : Renaming where
  rename t :=
    if t.Legible then t
    else match t with
      | .integer _ => .integer 0
      | .string _ => .string ""
      | .identifier _ => .identifier "x"
      | t => t
  keyword k := by split <;> rfl
  symbol s := by split <;> rfl
  integer value := by split <;> exact ⟨_, rfl⟩
  string text := by split <;> exact ⟨_, rfl⟩
  identifier name := by split <;> exact ⟨_, rfl⟩

theorem legible_rename_eq {t : Token} (h : t.Legible) : legible.rename t = t := if_pos h

theorem legible_rename (t : Token) : (legible.rename t).Legible := by
  by_cases h : t.Legible
  · rwa [legible_rename_eq h]
  cases t with
  | keyword k => exact absurd (Token.legible_keyword k) h
  | symbol s => exact absurd (Token.legible_symbol s) h
  | integer value =>
    have heq : legible.rename (.integer value) = .integer 0 := if_neg h
    exact heq ▸ Token.legible_integer
  | string text =>
    have heq : legible.rename (.string text) = .string "" := if_neg h
    exact heq ▸ Token.legible_string
  | identifier name =>
    have heq : legible.rename (.identifier name) = .identifier "x" := if_neg h
    exact heq ▸ Token.legible_identifier

/-- Tokens that can be read go on as a class with tokens that can be read, if with any. -/
theorem Class.exists_legible {c : Class} {ts : List Token} (h : ts <+: c.tokens)
    (hts : ∀ t ∈ ts, t.Legible) :
    ∃ c' : Class, ts <+: c'.tokens ∧ ∀ t ∈ c'.tokens, t.Legible := by
  obtain ⟨c', hc'⟩ := c.exists_tokens_eq_map legible
  obtain ⟨rest, hrest⟩ := h
  refine ⟨c', ⟨rest.map legible.rename, ?_⟩, ?_⟩
  · rw [hc', ← hrest, List.map_append, List.map_congr_left fun t ht => legible_rename_eq (hts t ht),
      List.map_id']
  · rw [hc']
    intro t ht
    obtain ⟨t, -, rfl⟩ := List.mem_map.1 ht
    exact legible_rename t

end Syntax
end JackLang
