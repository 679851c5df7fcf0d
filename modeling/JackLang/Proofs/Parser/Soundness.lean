import JackLang.Parser.Statement
import JackLang.Proofs.Parser.Reading
import JackLang.Proofs.Syntax.Resolution

/-! Soundness of the parsers of terms, expressions and statements. Whatever such a parser answers,
it has read the tokens of a tree that the answer is the resolution of, every phrase in the tree is
allowed where it stands, and the tree is no deeper than the levels that the parser was given
(`term_sound`, `expression_sound`, `statements_sound`). -/

namespace JackLang

/-! ### Trees and what they stand for -/

namespace Syntax

variable {site : Site} {levels : Nat}

/-- A name stands for a variable at a place. -/
def Site.Declares (site : Site) (name : String) : Prop := (site.find? name).isSome

/-- A term that is allowed at a place with some levels, and what it stands for there. -/
structure Term.Means (site : Site) (levels : Nat) (term : Term) (t : JackLang.Term) : Prop where
  resolves : term.resolve? site = some t
  allowed : ∀ u ∈ term.subterms, u.Allowed site.kind site.Declares
  depth_le : term.depth ≤ levels

structure Expression.Means (site : Site) (levels : Nat) (expression : Expression)
    (t : JackLang.Expression) : Prop where
  resolves : expression.resolve? site = some t
  allowed : ∀ u ∈ expression.subterms, u.Allowed site.kind site.Declares
  depth_le : expression.depth ≤ levels

structure Expression.RestMeans (site : Site) (levels : Nat) (rest : List (Operator × Term))
    (ts : List (Operator × JackLang.Term)) : Prop where
  resolves : Expression.resolveRest? site rest = some ts
  allowed : ∀ u ∈ Expression.subtermsRest rest, u.Allowed site.kind site.Declares
  depth_le : Expression.depthRest rest ≤ levels

structure Expression.AllMean (site : Site) (levels : Nat) (expressions : List Expression)
    (ts : List JackLang.Expression) : Prop where
  resolves : Expression.resolveAll? site expressions = some ts
  allowed : ∀ u ∈ Expression.subtermsAll expressions, u.Allowed site.kind site.Declares
  depth_le : Expression.depthAll expressions ≤ levels

structure Statement.Means (site : Site) (levels : Nat) (statement : Statement)
    (t : JackLang.Statement) : Prop where
  resolves : statement.resolve? site = some t
  allowed : ∀ u ∈ statement.substatements, u.Allowed site.kind site.Declares ∧
    ∀ v ∈ Expression.subtermsAll u.expressions, v.Allowed site.kind site.Declares
  depth_le : statement.depth ≤ levels

/-- The statements of a block, which takes a level itself. -/
structure Statement.BlockMeans (site : Site) (levels : Nat) (statements : List Statement)
    (ts : List JackLang.Statement) : Prop where
  resolves : Statement.resolveAll? site statements = some ts
  allowed : ∀ u ∈ Statement.substatementsAll statements, u.Allowed site.kind site.Declares ∧
    ∀ v ∈ Expression.subtermsAll u.expressions, v.Allowed site.kind site.Declares
  depth_le : Statement.depthAll statements + 1 ≤ levels

theorem Expression.RestMeans.of_forall₂ {rest : List (Operator × Term)}
    {ts : List (Operator × JackLang.Term)}
    (h : List.Forall₂ (fun p q => p.1 = q.1 ∧ p.2.Means site levels q.2) rest ts) :
    Expression.RestMeans site levels rest ts := by
  induction h with
  | nil => exact ⟨rfl, by simp [Expression.subtermsRest], by simp [Expression.depthRest]⟩
  | @cons p q rest ts hp _ ih =>
    obtain ⟨op, operand⟩ := p
    obtain ⟨rfl, hp⟩ := hp
    refine ⟨?_, ?_, ?_⟩
    · simp [Expression.resolveRest?, hp.resolves, ih.resolves]
    · rw [Expression.subtermsRest, List.forall_mem_append]
      exact ⟨hp.allowed, ih.allowed⟩
    · exact Nat.max_le.2 ⟨hp.depth_le, ih.depth_le⟩

theorem Expression.AllMean.of_forall₂ {expressions : List Expression}
    {ts : List JackLang.Expression} (h : List.Forall₂ (Expression.Means site levels) expressions ts) :
    Expression.AllMean site levels expressions ts := by
  induction h with
  | nil => exact ⟨rfl, by simp [Expression.subtermsAll], by simp [Expression.depthAll]⟩
  | cons he _ ih =>
    refine ⟨?_, ?_, ?_⟩
    · simp [Expression.resolveAll?, he.resolves, ih.resolves]
    · rw [Expression.subtermsAll, List.forall_mem_append]
      exact ⟨he.allowed, ih.allowed⟩
    · exact Nat.max_le.2 ⟨he.depth_le, ih.depth_le⟩

theorem Statement.BlockMeans.of_forall₂ {statements : List Statement}
    {ts : List JackLang.Statement} (h : List.Forall₂ (Statement.Means site levels) statements ts) :
    Statement.BlockMeans site (levels + 1) statements ts := by
  induction h with
  | nil => exact ⟨rfl, by simp [Statement.substatementsAll], by simp [Statement.depthAll]⟩
  | cons hs _ ih =>
    refine ⟨?_, ?_, ?_⟩
    · simp [Statement.resolveAll?, hs.resolves, ih.resolves]
    · rw [Statement.substatementsAll, List.forall_mem_append]
      exact ⟨hs.allowed, ih.allowed⟩
    · exact Nat.succ_le_succ (Nat.max_le.2 ⟨hs.depth_le, Nat.le_of_succ_le_succ ih.depth_le⟩)

theorem Site.ne_function_of_receiver? {receiver : Receiver} (h : site.receiver? = some receiver) :
    site.kind ≠ .function := by
  intro hkind
  rw [receiver?, hkind] at h
  cases h

theorem Site.ne_function_of_callee? {callee : Callee} (h : site.callee? none = some callee) :
    site.kind ≠ .function := by
  obtain ⟨receiver, hreceiver, -⟩ := Option.map_eq_some_iff.1 h
  exact ne_function_of_receiver? hreceiver

section calls

variable {qualifier : Option String} {callee : Callee} {subroutine : String}
  {arguments : List Expression} {ts : List JackLang.Expression}

theorem Term.Means.call (hcallee : site.callee? qualifier = some callee)
    (h : Expression.AllMean site levels arguments ts) :
    (Term.call qualifier subroutine arguments).Means site (levels + 1)
      (.call callee subroutine ts) where
  resolves := by simp [Term.resolve?, hcallee, h.resolves]
  allowed := by
    rw [Term.subterms, List.forall_mem_cons]
    refine ⟨?_, h.allowed⟩
    cases qualifier with
    | none => exact Site.ne_function_of_callee? hcallee
    | some => trivial
  depth_le := Nat.succ_le_succ h.depth_le

theorem Term.Means.unary {op : UnaryOperator} {operand : Term} {t : JackLang.Term}
    (h : operand.Means site levels t) :
    (Term.unary op operand).Means site (levels + 1) (.unary op t) where
  resolves := by simp [Term.resolve?, h.resolves]
  allowed := by
    rw [Term.subterms, List.forall_mem_cons]
    exact ⟨trivial, h.allowed⟩
  depth_le := Nat.succ_le_succ h.depth_le

theorem Statement.Means.call (hcallee : site.callee? qualifier = some callee)
    (h : Expression.AllMean site levels arguments ts) :
    (Statement.call qualifier subroutine arguments).Means site levels
      (.call callee subroutine ts) where
  resolves := by simp [Statement.resolve?, hcallee, h.resolves]
  allowed := by
    rw [Statement.substatements, List.forall_mem_singleton]
    refine ⟨?_, h.allowed⟩
    cases qualifier with
    | none => exact Site.ne_function_of_callee? hcallee
    | some => trivial
  depth_le := h.depth_le

end calls

end Syntax

/-- The place that a parser believes to be at. -/
structure Context.At (cx : Context) (site : Syntax.Site) : Prop where
  className : cx.className = site.className
  kind : cx.kind = site.kind
  find? : ∀ name, cx.scopes.find? name = site.find? name

namespace Parser

open TokenStream

variable {cx : Context} {site : Syntax.Site} {levels : Nat} {s s' : TokenStream}
  {name : String} {place : Span}

/-! ### Names -/

theorem resolve_eq_ok (hcx : cx.At site) {v : Variable} :
    (cx.resolve name place).run s = .ok v s' ↔ site.find? name = some v ∧ s' = s := by
  rw [Context.resolve, hcx.find?]
  split
  · next v' hv => rw [pure_eq_ok, hv, Option.some.injEq, eq_comm]
  · next hv => simp [hv]

theorem receiver_eq_ok (hcx : cx.At site) {receiver : Receiver} :
    (cx.receiver place).run s = .ok receiver s' ↔
      site.receiver? = some receiver ∧ s' = s := by
  rw [Context.receiver, Syntax.Site.receiver?, hcx.kind]
  split
  · next v' hv => rw [pure_eq_ok, hv, Option.some.injEq, eq_comm]
  · next hv => simp [hv]

theorem checkString_eq_ok {text : String} {u : Unit} :
    (checkString text place).run s = .ok u s' ↔
      (text.length ≤ maxConstant ∧ ∀ c ∈ text.toList, c.toNat ≤ maxConstant) ∧ s' = s := by
  rw [checkString]
  split
  · next h => simp [Nat.not_le.2 h]
  · next h =>
    split
    · next c hc =>
      have hmem := List.mem_of_find?_eq_some hc
      have hlt := of_decide_eq_true (List.find?_some (p := fun c : Char => decide (maxConstant < c.toNat)) hc)
      refine iff_of_false throw_ne_ok fun hall => ?_
      exact Nat.not_le.2 hlt (hall.1.2 c hmem)
    · next hc =>
      rw [List.find?_eq_none] at hc
      rw [pure_eq_ok]
      have hall : ∀ c ∈ text.toList, c.toNat ≤ maxConstant := fun c hmem =>
        Nat.not_lt.1 fun hlt => hc c hmem (decide_eq_true hlt)
      exact ⟨fun h' => ⟨⟨Nat.not_lt.1 h, hall⟩, h'.2⟩, fun h' => ⟨rfl, h'.2⟩⟩

theorem operator?_run : operator?.run s = .ok (s.symbol?.bind Operator.ofSymbol?) s := by
  rw [operator?, bind_of_ok currentSymbol_run]
  rfl

/-! ### Expressions -/

theorem expressionOf_sound {term : Parser Term}
    (hterm : Finds term Syntax.Term.tokens (Syntax.Term.Means site levels)) :
    Finds (expressionOf term) Syntax.Expression.tokens (Syntax.Expression.Means site levels) := by
  intro s e s' h
  simp only [expressionOf, bind_eq_ok, pure_eq_ok] at h
  obtain ⟨t, s₁, ht, ts, _, hts, rfl, rfl⟩ := h
  obtain ⟨first, hr, hfirst⟩ := hterm ht
  suffices ∃ rest : List (Operator × Syntax.Term),
      s₁.Reads (rest.flatMap fun p => .symbol p.1.symbol :: p.2.tokens) s' ∧
      List.Forall₂ (fun p q => p.1 = q.1 ∧ p.2.Means site levels q.2) rest ts by
    obtain ⟨rest, hr', hrest⟩ := this
    have hrest := Syntax.Expression.RestMeans.of_forall₂ hrest
    refine ⟨.mk first rest, ?_, ?_, ?_, ?_⟩
    · rw [Syntax.Expression.tokens, Syntax.Expression.tokensRest_eq]
      exact hr.append hr'
    · simp [Syntax.Expression.resolve?, hfirst.resolves, hrest.resolves]
    · rw [Syntax.Expression.subterms, List.forall_mem_append]
      exact ⟨hfirst.allowed, hrest.allowed⟩
    · exact Nat.max_le.2 ⟨hfirst.depth_le, hrest.depth_le⟩
  refine many_sound ?_ ?_ hts
  · intro s q s' h
    rw [bind_of_ok operator?_run] at h
    split at h
    · obtain ⟨hq, -⟩ := pure_eq_ok.1 h
      cases hq
    · next op hop =>
      simp only [bind_eq_ok, pure_eq_ok] at h
      obtain ⟨_, s₁, hadvance, t, _, ht, hq, rfl⟩ := h
      cases hq
      obtain ⟨symbol, hsymbol, hop⟩ := Option.bind_eq_some_iff.1 hop
      obtain rfl := Operator.ofSymbol?_eq_some_iff.1 hop
      obtain ⟨operand, hr, hoperand⟩ := hterm ht
      have hr' := (advance_eq_ok_iff (symbol?_eq_some_iff.1 hsymbol)).1 hadvance
      exact ⟨(op, operand), hr'.cons_of hr, rfl, hoperand⟩
  · intro s s' h
    rw [bind_of_ok operator?_run] at h
    split at h
    · exact (pure_eq_ok.1 h).2
    · simp only [bind_eq_ok, pure_eq_ok] at h
      obtain ⟨_, _, -, _, _, -, heq, -⟩ := h
      cases heq

section calls

variable {expression : Parser Expression}
  (hexpression : Finds expression Syntax.Expression.tokens (Syntax.Expression.Means site levels))

include hexpression

theorem arguments_sound :
    Finds (arguments expression) Syntax.Expression.tokensAll
      (Syntax.Expression.AllMean site levels) := by
  intro s as s' h
  rw [arguments, bind_of_ok currentSymbol_run] at h
  split at h
  · obtain ⟨rfl, rfl⟩ := pure_eq_ok.1 h
    exact ⟨[], .nil, .of_forall₂ .nil⟩
  · obtain ⟨expressions, hr, hall⟩ := commaSeparated_sound hexpression h
    refine ⟨expressions, ?_, .of_forall₂ hall⟩
    rw [Syntax.Expression.tokensAll_eq]
    exact hr

/-- Arguments in parentheses, of which the opening one is read already. -/
theorem argumentsInParens_sound {s₁ s₂ : TokenStream} {ts : List Expression}
    (hopen : s.Reads [.symbol .openParen] s₁) (h : (arguments expression).run s₁ = .ok ts s₂)
    (hclose : s₂.Reads [.symbol .closeParen] s') :
    ∃ arguments, s.Reads (Syntax.inParens (Syntax.Expression.tokensAll arguments)) s' ∧
      Syntax.Expression.AllMean site levels arguments ts := by
  obtain ⟨arguments, hr, hall⟩ := arguments_sound hexpression h
  exact ⟨arguments, hopen.cons_of (hr.concat hclose), hall⟩

/-- The tokens of a call, with its first name before what the parser has read. -/
theorem callOf_sound (hcx : cx.At site) {s₀ : TokenStream} {callee : Callee} {subroutine : String}
    {ts : List Expression} (hname : s₀.Reads [.identifier name] s)
    (h : (callOf cx expression name place).run s = .ok (callee, subroutine, ts) s') :
    ∃ qualifier arguments,
      s₀.Reads (Syntax.callNames subroutine qualifier ++
        Syntax.inParens (Syntax.Expression.tokensAll arguments)) s' ∧
      site.callee? qualifier = some callee ∧ Syntax.Expression.AllMean site levels arguments ts := by
  rw [callOf, bind_of_ok currentSymbol_run] at h
  split at h
  · next hsymbol =>
    simp only [bind_eq_ok, pure_eq_ok, receiver_eq_ok hcx,
      expectSymbol_eq_ok] at h
    obtain ⟨receiver, _, ⟨hreceiver, rfl⟩, _, s₁, hopen, as, s₂, has, _, _, hclose, heq, rfl⟩ := h
    cases heq
    rw [symbol?_eq_some_iff] at hsymbol
    obtain ⟨arguments, hr, hall⟩ := argumentsInParens_sound hexpression
      ((advance_eq_ok_iff hsymbol).1 hopen) has hclose
    refine ⟨none, arguments, hname.append hr, ?_, hall⟩
    rw [Syntax.Site.callee?, hreceiver, hcx.className]
    rfl
  · next hsymbol =>
    simp only [bind_eq_ok, pure_eq_ok, identifier_eq_ok, expectSymbol_eq_ok] at h
    obtain ⟨_, s₁, hdot, named, s₂, ⟨hsubroutine, -⟩, _, s₃, hopen, as, s₄, has, _, _, hclose,
      heq, rfl⟩ := h
    cases heq
    rw [symbol?_eq_some_iff] at hsymbol
    obtain ⟨arguments, hr, hall⟩ := argumentsInParens_sound hexpression hopen has hclose
    have hnames : s₀.Reads [.identifier name, .symbol .dot, .identifier named.1] s₂ :=
      hname.append (((advance_eq_ok_iff hsymbol).1 hdot).append hsubroutine)
    refine ⟨some name, arguments, hnames.append hr, ?_, hall⟩
    rw [Syntax.Site.callee?, ← hcx.find?]
    split <;> simp_all
  · exact absurd h unexpected_ne_ok

theorem named_sound (hcx : cx.At site) {s₀ : TokenStream} {t : Term}
    (hname : s₀.Reads [.identifier name] s)
    (h : (named cx expression name place).run s = .ok t s') :
    ∃ term : Syntax.Term, s₀.Reads term.tokens s' ∧ term.Means site (levels + 1) t := by
  rw [named, bind_of_ok currentSymbol_run] at h
  split at h
  · next hsymbol =>
    simp only [bind_eq_ok, pure_eq_ok, resolve_eq_ok hcx, expectSymbol_eq_ok] at h
    obtain ⟨v, _, ⟨hv, rfl⟩, _, s₁, hopen, e, s₂, he, _, _, hclose, rfl, rfl⟩ := h
    rw [symbol?_eq_some_iff] at hsymbol
    obtain ⟨index, hr, hindex⟩ := hexpression he
    refine ⟨.element name index, ?_, ?_, ?_, ?_⟩
    · exact hname.append (((advance_eq_ok_iff hsymbol).1 hopen).cons_of (hr.concat hclose))
    · simp [Syntax.Term.resolve?, hv, hindex.resolves]
    · rw [Syntax.Term.subterms, List.forall_mem_cons]
      exact ⟨by simp [Syntax.Term.Allowed, Syntax.Site.Declares, hv], hindex.allowed⟩
    · exact Nat.succ_le_succ hindex.depth_le
  · obtain ⟨⟨callee, subroutine, ts⟩, s₁, hcall, h⟩ := bind_eq_ok.1 h
    obtain ⟨rfl, rfl⟩ := pure_eq_ok.1 h
    obtain ⟨qualifier, arguments, hr, hcallee, hall⟩ :=
      callOf_sound hexpression hcx hname hcall
    exact ⟨.call qualifier subroutine arguments, hr, .call hcallee hall⟩
  · obtain ⟨⟨callee, subroutine, ts⟩, s₁, hcall, h⟩ := bind_eq_ok.1 h
    obtain ⟨rfl, rfl⟩ := pure_eq_ok.1 h
    obtain ⟨qualifier, arguments, hr, hcallee, hall⟩ :=
      callOf_sound hexpression hcx hname hcall
    exact ⟨.call qualifier subroutine arguments, hr, .call hcallee hall⟩
  · simp only [bind_eq_ok, pure_eq_ok, resolve_eq_ok hcx] at h
    obtain ⟨v, _, ⟨hv, rfl⟩, rfl, rfl⟩ := h
    refine ⟨.variable name, hname, ?_, ?_, ?_⟩
    · simp [Syntax.Term.resolve?, hv]
    · simp [Syntax.Term.subterms, Syntax.Term.Allowed, Syntax.Site.Declares, hv]
    · simp [Syntax.Term.depth]

end calls

/-! ### Terms -/

theorem keywordConstant?_eq_some_iff {k : Keyword} {constant : Constant} :
    keywordConstant? k = some constant ↔ k = constant.keyword := by
  cases k <;> cases constant <;> decide

theorem term_sound (hcx : cx.At site) (levels : Nat) :
    Finds (term cx levels) Syntax.Term.tokens (Syntax.Term.Means site levels) := by
  induction levels with
  | zero => exact fun _ _ _ h => absurd h unexpected_ne_ok
  | succ levels ih =>
    intro s t s' h
    rw [term, bind_of_ok span_run, bind_of_ok current_run] at h
    split at h
    · next value hvalue =>
      split at h
      · obtain ⟨_, _, h, -⟩ := bind_eq_ok.1 h
        exact absurd h throw_ne_ok
      · next hle =>
        simp only [bind_eq_ok, pure_eq_ok] at h
        obtain ⟨_, _, hadvance, rfl, rfl⟩ := h
        have hr := (advance_eq_ok_iff hvalue).1 hadvance
        refine ⟨.integer value, hr, rfl, ?_, Nat.le_add_left _ _⟩
        simpa [Syntax.Term.subterms, Syntax.Term.Allowed] using hle
    · next text htext =>
      simp only [bind_eq_ok, pure_eq_ok, checkString_eq_ok] at h
      obtain ⟨_, _, hadvance, _, _, ⟨hfits, rfl⟩, rfl, rfl⟩ := h
      have hr := (advance_eq_ok_iff htext).1 hadvance
      refine ⟨.string text, hr, rfl, ?_, Nat.le_add_left _ _⟩
      simpa [Syntax.Term.subterms, Syntax.Term.Allowed] using hfits
    · next hthis =>
      simp only [bind_eq_ok, pure_eq_ok, receiver_eq_ok hcx] at h
      obtain ⟨_, _, hadvance, receiver, _, ⟨hreceiver, rfl⟩, rfl, rfl⟩ := h
      have hr := (advance_eq_ok_iff hthis).1 hadvance
      refine ⟨.this, hr, ?_, ?_, Nat.le_add_left _ _⟩
      · rw [Syntax.Term.resolve?, hreceiver]
        rfl
      · rw [Syntax.Term.subterms, List.forall_mem_singleton]
        exact Syntax.Site.ne_function_of_receiver? hreceiver
    · next k _ hk =>
      split at h
      · next constant hconstant =>
        simp only [bind_eq_ok, pure_eq_ok] at h
        obtain ⟨_, _, hadvance, rfl, rfl⟩ := h
        obtain rfl := keywordConstant?_eq_some_iff.1 hconstant
        have hr := (advance_eq_ok_iff hk).1 hadvance
        refine ⟨.constant constant, hr, rfl, ?_, Nat.le_add_left _ _⟩
        simp [Syntax.Term.subterms, Syntax.Term.Allowed]
      · exact absurd h unexpected_ne_ok
    · next hopen =>
      simp only [bind_eq_ok, pure_eq_ok, expectSymbol_eq_ok] at h
      obtain ⟨_, _, hadvance, e, _, he, _, _, hclose, rfl, rfl⟩ := h
      obtain ⟨inner, hr, hinner⟩ := expressionOf_sound ih he
      have hr' := (advance_eq_ok_iff hopen).1 hadvance
      refine ⟨.group inner, hr'.cons_of (hr.concat hclose), ?_, ?_, ?_⟩
      · simp [Syntax.Term.resolve?, hinner.resolves]
      · rw [Syntax.Term.subterms, List.forall_mem_cons]
        exact ⟨trivial, hinner.allowed⟩
      · exact Nat.succ_le_succ hinner.depth_le
    · next hminus =>
      simp only [bind_eq_ok, pure_eq_ok] at h
      obtain ⟨_, _, hadvance, t, _, ht, rfl, rfl⟩ := h
      obtain ⟨operand, hr, hoperand⟩ := ih ht
      exact ⟨.unary .negate operand, ((advance_eq_ok_iff hminus).1 hadvance).cons_of hr, .unary hoperand⟩
    · next htilde =>
      simp only [bind_eq_ok, pure_eq_ok] at h
      obtain ⟨_, _, hadvance, t, _, ht, rfl, rfl⟩ := h
      obtain ⟨operand, hr, hoperand⟩ := ih ht
      exact ⟨.unary .complement operand, ((advance_eq_ok_iff htilde).1 hadvance).cons_of hr, .unary hoperand⟩
    · next name hname =>
      obtain ⟨_, _, hadvance, h⟩ := bind_eq_ok.1 h
      exact named_sound (expressionOf_sound ih) hcx ((advance_eq_ok_iff hname).1 hadvance) h
    · exact absurd h unexpected_ne_ok

theorem expression_sound (hcx : cx.At site) (levels : Nat) :
    Finds (expression cx levels) Syntax.Expression.tokens (Syntax.Expression.Means site levels) :=
  expressionOf_sound (term_sound hcx levels)

/-! ### Statements -/

section statements

variable {expression : Parser Expression} {block : Parser (List Statement)} {t : Statement}
  (hexpression : Finds expression Syntax.Expression.tokens (Syntax.Expression.Means site levels))
  (hblock : Finds block (fun statements => Syntax.inBraces (Syntax.Statement.tokensAll statements))
    (Syntax.Statement.BlockMeans site levels))

include hexpression

theorem letStatement_sound (hcx : cx.At site) (hlet : s.current? = some (.keyword .let))
    (h : (letStatement cx expression).run s = .ok t s') :
    ∃ statement : Syntax.Statement, s.Reads statement.tokens s' ∧ statement.Means site levels t := by
  simp only [letStatement, bind_eq_ok, identifier_eq_ok, resolve_eq_ok hcx] at h
  obtain ⟨_, s₁, hadvance, ⟨name, _⟩, _, ⟨hname, -⟩, v, s₂, ⟨hv, rfl⟩, h⟩ := h
  have hnames : s.Reads [.keyword .let, .identifier name] s₂ :=
    ((advance_eq_ok_iff hlet).1 hadvance).append hname
  have hdeclares : site.Declares name := by simp [Syntax.Site.Declares, hv]
  obtain ⟨_, _, hsymbol, h⟩ := h
  rw [currentSymbol_run] at hsymbol
  cases hsymbol
  split at h
  · next hopen =>
    simp only [bind_eq_ok, pure_eq_ok, expectSymbol_eq_ok] at h
    obtain ⟨_, s₃, hadvance', i, s₄, hi, _, s₅, hclose, _, s₆, hequal, e, s₇, he, _, _, hsemicolon,
      rfl, rfl⟩ := h
    rw [symbol?_eq_some_iff] at hopen
    obtain ⟨index, hr, hindex⟩ := hexpression hi
    obtain ⟨value, hr', hvalue⟩ := hexpression he
    have hbrackets : s₂.Reads (Syntax.inBrackets index.tokens) s₅ :=
      ((advance_eq_ok_iff hopen).1 hadvance').cons_of (hr.concat hclose)
    refine ⟨.assignElement name index value, ?_, ?_, ?_, ?_⟩
    · exact hnames.append (hbrackets.append (hequal.cons_of (hr'.concat hsemicolon)))
    · simp [Syntax.Statement.resolve?, hv, hindex.resolves, hvalue.resolves]
    · rw [Syntax.Statement.substatements, List.forall_mem_singleton]
      refine ⟨hdeclares, ?_⟩
      simp only [Syntax.Statement.expressions, Syntax.Expression.subtermsAll, List.append_nil,
        List.forall_mem_append]
      exact ⟨hindex.allowed, hvalue.allowed⟩
    · exact Nat.max_le.2 ⟨hindex.depth_le, hvalue.depth_le⟩
  · simp only [bind_eq_ok, pure_eq_ok, expectSymbol_eq_ok] at h
    obtain ⟨_, s₃, hequal, e, s₄, he, _, _, hsemicolon, rfl, rfl⟩ := h
    obtain ⟨value, hr, hvalue⟩ := hexpression he
    refine ⟨.assign name value, ?_, ?_, ?_, hvalue.depth_le⟩
    · exact hnames.append (hequal.cons_of (hr.concat hsemicolon))
    · simp [Syntax.Statement.resolve?, hv, hvalue.resolves]
    · rw [Syntax.Statement.substatements, List.forall_mem_singleton]
      refine ⟨hdeclares, ?_⟩
      simpa [Syntax.Statement.expressions, Syntax.Expression.subtermsAll] using hvalue.allowed

theorem condition_sound :
    Finds (condition expression) (fun e : Syntax.Expression => Syntax.inParens e.tokens)
      (Syntax.Expression.Means site levels) := by
  intro s e s' h
  simp only [condition, bind_eq_ok, pure_eq_ok, expectSymbol_eq_ok] at h
  obtain ⟨_, s₁, hopen, _, s₂, he, _, _, hclose, rfl, rfl⟩ := h
  obtain ⟨expression, hr, h⟩ := hexpression he
  exact ⟨expression, hopen.cons_of (hr.concat hclose), h⟩

include hblock

theorem ifStatement_sound (hif : s.current? = some (.keyword .if))
    (h : (ifStatement expression block).run s = .ok t s') :
    ∃ statement : Syntax.Statement, s.Reads statement.tokens s' ∧ statement.Means site levels t := by
  simp only [ifStatement, bind_eq_ok] at h
  obtain ⟨_, s₁, hadvance, e, s₂, he, ss, s₃, hss, h⟩ := h
  obtain ⟨condition, hr, hcondition⟩ := condition_sound hexpression he
  obtain ⟨body, hr', hbody⟩ := hblock hss
  have hhead := ((advance_eq_ok_iff hif).1 hadvance).cons_of (hr.append hr')
  obtain ⟨_, _, hkeyword, h⟩ := h
  rw [currentKeyword_run] at hkeyword
  cases hkeyword
  split at h
  · next helse =>
    simp only [bind_eq_ok, pure_eq_ok] at h
    obtain ⟨_, s₄, hadvance', ts, _, hts, rfl, rfl⟩ := h
    rw [keyword?_eq_some_iff] at helse
    obtain ⟨alternative, hr'', halternative⟩ := hblock hts
    refine ⟨.ifElse condition body alternative, ?_, ?_, ?_, ?_⟩
    · have := hhead.append (((advance_eq_ok_iff helse).1 hadvance').cons_of hr'')
      simpa [Syntax.Statement.tokens] using this
    · simp [Syntax.Statement.resolve?, hcondition.resolves, hbody.resolves, halternative.resolves]
    · simp only [Syntax.Statement.substatements, Syntax.Statement.expressions,
        Syntax.Expression.subtermsAll, List.append_nil, List.forall_mem_cons, List.forall_mem_append]
      exact ⟨⟨trivial, hcondition.allowed⟩, hbody.allowed, halternative.allowed⟩
    · exact Nat.max_le.2 ⟨hcondition.depth_le, Nat.max_le.2 ⟨hbody.depth_le, halternative.depth_le⟩⟩
  · obtain ⟨rfl, rfl⟩ := pure_eq_ok.1 h
    refine ⟨.ifThen condition body, hhead, ?_, ?_, ?_⟩
    · simp [Syntax.Statement.resolve?, hcondition.resolves, hbody.resolves]
    · simp only [Syntax.Statement.substatements, Syntax.Statement.expressions,
        Syntax.Expression.subtermsAll, List.append_nil, List.forall_mem_cons]
      exact ⟨⟨trivial, hcondition.allowed⟩, hbody.allowed⟩
    · exact Nat.max_le.2 ⟨hcondition.depth_le, hbody.depth_le⟩

theorem whileStatement_sound (hwhile : s.current? = some (.keyword .while))
    (h : (whileStatement expression block).run s = .ok t s') :
    ∃ statement : Syntax.Statement, s.Reads statement.tokens s' ∧ statement.Means site levels t := by
  simp only [whileStatement, bind_eq_ok, pure_eq_ok] at h
  obtain ⟨_, s₁, hadvance, e, s₂, he, ss, _, hss, rfl, rfl⟩ := h
  obtain ⟨condition, hr, hcondition⟩ := condition_sound hexpression he
  obtain ⟨body, hr', hbody⟩ := hblock hss
  refine ⟨.while condition body, ?_, ?_, ?_, ?_⟩
  · exact ((advance_eq_ok_iff hwhile).1 hadvance).cons_of (hr.append hr')
  · simp [Syntax.Statement.resolve?, hcondition.resolves, hbody.resolves]
  · simp only [Syntax.Statement.substatements, Syntax.Statement.expressions,
      Syntax.Expression.subtermsAll, List.append_nil, List.forall_mem_cons]
    exact ⟨⟨trivial, hcondition.allowed⟩, hbody.allowed⟩
  · exact Nat.max_le.2 ⟨hcondition.depth_le, hbody.depth_le⟩

omit hblock

theorem doStatement_sound (hcx : cx.At site) (hdo : s.current? = some (.keyword .do))
    (h : (doStatement cx expression).run s = .ok t s') :
    ∃ statement : Syntax.Statement, s.Reads statement.tokens s' ∧ statement.Means site levels t := by
  simp only [doStatement, bind_eq_ok, pure_eq_ok, identifier_eq_ok, expectSymbol_eq_ok] at h
  obtain ⟨_, s₁, hadvance, ⟨name, _⟩, s₂, ⟨hname, -⟩, ⟨callee, subroutine, ts⟩, s₃, hcall, _, _,
    hsemicolon, rfl, rfl⟩ := h
  obtain ⟨qualifier, arguments, hr, hcallee, hall⟩ := callOf_sound hexpression hcx hname hcall
  refine ⟨.call qualifier subroutine arguments, ?_, .call hcallee hall⟩
  have := ((advance_eq_ok_iff hdo).1 hadvance).cons_of (hr.concat hsemicolon)
  simpa [Syntax.Statement.tokens] using this

theorem returnStatement_sound (hreturn : s.current? = some (.keyword .return))
    (h : (returnStatement expression).run s = .ok t s') :
    ∃ statement : Syntax.Statement, s.Reads statement.tokens s' ∧ statement.Means site levels t := by
  rw [returnStatement, bind_eq_ok] at h
  obtain ⟨_, s₁, hadvance, h⟩ := h
  have hr := (advance_eq_ok_iff hreturn).1 hadvance
  rw [bind_of_ok currentSymbol_run] at h
  split at h
  · simp only [bind_eq_ok, pure_eq_ok, expectSymbol_eq_ok] at h
    obtain ⟨_, _, ⟨rfl, rfl⟩, _, _, hsemicolon, rfl, rfl⟩ := h
    refine ⟨.return none, hr.append hsemicolon, rfl, ?_, Nat.zero_le _⟩
    simp [Syntax.Statement.substatements, Syntax.Statement.Allowed, Syntax.Statement.expressions,
      Syntax.Expression.subtermsAll]
  · simp only [bind_eq_ok, pure_eq_ok, map_eq_ok, expectSymbol_eq_ok] at h
    obtain ⟨_, s₂, ⟨e, he, rfl⟩, _, _, hsemicolon, rfl, rfl⟩ := h
    obtain ⟨value, hr', hvalue⟩ := hexpression he
    refine ⟨.return (some value), hr.cons_of (hr'.concat hsemicolon), ?_, ?_, hvalue.depth_le⟩
    · simp [Syntax.Statement.resolve?, hvalue.resolves]
    · rw [Syntax.Statement.substatements, List.forall_mem_singleton]
      refine ⟨trivial, ?_⟩
      simpa [Syntax.Statement.expressions, Syntax.Expression.subtermsAll] using hvalue.allowed

include hblock

theorem statement?_sound (hcx : cx.At site)
    (h : (statement? cx expression block).run s = .ok (some t) s') :
    ∃ statement : Syntax.Statement, s.Reads statement.tokens s' ∧ statement.Means site levels t := by
  rw [statement?, bind_of_ok currentKeyword_run] at h
  split at h
  · next hk =>
    exact letStatement_sound hexpression hcx (keyword?_eq_some_iff.1 hk) (map_some_eq_ok.1 h)
  · next hk =>
    exact ifStatement_sound hexpression hblock (keyword?_eq_some_iff.1 hk) (map_some_eq_ok.1 h)
  · next hk =>
    exact whileStatement_sound hexpression hblock (keyword?_eq_some_iff.1 hk) (map_some_eq_ok.1 h)
  · next hk =>
    exact doStatement_sound hexpression hcx (keyword?_eq_some_iff.1 hk) (map_some_eq_ok.1 h)
  · next hk =>
    exact returnStatement_sound hexpression (keyword?_eq_some_iff.1 hk) (map_some_eq_ok.1 h)
  · cases (pure_eq_ok.1 h).1

omit hexpression hblock

theorem eq_of_statement?_eq_none
    (h : (statement? cx expression block).run s = .ok none s') : s' = s := by
  rw [statement?, bind_of_ok currentKeyword_run] at h
  split at h
  case h_6 => exact (pure_eq_ok.1 h).2
  all_goals
    obtain ⟨_, -, heq⟩ := map_eq_ok.1 h
    cases heq

theorem braced_sound {statements : Parser (List Statement)}
    (h : Finds statements Syntax.Statement.tokensAll (Syntax.Statement.BlockMeans site levels)) :
    Finds (braced statements)
      (fun statements => Syntax.inBraces (Syntax.Statement.tokensAll statements))
      (Syntax.Statement.BlockMeans site levels) := by
  intro s ts s' hbraced
  simp only [braced, bind_eq_ok, pure_eq_ok, expectSymbol_eq_ok] at hbraced
  obtain ⟨_, s₁, hopen, _, s₂, hts, _, _, hclose, rfl, rfl⟩ := hbraced
  obtain ⟨statements, hr, hmeans⟩ := h hts
  exact ⟨statements, hopen.cons_of (hr.concat hclose), hmeans⟩

end statements

theorem statements_sound (hcx : cx.At site) (levels : Nat) :
    Finds (statements cx levels) Syntax.Statement.tokensAll
      (Syntax.Statement.BlockMeans site levels) := by
  induction levels with
  | zero => exact fun _ _ _ h => absurd h unexpected_ne_ok
  | succ levels ih =>
    intro s ts s' h
    obtain ⟨statements, hr, hall⟩ := many_sound
      (fun _ _ _ h => statement?_sound (expression_sound hcx levels) (braced_sound ih) hcx h)
      (fun _ _ h => eq_of_statement?_eq_none h) h
    refine ⟨statements, ?_, .of_forall₂ hall⟩
    rw [Syntax.Statement.tokensAll_eq]
    exact hr

end Parser
end JackLang
