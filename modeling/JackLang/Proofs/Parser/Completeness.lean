import JackLang.Proofs.Parser.Soundness

/-! Completeness of the parsers of terms, expressions and statements: each succeeds on the tokens of
a tree that is allowed at its place and no deeper than its levels, provided that what stands behind
could not belong to the tree (`term_complete`, `expression_complete`, `statements_complete`). -/

namespace JackLang

namespace Syntax

variable {site : Site} {levels : Nat}

theorem Site.exists_receiver? (h : site.kind ≠ .function) :
    ∃ receiver, site.receiver? = some receiver := by
  rw [receiver?]
  cases hkind : site.kind with
  | constructor | method => exact ⟨_, rfl⟩
  | function => exact absurd hkind h

/-! ### Trees that fit their place -/

/-- A term that is allowed at a place with some levels. -/
structure Term.Fits (site : Site) (levels : Nat) (term : Term) : Prop where
  allowed : ∀ u ∈ term.subterms, u.Allowed site.kind site.Declares
  depth_le : term.depth ≤ levels

structure Expression.Fits (site : Site) (levels : Nat) (expression : Expression) : Prop where
  allowed : ∀ u ∈ expression.subterms, u.Allowed site.kind site.Declares
  depth_le : expression.depth ≤ levels

structure Statement.Fits (site : Site) (levels : Nat) (statement : Statement) : Prop where
  allowed : ∀ u ∈ statement.substatements, u.Allowed site.kind site.Declares ∧
    ∀ v ∈ Expression.subtermsAll u.expressions, v.Allowed site.kind site.Declares
  depth_le : statement.depth ≤ levels

/-- The statements of a block, which takes a level itself. -/
structure Statement.BlockFits (site : Site) (levels : Nat) (statements : List Statement) :
    Prop where
  allowed : ∀ u ∈ Statement.substatementsAll statements, u.Allowed site.kind site.Declares ∧
    ∀ v ∈ Expression.subtermsAll u.expressions, v.Allowed site.kind site.Declares
  depth_le : Statement.depthAll statements + 1 ≤ levels

theorem Expression.fits_of_mem_rest {rest : List (Operator × Term)} {p : Operator × Term}
    (hp : p ∈ rest) (hallowed : ∀ u ∈ Expression.subtermsRest rest, u.Allowed site.kind site.Declares)
    (hdepth : Expression.depthRest rest ≤ levels) : p.2.Fits site levels := by
  induction rest with
  | nil => cases hp
  | cons q rest ih =>
    rw [Expression.subtermsRest, List.forall_mem_append] at hallowed
    rw [Expression.depthRest, Nat.max_le] at hdepth
    cases hp with
    | head => exact ⟨hallowed.1, hdepth.1⟩
    | tail _ hp => exact ih hp hallowed.2 hdepth.2

theorem Expression.fits_of_mem_all {expressions : List Expression} {e : Expression}
    (he : e ∈ expressions)
    (hallowed : ∀ u ∈ Expression.subtermsAll expressions, u.Allowed site.kind site.Declares)
    (hdepth : Expression.depthAll expressions ≤ levels) : e.Fits site levels := by
  induction expressions with
  | nil => cases he
  | cons _ expressions ih =>
    rw [Expression.subtermsAll, List.forall_mem_append] at hallowed
    rw [Expression.depthAll, Nat.max_le] at hdepth
    cases he with
    | head => exact ⟨hallowed.1, hdepth.1⟩
    | tail _ he => exact ih he hallowed.2 hdepth.2

theorem Statement.BlockFits.fits_of_mem {statements : List Statement} {statement : Statement}
    (hs : statement ∈ statements) (h : Statement.BlockFits site (levels + 1) statements) :
    statement.Fits site levels := by
  obtain ⟨hallowed, hdepth⟩ := h
  induction statements with
  | nil => cases hs
  | cons _ statements ih =>
    rw [Statement.substatementsAll, List.forall_mem_append] at hallowed
    rw [Statement.depthAll, Nat.add_le_add_iff_right, Nat.max_le] at hdepth
    cases hs with
    | head => exact ⟨hallowed.1, hdepth.1⟩
    | tail _ hs => exact ih hs hallowed.2 (Nat.succ_le_succ hdepth.2)

theorem Term.Fits.self {term : Term} (h : term.Fits site levels) :
    term.Allowed site.kind site.Declares :=
  h.allowed term (by cases term <;> simp [Term.subterms])

theorem Term.Fits.index {array : String} {index : Expression}
    (h : (Term.element array index).Fits site (levels + 1)) : index.Fits site levels := by
  refine ⟨fun u hu => h.allowed u ?_, Nat.le_of_succ_le_succ h.depth_le⟩
  rw [Term.subterms]
  exact List.mem_cons_of_mem _ hu

theorem Term.Fits.inner {inner : Expression} (h : (Term.group inner).Fits site (levels + 1)) :
    inner.Fits site levels := by
  refine ⟨fun u hu => h.allowed u ?_, Nat.le_of_succ_le_succ h.depth_le⟩
  rw [Term.subterms]
  exact List.mem_cons_of_mem _ hu

theorem Term.Fits.operand {op : UnaryOperator} {operand : Term}
    (h : (Term.unary op operand).Fits site (levels + 1)) : operand.Fits site levels := by
  refine ⟨fun u hu => h.allowed u ?_, Nat.le_of_succ_le_succ h.depth_le⟩
  rw [Term.subterms]
  exact List.mem_cons_of_mem _ hu

theorem Term.Fits.arguments {qualifier : Option String} {subroutine : String}
    {arguments : List Expression}
    (h : (Term.call qualifier subroutine arguments).Fits site (levels + 1)) :
    ∀ e ∈ arguments, e.Fits site levels := by
  refine fun e he => Expression.fits_of_mem_all he (fun u hu => h.allowed u ?_)
    (Nat.le_of_succ_le_succ h.depth_le)
  rw [Term.subterms]
  exact List.mem_cons_of_mem _ hu

theorem Statement.Fits.self {statement : Statement} (h : statement.Fits site levels) :
    statement.Allowed site.kind site.Declares :=
  (h.allowed statement (by cases statement <;> simp [Statement.substatements])).1

/-- No level is between a statement and its expressions. -/
theorem Statement.depthAll_expressions_le (statement : Statement) :
    Expression.depthAll statement.expressions ≤ statement.depth := by
  cases statement with
  | «return» value =>
    cases value <;> simp [Statement.depth, Statement.expressions, Expression.depthAll]
  | _ =>
    simp only [Statement.depth, Statement.expressions, Expression.depthAll]
    omega

theorem Statement.Fits.expressions {statement : Statement} (h : statement.Fits site levels) :
    ∀ e ∈ statement.expressions, e.Fits site levels := by
  refine fun e he => Expression.fits_of_mem_all he
    (h.allowed statement (by cases statement <;> simp [Statement.substatements])).2 ?_
  exact Nat.le_trans statement.depthAll_expressions_le h.depth_le

theorem Statement.Fits.ifThen_body {condition : Expression} {body : List Statement}
    (h : (Statement.ifThen condition body).Fits site levels) :
    Statement.BlockFits site levels body := by
  refine ⟨fun u hu => h.allowed u ?_, (Nat.max_le.1 h.depth_le).2⟩
  rw [Statement.substatements]
  exact List.mem_cons_of_mem _ hu

theorem Statement.Fits.while_body {condition : Expression} {body : List Statement}
    (h : (Statement.while condition body).Fits site levels) :
    Statement.BlockFits site levels body := by
  refine ⟨fun u hu => h.allowed u ?_, (Nat.max_le.1 h.depth_le).2⟩
  rw [Statement.substatements]
  exact List.mem_cons_of_mem _ hu

theorem Statement.Fits.ifElse_blocks {condition : Expression} {body alternative : List Statement}
    (h : (Statement.ifElse condition body alternative).Fits site levels) :
    Statement.BlockFits site levels body ∧ Statement.BlockFits site levels alternative := by
  obtain ⟨hbody, halternative⟩ := Nat.max_le.1 (Nat.max_le.1 h.depth_le).2
  refine ⟨⟨fun u hu => h.allowed u ?_, hbody⟩, ⟨fun u hu => h.allowed u ?_, halternative⟩⟩
  · rw [Statement.substatements]
    exact List.mem_cons_of_mem _ (List.mem_append_left _ hu)
  · rw [Statement.substatements]
    exact List.mem_cons_of_mem _ (List.mem_append_right _ hu)

/-! ### First tokens -/

/-- A term does not begin like what closes arguments or a statement. -/
theorem Term.exists_tokens_eq_cons (term : Term) : ∃ t ts, term.tokens = t :: ts ∧
    t ≠ .symbol .closeParen ∧ t ≠ .symbol .semicolon := by
  cases term with
  | call qualifier => cases qualifier <;> exact ⟨_, _, rfl, by simp, by simp⟩
  | unary op => cases op <;> exact ⟨_, _, rfl, by simp [UnaryOperator.symbol], by simp [UnaryOperator.symbol]⟩
  | _ => exact ⟨_, _, rfl, by simp, by simp⟩

theorem Expression.exists_tokens_eq_cons (expression : Expression) : ∃ t ts,
    expression.tokens = t :: ts ∧ t ≠ .symbol .closeParen ∧ t ≠ .symbol .semicolon := by
  obtain ⟨first, rest⟩ := expression
  obtain ⟨t, ts, hts, ht⟩ := first.exists_tokens_eq_cons
  exact ⟨t, ts ++ Expression.tokensRest rest, by rw [Expression.tokens, hts]; rfl, ht⟩

/-- A statement does not begin like the rest of another, nor like a declaration. -/
theorem Statement.exists_tokens_eq_cons (statement : Statement) :
    ∃ t ts, statement.tokens = t :: ts ∧ t ≠ .keyword .else ∧ t ≠ .keyword .var := by
  cases statement with
  | «return» value => cases value <;> exact ⟨_, _, rfl, by simp, by simp⟩
  | _ => exact ⟨_, _, rfl, by simp, by simp⟩

end Syntax

namespace Parser

open TokenStream

variable {cx : Context} {site : Syntax.Site} {levels : Nat} {s s' : TokenStream}

/-- What stands behind a name does not make it more than a variable. -/
def EndsTerm (t : Option Token) : Prop :=
  t ≠ some (.symbol .openBracket) ∧ t ≠ some (.symbol .openParen) ∧ t ≠ some (.symbol .dot)

/-- What stands behind a term does not go on with the expression. -/
def EndsExpression (t : Option Token) : Prop :=
  EndsTerm t ∧ ∀ op : Operator, t ≠ some (.symbol op.symbol)

theorem endsTerm_operator (op : Operator) : EndsTerm (some (.symbol op.symbol)) := by
  cases op <;> simp [EndsTerm, Operator.symbol]

theorem endsExpression_of_mem {symbol : Symbol}
    (h : symbol ∈ [.closeParen, .closeBracket, .semicolon, .comma]) :
    EndsExpression (some (.symbol symbol)) := by
  simp only [List.mem_cons, List.not_mem_nil, or_false] at h
  refine ⟨?_, fun op => ?_⟩
  · rcases h with rfl | rfl | rfl | rfl <;> simp [EndsTerm]
  · rcases h with rfl | rfl | rfl | rfl <;> cases op <;> simp [Operator.symbol]

/-! ### Expressions -/

theorem expressionOf_complete {term : Parser Term}
    (hterm : ∀ t : Syntax.Term, t.Fits site levels → Accepts term t.tokens EndsTerm)
    {expression : Syntax.Expression} (h : expression.Fits site levels) :
    Accepts (expressionOf term) expression.tokens EndsExpression := by
  intro s s' hr hfollow
  obtain ⟨first, rest⟩ := expression
  obtain ⟨hallowed, hdepth⟩ := h
  rw [Syntax.Expression.subterms, List.forall_mem_append] at hallowed
  rw [Syntax.Expression.depth, Nat.max_le] at hdepth
  rw [Syntax.Expression.tokens, Syntax.Expression.tokensRest_eq, reads_append_iff] at hr
  obtain ⟨s₁, hfirst, hrest⟩ := hr
  obtain ⟨t, ht⟩ : ∃ t, term.run s = .ok t s₁ := by
    refine hterm first ⟨hallowed.1, hdepth.1⟩ hfirst ?_
    cases rest with
    | nil => exact reads_nil_iff.1 hrest ▸ hfollow.1
    | cons p rest =>
      rw [List.flatMap_cons, List.cons_append] at hrest
      rw [hrest.current?_eq]
      exact endsTerm_operator p.1
  suffices ∃ ts, (many _).run s₁ = .ok ts s' by
    obtain ⟨ts, hts⟩ := this
    refine ⟨.mk t ts, ?_⟩
    rw [expressionOf, bind_of_ok ht, bind_of_ok hts]
    rfl
  refine exists_many_ok EndsTerm ?_ (fun p _ => ⟨_, _, rfl, endsTerm_operator p.1⟩)
    hfollow.1 ?_ hrest
  · intro p hp s s' hr hfollow
    obtain ⟨s₁, hop, hr⟩ := reads_cons_iff_exists.1 hr
    have hfits := Syntax.Expression.fits_of_mem_rest hp hallowed.2 hdepth.2
    obtain ⟨t, ht⟩ := hterm p.2 hfits hr hfollow
    refine ⟨(p.1, t), ?_⟩
    rw [bind_of_ok operator?_run, symbol?_eq_some_iff.2 hop.current?_eq, Option.bind_some,
      Operator.ofSymbol?_eq_some_iff.2 rfl]
    dsimp only
    rw [bind_of_ok (advance_of_reads hop), bind_of_ok ht]
    rfl
  · have hnone : s'.symbol?.bind Operator.ofSymbol? = none := by
      rw [Option.bind_eq_none_iff]
      intro symbol hsymbol
      rw [Option.eq_none_iff_forall_ne_some]
      intro op hop
      obtain rfl := Operator.ofSymbol?_eq_some_iff.1 hop
      exact hfollow.2 op (symbol?_eq_some_iff.1 hsymbol)
    rw [bind_of_ok operator?_run, hnone]
    rfl

section calls

variable {expression : Parser Expression}
  (hexpression : ∀ e : Syntax.Expression, e.Fits site levels → Accepts expression e.tokens EndsExpression)

include hexpression

theorem arguments_complete {arguments : List Syntax.Expression}
    (h : ∀ e ∈ arguments, e.Fits site levels) :
    Accepts (Parser.arguments expression) (Syntax.Expression.tokensAll arguments)
      (· = some (.symbol .closeParen)) := by
  intro s s' hr hfollow
  rw [Parser.arguments, bind_of_ok currentSymbol_run]
  cases arguments with
  | nil =>
    obtain rfl := reads_nil_iff.1 hr
    rw [if_pos (symbol?_eq_some_iff.2 hfollow)]
    exact ⟨[], rfl⟩
  | cons e arguments =>
    have hfirst : s.symbol? ≠ some .closeParen := by
      obtain ⟨t, ts, hts, ht, -⟩ := e.exists_tokens_eq_cons
      rw [Syntax.Expression.tokensAll, hts, List.cons_append] at hr
      intro hsymbol
      have := hr.current?_eq.symm.trans (symbol?_eq_some_iff.1 hsymbol)
      exact ht (Option.some.inj this)
    rw [if_neg hfirst]
    rw [Syntax.Expression.tokensAll_eq] at hr
    refine exists_commaSeparated_ok EndsExpression (List.cons_ne_nil _ _)
      (fun e he => hexpression e (h e he)) (endsExpression_of_mem (by simp)) ?_ ?_ hr
    · rw [hfollow]
      exact endsExpression_of_mem (by simp)
    · rw [hfollow]
      simp

/-- The first name of a call is read, and the rest of the call succeeds. -/
theorem callOf_complete (hcx : cx.At site) {qualifier : Option String} {subroutine : String}
    {arguments : List Syntax.Expression} (hkind : qualifier = none → site.kind ≠ .function)
    (h : ∀ e ∈ arguments, e.Fits site levels)
    (hr : s.Reads (Syntax.callNames subroutine qualifier ++
      Syntax.inParens (Syntax.Expression.tokensAll arguments)) s') :
    ∃ name s₁, s.Reads [.identifier name] s₁ ∧
      (s₁.symbol? = some .openParen ∨ s₁.symbol? = some .dot) ∧
      ∀ place, ∃ call, (callOf cx expression name place).run s₁ = .ok call s' := by
  obtain ⟨s₁, hnames, hr⟩ := reads_append_iff.1 hr
  obtain ⟨s₂, s₃, hopen, hr, hclose⟩ := reads_between_iff.1 hr
  obtain ⟨as, has⟩ := arguments_complete hexpression h hr hclose.current?_eq
  have hparen := symbol?_eq_some_iff.2 hopen.current?_eq
  cases qualifier with
  | none =>
    refine ⟨subroutine, s₁, hnames, .inl hparen, fun place => ?_⟩
    obtain ⟨receiver, hreceiver⟩ := Syntax.Site.exists_receiver? (hkind rfl)
    refine ⟨(.own receiver cx.className, subroutine, as), ?_⟩
    rw [callOf, bind_of_ok currentSymbol_run, hparen]
    dsimp only
    rw [bind_of_ok ((receiver_eq_ok hcx).2 ⟨hreceiver, rfl⟩), bind_of_ok (advance_of_reads hopen),
      bind_of_ok has, bind_of_ok (expectSymbol_of_reads hclose)]
    rfl
  | some qualifier =>
    obtain ⟨s₄, hname, hnames⟩ := reads_cons_iff_exists.1 hnames
    obtain ⟨s₅, hdot, hsubroutine⟩ := reads_cons_iff_exists.1 hnames
    have hsymbol := symbol?_eq_some_iff.2 hdot.current?_eq
    refine ⟨qualifier, s₄, hname, .inr hsymbol, fun place => ?_⟩
    rw [callOf, bind_of_ok currentSymbol_run, hsymbol]
    dsimp only
    rw [bind_of_ok (advance_of_reads hdot), bind_of_ok (identifier_of_reads hsubroutine)]
    dsimp only
    rw [bind_of_ok (expectSymbol_of_reads hopen), bind_of_ok has,
      bind_of_ok (expectSymbol_of_reads hclose)]
    exact ⟨_, rfl⟩

end calls

/-! ### Terms -/

theorem term_complete (hcx : cx.At site) (levels : Nat) :
    ∀ t : Syntax.Term, t.Fits site levels → Accepts (term cx levels) t.tokens EndsTerm := by
  induction levels with
  | zero =>
    intro t ht
    have := ht.depth_le
    cases t <;> simp [Syntax.Term.depth] at this
  | succ levels ih =>
    have hexpression (e : Syntax.Expression) (he : e.Fits site levels) := expressionOf_complete ih he
    intro t ht s s' hr hfollow
    rw [term, bind_of_ok span_run, bind_of_ok current_run]
    cases t with
    | integer value =>
      refine ⟨.integer value, ?_⟩
      rw [hr.current?_eq]
      dsimp only
      rw [if_neg (Nat.not_lt.2 ht.self), bind_of_ok (advance_of_reads hr)]
      rfl
    | string text =>
      refine ⟨.string text, ?_⟩
      rw [hr.current?_eq]
      dsimp only
      have hcheck : (checkString text s.span).run s' = .ok () s' :=
        checkString_eq_ok.2 ⟨ht.self, rfl⟩
      rw [bind_of_ok (advance_of_reads hr), bind_of_ok hcheck]
      rfl
    | constant constant =>
      refine ⟨.constant constant, ?_⟩
      rw [hr.current?_eq]
      cases constant <;> exact bind_of_ok (advance_of_reads hr)
    | this =>
      obtain ⟨receiver, hreceiver⟩ := Syntax.Site.exists_receiver? ht.self
      refine ⟨.this receiver, ?_⟩
      rw [hr.current?_eq]
      dsimp only
      rw [bind_of_ok (advance_of_reads hr), bind_of_ok ((receiver_eq_ok hcx).2 ⟨hreceiver, rfl⟩)]
      rfl
    | «variable» name =>
      obtain ⟨v, hv⟩ := Option.isSome_iff_exists.1 ht.self
      refine ⟨.variable v, ?_⟩
      rw [hr.current?_eq]
      dsimp only
      rw [bind_of_ok (advance_of_reads hr), named, bind_of_ok currentSymbol_run]
      split
      · next h => exact absurd (symbol?_eq_some_iff.1 h) hfollow.1
      · next h => exact absurd (symbol?_eq_some_iff.1 h) hfollow.2.1
      · next h => exact absurd (symbol?_eq_some_iff.1 h) hfollow.2.2
      · rw [bind_of_ok ((resolve_eq_ok hcx).2 ⟨hv, rfl⟩)]
        rfl
    | element array index =>
      obtain ⟨v, hv⟩ := Option.isSome_iff_exists.1 ht.self
      obtain ⟨s₁, hname, hr⟩ := reads_cons_iff_exists.1 hr
      obtain ⟨s₂, s₃, hopen, hr, hclose⟩ := reads_between_iff.1 hr
      obtain ⟨e, he⟩ := hexpression index ht.index hr
        (hclose.current?_eq ▸ endsExpression_of_mem (by simp))
      refine ⟨.element v e, ?_⟩
      rw [hname.current?_eq]
      dsimp only
      rw [bind_of_ok (advance_of_reads hname), named, bind_of_ok currentSymbol_run,
        symbol?_eq_some_iff.2 hopen.current?_eq]
      dsimp only
      rw [bind_of_ok ((resolve_eq_ok hcx).2 ⟨hv, rfl⟩), bind_of_ok (advance_of_reads hopen),
        bind_of_ok he, bind_of_ok (expectSymbol_of_reads hclose)]
      rfl
    | call qualifier subroutine arguments =>
      have hkind : qualifier = none → site.kind ≠ .function := by
        rintro rfl
        exact ht.self
      obtain ⟨name, s₁, hname, hsymbol, hcall⟩ :=
        callOf_complete hexpression hcx hkind ht.arguments hr
      obtain ⟨⟨callee, subroutine', as⟩, hcall⟩ := hcall s.span
      refine ⟨.call callee subroutine' as, ?_⟩
      rw [hname.current?_eq]
      dsimp only
      rw [bind_of_ok (advance_of_reads hname), named, bind_of_ok currentSymbol_run]
      rcases hsymbol with hsymbol | hsymbol
      all_goals
        rw [hsymbol]
        exact bind_of_ok hcall
    | group inner =>
      obtain ⟨s₂, s₃, hopen, hr, hclose⟩ := reads_between_iff.1 hr
      obtain ⟨e, he⟩ := hexpression inner ht.inner hr
        (hclose.current?_eq ▸ endsExpression_of_mem (by simp))
      refine ⟨.group e, ?_⟩
      rw [hopen.current?_eq]
      dsimp only
      rw [bind_of_ok (advance_of_reads hopen), bind_of_ok he,
        bind_of_ok (expectSymbol_of_reads hclose)]
      rfl
    | unary op operand =>
      obtain ⟨s₁, hop, hr⟩ := reads_cons_iff_exists.1 hr
      obtain ⟨t, hoperand⟩ := ih operand ht.operand hr hfollow
      refine ⟨.unary op t, ?_⟩
      rw [hop.current?_eq]
      cases op with
      | negate | complement =>
        dsimp only [UnaryOperator.symbol]
        rw [bind_of_ok (advance_of_reads hop), bind_of_ok hoperand]
        rfl

theorem expression_complete (hcx : cx.At site) {levels : Nat} {e : Syntax.Expression}
    (he : e.Fits site levels) : Accepts (expression cx levels) e.tokens EndsExpression :=
  expressionOf_complete (term_complete hcx levels) he

/-! ### Statements -/

section statements

variable {expression : Parser Expression} {block : Parser (List Statement)}
  (hexpression : ∀ e : Syntax.Expression, e.Fits site levels →
    Accepts expression e.tokens EndsExpression)
  (hblock : ∀ ss : List Syntax.Statement, Syntax.Statement.BlockFits site levels ss →
    Accepts block (Syntax.inBraces (Syntax.Statement.tokensAll ss)) fun _ => True)

include hexpression

/-- An expression before a symbol that ends it. -/
theorem expression_before {e : Syntax.Expression} (he : e.Fits site levels) {symbol : Symbol}
    (hsymbol : symbol ∈ [.closeParen, .closeBracket, .semicolon, .comma]) {s₁ : TokenStream}
    (hr : s.Reads e.tokens s₁) (hend : s₁.Reads [.symbol symbol] s') :
    ∃ e', expression.run s = .ok e' s₁ :=
  hexpression e he hr (hend.current?_eq ▸ endsExpression_of_mem hsymbol)

theorem letStatement_complete_assign (hcx : cx.At site) {target : String}
    {value : Syntax.Expression} (h : (Syntax.Statement.assign target value).Fits site levels)
    (hr : s.Reads (Syntax.Statement.assign target value).tokens s') :
    ∃ t, (letStatement cx expression).run s = .ok t s' := by
  obtain ⟨v, hv⟩ := Option.isSome_iff_exists.1 h.self
  obtain ⟨s₁, hlet, hr⟩ := reads_cons_iff_exists.1 hr
  obtain ⟨s₂, hname, hr⟩ := reads_cons_iff_exists.1 hr
  obtain ⟨s₃, s₄, hequal, hr, hsemicolon⟩ := reads_between_iff.1 hr
  obtain ⟨e, he⟩ := expression_before hexpression
    (h.expressions value (by simp [Syntax.Statement.expressions])) (by simp) hr hsemicolon
  have hbracket : s₂.symbol? ≠ some .openBracket := by
    rw [symbol?_eq_some_iff.2 hequal.current?_eq]
    simp
  refine ⟨.assign v e, ?_⟩
  rw [letStatement, bind_of_ok (advance_of_reads hlet), bind_of_ok (identifier_of_reads hname)]
  dsimp only
  rw [bind_of_ok ((resolve_eq_ok hcx).2 ⟨hv, rfl⟩), bind_of_ok currentSymbol_run, if_neg hbracket,
    bind_of_ok (expectSymbol_of_reads hequal), bind_of_ok he,
    bind_of_ok (expectSymbol_of_reads hsemicolon)]
  rfl

theorem letStatement_complete_assignElement (hcx : cx.At site) {array : String}
    {index value : Syntax.Expression}
    (h : (Syntax.Statement.assignElement array index value).Fits site levels)
    (hr : s.Reads (Syntax.Statement.assignElement array index value).tokens s') :
    ∃ t, (letStatement cx expression).run s = .ok t s' := by
  obtain ⟨v, hv⟩ := Option.isSome_iff_exists.1 h.self
  obtain ⟨s₁, hlet, hr⟩ := reads_cons_iff_exists.1 hr
  obtain ⟨s₂, hname, hr⟩ := reads_cons_iff_exists.1 hr
  obtain ⟨s₃, hindex, hr⟩ := reads_append_iff.1 hr
  obtain ⟨s₄, s₅, hopen, hindex, hclose⟩ := reads_between_iff.1 hindex
  obtain ⟨s₆, s₇, hequal, hvalue, hsemicolon⟩ := reads_between_iff.1 hr
  obtain ⟨i, hi⟩ := expression_before hexpression
    (h.expressions index (by simp [Syntax.Statement.expressions])) (by simp) hindex hclose
  obtain ⟨e, he⟩ := expression_before hexpression
    (h.expressions value (by simp [Syntax.Statement.expressions])) (by simp) hvalue hsemicolon
  refine ⟨.assignElement v i e, ?_⟩
  rw [letStatement, bind_of_ok (advance_of_reads hlet), bind_of_ok (identifier_of_reads hname)]
  dsimp only
  rw [bind_of_ok ((resolve_eq_ok hcx).2 ⟨hv, rfl⟩), bind_of_ok currentSymbol_run,
    if_pos (symbol?_eq_some_iff.2 hopen.current?_eq), bind_of_ok (advance_of_reads hopen),
    bind_of_ok hi, bind_of_ok (expectSymbol_of_reads hclose),
    bind_of_ok (expectSymbol_of_reads hequal), bind_of_ok he,
    bind_of_ok (expectSymbol_of_reads hsemicolon)]
  rfl

theorem condition_complete {e : Syntax.Expression} (he : e.Fits site levels)
    (hr : s.Reads (Syntax.inParens e.tokens) s') :
    ∃ e', (condition expression).run s = .ok e' s' := by
  obtain ⟨s₁, s₂, hopen, hr, hclose⟩ := reads_between_iff.1 hr
  obtain ⟨e', he'⟩ := expression_before hexpression he (by simp) hr hclose
  refine ⟨e', ?_⟩
  rw [condition, bind_of_ok (expectSymbol_of_reads hopen), bind_of_ok he',
    bind_of_ok (expectSymbol_of_reads hclose)]
  rfl

include hblock

theorem ifStatement_complete_ifThen {e : Syntax.Expression} {body : List Syntax.Statement}
    (h : (Syntax.Statement.ifThen e body).Fits site levels)
    (hr : s.Reads (Syntax.Statement.ifThen e body).tokens s')
    (hfollow : s'.current? ≠ some (.keyword .else)) :
    ∃ t, (ifStatement expression block).run s = .ok t s' := by
  obtain ⟨s₁, hif, hr⟩ := reads_cons_iff_exists.1 hr
  obtain ⟨s₂, hcondition, hbody⟩ := reads_append_iff.1 hr
  obtain ⟨e', he⟩ := condition_complete hexpression
    (h.expressions e (by simp [Syntax.Statement.expressions])) hcondition
  obtain ⟨ss, hss⟩ := hblock body h.ifThen_body hbody trivial
  refine ⟨.ifThen e' ss, ?_⟩
  rw [ifStatement, bind_of_ok (advance_of_reads hif), bind_of_ok he, bind_of_ok hss,
    bind_of_ok currentKeyword_run, if_neg fun helse => hfollow (keyword?_eq_some_iff.1 helse)]
  rfl

theorem ifStatement_complete_ifElse {e : Syntax.Expression} {body alternative : List Syntax.Statement}
    (h : (Syntax.Statement.ifElse e body alternative).Fits site levels)
    (hr : s.Reads (Syntax.Statement.ifElse e body alternative).tokens s') :
    ∃ t, (ifStatement expression block).run s = .ok t s' := by
  obtain ⟨s₁, hif, hr⟩ := reads_cons_iff_exists.1 hr
  obtain ⟨s₂, hcondition, hr⟩ := reads_append_iff.1 hr
  obtain ⟨s₃, hbody, hr⟩ := reads_append_iff.1 hr
  obtain ⟨s₄, helse, halternative⟩ := reads_cons_iff_exists.1 hr
  obtain ⟨e', he⟩ := condition_complete hexpression
    (h.expressions e (by simp [Syntax.Statement.expressions])) hcondition
  obtain ⟨ss, hss⟩ := hblock body h.ifElse_blocks.1 hbody trivial
  obtain ⟨ts, hts⟩ := hblock alternative h.ifElse_blocks.2 halternative trivial
  refine ⟨.ifElse e' ss ts, ?_⟩
  rw [ifStatement, bind_of_ok (advance_of_reads hif), bind_of_ok he, bind_of_ok hss,
    bind_of_ok currentKeyword_run, if_pos (keyword?_eq_some_iff.2 helse.current?_eq),
    bind_of_ok (advance_of_reads helse), bind_of_ok hts]
  rfl

theorem whileStatement_complete {e : Syntax.Expression} {body : List Syntax.Statement}
    (h : (Syntax.Statement.while e body).Fits site levels)
    (hr : s.Reads (Syntax.Statement.while e body).tokens s') :
    ∃ t, (whileStatement expression block).run s = .ok t s' := by
  obtain ⟨s₁, hwhile, hr⟩ := reads_cons_iff_exists.1 hr
  obtain ⟨s₂, hcondition, hbody⟩ := reads_append_iff.1 hr
  obtain ⟨e', he⟩ := condition_complete hexpression
    (h.expressions e (by simp [Syntax.Statement.expressions])) hcondition
  obtain ⟨ss, hss⟩ := hblock body h.while_body hbody trivial
  refine ⟨.while e' ss, ?_⟩
  rw [whileStatement, bind_of_ok (advance_of_reads hwhile), bind_of_ok he, bind_of_ok hss]
  rfl

omit hblock

theorem doStatement_complete (hcx : cx.At site) {qualifier : Option String} {subroutine : String}
    {arguments : List Syntax.Expression}
    (h : (Syntax.Statement.call qualifier subroutine arguments).Fits site levels)
    (hr : s.Reads (Syntax.Statement.call qualifier subroutine arguments).tokens s') :
    ∃ t, (doStatement cx expression).run s = .ok t s' := by
  rw [Syntax.Statement.tokens, ← List.append_assoc] at hr
  obtain ⟨s₁, s₂, hdo, hr, hsemicolon⟩ := reads_between_iff.1 hr
  have hkind : qualifier = none → site.kind ≠ .function := by
    rintro rfl
    exact h.self
  obtain ⟨name, s₃, hname, -, hcall⟩ := callOf_complete hexpression hcx hkind h.expressions hr
  obtain ⟨⟨callee, subroutine', as⟩, hcall⟩ := hcall s₁.span
  refine ⟨.call callee subroutine' as, ?_⟩
  rw [doStatement, bind_of_ok (advance_of_reads hdo), bind_of_ok (identifier_of_reads hname)]
  dsimp only
  rw [bind_of_ok hcall]
  dsimp only
  rw [bind_of_ok (expectSymbol_of_reads hsemicolon)]
  rfl

theorem returnStatement_complete {value : Option Syntax.Expression}
    (h : (Syntax.Statement.return value).Fits site levels)
    (hr : s.Reads (Syntax.Statement.return value).tokens s') :
    ∃ t, (returnStatement expression).run s = .ok t s' := by
  cases value with
  | none =>
    obtain ⟨s₁, hreturn, hsemicolon⟩ := reads_cons_iff_exists.1 hr
    refine ⟨.return none, ?_⟩
    rw [returnStatement, bind_of_ok (advance_of_reads hreturn), bind_of_ok currentSymbol_run,
      if_pos (symbol?_eq_some_iff.2 hsemicolon.current?_eq), bind_of_ok (EStateM.run_pure _ _),
      bind_of_ok (expectSymbol_of_reads hsemicolon)]
    rfl
  | some value =>
    obtain ⟨s₁, s₂, hreturn, hr, hsemicolon⟩ := reads_between_iff.1 hr
    have hfirst : s₁.symbol? ≠ some .semicolon := by
      obtain ⟨t, ts, hts, -, ht⟩ := value.exists_tokens_eq_cons
      rw [hts] at hr
      intro hsymbol
      exact ht (Option.some.inj (hr.current?_eq.symm.trans (symbol?_eq_some_iff.1 hsymbol)))
    obtain ⟨e, he⟩ := expression_before hexpression
      (h.expressions value (by simp [Syntax.Statement.expressions])) (by simp) hr hsemicolon
    refine ⟨.return (some e), ?_⟩
    rw [returnStatement, bind_of_ok (advance_of_reads hreturn), bind_of_ok currentSymbol_run,
      if_neg hfirst, bind_of_ok (map_some_eq_ok.2 he),
      bind_of_ok (expectSymbol_of_reads hsemicolon)]
    rfl

include hblock

theorem statement?_complete (hcx : cx.At site) {statement : Syntax.Statement}
    (h : statement.Fits site levels) (hr : s.Reads statement.tokens s')
    (hfollow : s'.current? ≠ some (.keyword .else)) :
    ∃ t, (statement? cx expression block).run s = .ok (some t) s' := by
  have hkeyword {k : Keyword} (hk : s.current? = some (.keyword k)) : s.keyword? = some k :=
    keyword?_eq_some_iff.2 hk
  rw [statement?, bind_of_ok currentKeyword_run]
  cases statement with
  | assign target value =>
    obtain ⟨t, ht⟩ := letStatement_complete_assign hexpression hcx h hr
    exact ⟨t, by rw [hkeyword hr.current?_eq]; exact map_some_eq_ok.2 ht⟩
  | assignElement array index value =>
    obtain ⟨t, ht⟩ := letStatement_complete_assignElement hexpression hcx h hr
    exact ⟨t, by rw [hkeyword hr.current?_eq]; exact map_some_eq_ok.2 ht⟩
  | ifThen condition body =>
    obtain ⟨t, ht⟩ := ifStatement_complete_ifThen hexpression hblock h hr hfollow
    exact ⟨t, by rw [hkeyword hr.current?_eq]; exact map_some_eq_ok.2 ht⟩
  | ifElse condition body alternative =>
    obtain ⟨t, ht⟩ := ifStatement_complete_ifElse hexpression hblock h hr
    exact ⟨t, by rw [hkeyword hr.current?_eq]; exact map_some_eq_ok.2 ht⟩
  | «while» condition body =>
    obtain ⟨t, ht⟩ := whileStatement_complete hexpression hblock h hr
    exact ⟨t, by rw [hkeyword hr.current?_eq]; exact map_some_eq_ok.2 ht⟩
  | call qualifier subroutine arguments =>
    obtain ⟨t, ht⟩ := doStatement_complete hexpression hcx h hr
    exact ⟨t, by rw [hkeyword hr.current?_eq]; exact map_some_eq_ok.2 ht⟩
  | «return» value =>
    obtain ⟨t, ht⟩ := returnStatement_complete hexpression h hr
    have hreturn : s.current? = some (.keyword .return) := by
      cases value <;> exact hr.current?_eq
    exact ⟨t, by rw [hkeyword hreturn]; exact map_some_eq_ok.2 ht⟩

omit hexpression hblock

theorem braced_complete {statements : Parser (List Statement)} {ss : List Syntax.Statement}
    (h : Accepts statements (Syntax.Statement.tokensAll ss) (· = some (.symbol .closeBrace))) :
    Accepts (braced statements) (Syntax.inBraces (Syntax.Statement.tokensAll ss)) fun _ => True := by
  intro s s' hr _
  obtain ⟨s₁, s₂, hopen, hr, hclose⟩ := reads_between_iff.1 hr
  obtain ⟨ts, hts⟩ := h hr hclose.current?_eq
  refine ⟨ts, ?_⟩
  rw [braced, bind_of_ok (expectSymbol_of_reads hopen), bind_of_ok hts,
    bind_of_ok (expectSymbol_of_reads hclose)]
  rfl

theorem statement?_closeBrace (h : s.current? = some (.symbol .closeBrace)) :
    (statement? cx expression block).run s = .ok none s := by
  have hkeyword : s.keyword? = none := by
    rw [TokenStream.keyword?, h]
  rw [statement?, bind_of_ok currentKeyword_run, hkeyword]
  rfl

end statements

theorem statements_complete (hcx : cx.At site) (levels : Nat) :
    ∀ ss : List Syntax.Statement, Syntax.Statement.BlockFits site levels ss →
      Accepts (statements cx levels) (Syntax.Statement.tokensAll ss)
        (· = some (.symbol .closeBrace)) := by
  induction levels with
  | zero => exact fun ss h => absurd h.depth_le (Nat.not_succ_le_zero _)
  | succ levels ih =>
    intro ss h s s' hr hfollow
    rw [Syntax.Statement.tokensAll_eq] at hr
    refine exists_many_ok (· ≠ some (.keyword .else)) ?_ ?_ ?_ ?_ hr
    · intro statement hs s s' hr hfollow
      exact statement?_complete (fun e he => expression_complete hcx he)
        (fun ss hss => braced_complete (ih ss hss)) hcx (h.fits_of_mem hs) hr hfollow
    · intro statement _
      obtain ⟨t, ts, hts, ht, -⟩ := statement.exists_tokens_eq_cons
      exact ⟨t, ts, hts, fun heq => ht (Option.some.inj heq)⟩
    · rw [hfollow]
      simp
    · exact statement?_closeBrace hfollow

end Parser
end JackLang
