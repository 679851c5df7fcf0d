import JackLang.Proofs.Procedure.Performs

/-! The procedure of each production performs its parser. What a production consumes lifts the
ceiling for what comes behind it: a term, a call and a statement leave it at the top, an expression
and the lists leave it where the last round of their loops has put it. -/

namespace JackLang

variable {cx : Context} {name : String} {span : Span} {levels entry : Nat}

/-! ### Names and checks -/

namespace Parser.Stays

theorem resolve : Stays (cx.resolve name span) := by
  unfold Context.resolve
  split
  · exact pure _
  · exact throw _

theorem receiver : Stays (cx.receiver span) := by
  unfold Context.receiver
  split
  · exact pure _
  · exact throw _

theorem checkString (text : String) : Stays (checkString text span) := by
  unfold Parser.checkString
  split
  · exact throw _
  · split
    · exact throw _
    · exact pure _

theorem operator? : Stays operator? := currentSymbol.bind fun _ => pure _

theorem type? : Stays type? := by
  refine current.bind fun found => ?_
  split <;> exact pure _

theorem subroutineScopes (className : String) (kind : SubroutineKind) (scopes : Scopes) :
    Stays (subroutineScopes className kind span scopes) := by
  unfold Parser.subroutineScopes
  cases kind with
  | constructor | function => exact pure _
  | method =>
    dsimp only
    split
    · exact pure _
    · exact throw _

theorem checkFields (className : String) (kind : SubroutineKind) (scopes : Scopes) :
    Stays (checkFields className kind scopes) := by
  unfold Parser.checkFields
  dsimp only
  split
  · exact throw _
  · exact pure _

end Parser.Stays

namespace Procedure.Performs

/-! ### Expressions -/

section expressions

variable {term : Parser Term} (hterm : ∀ {entry}, Site.term.rank < entry →
  Performs levels entry (fun _ => Site.top) (.call (.term cx)) term)
include hterm

theorem expression (hrank : Site.expression.rank < entry) :
    Performs levels entry (fun _ => (Site.loop .operators).rank) (.call (.expression cx))
      (Parser.expressionOf term) := by
  refine call .expression rfl hrank ((hterm (by decide)).bind fun first => ?_)
  refine (many (by decide) ((peek .operator?).bind fun op? => ?_) fun s hs => ?_).bind
    fun rest => pure (Nat.le_refl _)
  · cases op? with
    | none => exact pure (Nat.le_refl _)
    | some op =>
      exact advance.bind fun _ => (hterm (by decide)).bind fun _ => pure (Site.rank_lt_top _)
  · have hoperator : Parser.operator?.run s = .ok none s := by
      rw [Parser.operator?, Parser.bind_of_ok (Parser.currentSymbol_of_end hs)]
      rfl
    rw [Parser.bind_of_ok hoperator]
    rfl

theorem arguments (hrank : Site.arguments.rank < entry) :
    Performs levels entry (fun _ => (Site.loop .arguments).rank) (.call (.arguments cx))
      (Parser.arguments (Parser.expressionOf term)) := by
  refine call .arguments rfl hrank (currentSymbol.bind fun found => ?_)
  split
  · exact pure (by decide)
  · exact commaSeparated (by decide) (by decide) (expression hterm (by decide))

theorem callTail (hrank : Site.call.rank < entry) :
    Performs levels entry (fun _ => Site.top) (.call (.call cx name span))
      (Parser.callOf cx (Parser.expressionOf term) name span) := by
  refine call .call rfl hrank (currentSymbol.bind fun found => ?_)
  have harguments {α : Type} (f : List Expression → α) :
      Performs levels Site.top (fun _ => Site.top)
        (do let arguments ← Procedure.call (.arguments cx)
            Procedure.expectSymbol .closeParen
            return f arguments)
        (do let arguments ← Parser.arguments (Parser.expressionOf term)
            Parser.expectSymbol .closeParen
            return f arguments) :=
    (arguments hterm (by decide)).bind fun _ => (expectSymbol _).bind fun _ => pure (Nat.le_refl _)
  rcases found with _ | symbol
  · exact unexpected _
  · cases symbol with
    | openParen => exact (peek .receiver).bind fun _ => advance.bind fun _ => harguments _
    | dot =>
      refine advance.bind fun _ => identifier.bind fun _ => ?_
      exact (expectSymbol _).bind fun _ => harguments _
    | _ => exact unexpected _

theorem named :
    Performs levels Site.top (fun _ => Site.top) (Procedure.named cx name span)
      (Parser.named cx (Parser.expressionOf term) name span) := by
  refine currentSymbol.bind fun found => ?_
  have hvariable : Performs levels Site.top (fun _ => Site.top)
      (do return Term.variable (← Procedure.peek (cx.resolve name span)))
      (do return Term.variable (← cx.resolve name span)) :=
    (peek .resolve).bind fun _ => pure (Nat.le_refl _)
  have hcall : Performs levels Site.top (fun _ => Site.top)
      (do let call ← Procedure.call (.call cx name span)
          return Term.call call.1 call.2.1 call.2.2)
      (do let call ← Parser.callOf cx (Parser.expressionOf term) name span
          return Term.call call.1 call.2.1 call.2.2) :=
    (callTail hterm (by decide)).bind fun _ => pure (Nat.le_refl _)
  rcases found with _ | symbol
  · exact hvariable
  · cases symbol with
    | openBracket =>
      refine (peek .resolve).bind fun _ => advance.bind fun _ => ?_
      refine (expression hterm (by decide)).bind fun _ => ?_
      exact (expectSymbol _).bind fun _ => pure (Nat.le_refl _)
    | openParen | dot => exact hcall
    | _ => exact hvariable

end expressions

/-- A term uses up a level. -/
theorem term (hrank : Site.term.rank < entry) :
    Performs levels entry (fun _ => Site.top) (.call (.term cx)) (Parser.term cx levels) := by
  induction levels generalizing entry with
  | zero => exact call .term rfl hrank (nest_zero .expression)
  | succ levels ih =>
    refine call .term rfl hrank (nest .expression (call .termBody rfl (by decide) ?_))
    refine (peek .span).bind fun span => (peek .current).bind fun found => ?_
    rcases found with _ | token
    · exact unexpected _
    · cases token with
      | integer value =>
        have hinteger : Performs levels Site.termBody.rank (fun _ => Site.top)
            (do Procedure.advance; return Term.integer value)
            (do Parser.advance; return Term.integer value) :=
          advance.bind fun _ => pure (Nat.le_refl _)
        dsimp only
        split
        · exact (throw _).bind fun _ => hinteger
        · exact hinteger
      | string text =>
        refine advance.bind fun _ => (peek (.checkString text)).bind fun _ => ?_
        exact pure (Nat.le_refl _)
      | keyword k =>
        have hconstant (constant : Constant) :
            Performs levels Site.termBody.rank (fun _ => Site.top)
            (do Procedure.advance; return Term.constant constant)
            (do Parser.advance; return Term.constant constant) :=
          advance.bind fun _ => pure (Nat.le_refl _)
        cases k with
        | this =>
          refine advance.bind fun _ => (peek .receiver).bind fun _ => ?_
          exact pure (Nat.le_refl _)
        | true | false | null => exact hconstant _
        | _ => exact unexpected _
      | symbol symbol =>
        cases symbol with
        | openParen =>
          refine advance.bind fun _ => (expression ih (by decide)).bind fun _ => ?_
          exact (expectSymbol _).bind fun _ => pure (Nat.le_refl _)
        | minus | tilde =>
          exact advance.bind fun _ => (ih (by decide)).bind fun _ => pure (Nat.le_refl _)
        | _ => exact unexpected _
      | identifier name => exact advance.bind fun _ => named ih

/-! ### Statements -/

section statements

/-- The statement starts at its keyword. -/
theorem letStatement (hrank : Site.letStatement.rank < entry) :
    Performs levels entry (fun _ => Site.top) (.call (.letStatement cx))
      (Parser.letStatement cx (Parser.expression cx levels)) := by
  have hexpression : Performs levels Site.top (fun _ => (Site.loop .operators).rank)
      (.call (.expression cx)) (Parser.expression cx levels) := expression term (by decide)
  have hvalue (f : Expression → Statement) : Performs levels Site.top (fun _ => Site.top)
      (do let value ← Procedure.call (.expression cx)
          Procedure.expectSymbol .semicolon
          return f value)
      (do let value ← Parser.expression cx levels
          Parser.expectSymbol .semicolon
          return f value) :=
    hexpression.bind fun _ => (expectSymbol _).bind fun _ => pure (Nat.le_refl _)
  refine call .letStatement rfl hrank (advance.bind fun _ => identifier.bind fun named => ?_)
  refine (peek .resolve).bind fun _ => currentSymbol.bind fun found => ?_
  split
  · refine advance.bind fun _ => hexpression.bind fun _ => ?_
    exact (expectSymbol _).bind fun _ => (expectSymbol _).bind fun _ => hvalue _
  · exact (expectSymbol _).bind fun _ => hvalue _

theorem condition :
    Performs levels entry (fun _ => Site.top) (Procedure.condition cx)
      (Parser.condition (Parser.expression cx levels)) :=
  (expectSymbol _).bind fun _ => (expression term (by decide)).bind fun _ =>
    (expectSymbol _).bind fun _ => pure (Nat.le_refl _)

theorem doStatement (hrank : Site.doStatement.rank < entry) :
    Performs levels entry (fun _ => Site.top) (.call (.doStatement cx))
      (Parser.doStatement cx (Parser.expression cx levels)) := by
  refine call .doStatement rfl hrank (advance.bind fun _ => identifier.bind fun named => ?_)
  exact (callTail term (by decide)).bind fun _ => (expectSymbol _).bind fun _ =>
    pure (Nat.le_refl _)

theorem returnStatement (hrank : Site.returnStatement.rank < entry) :
    Performs levels entry (fun _ => Site.top) (.call (.returnStatement cx))
      (Parser.returnStatement (Parser.expression cx levels)) := by
  have hrest {entry : Nat} (value : Option Expression) : Performs levels entry (fun _ => Site.top)
      (do Procedure.expectSymbol .semicolon; return Statement.return value)
      (do Parser.expectSymbol .semicolon; return Statement.return value) :=
    (expectSymbol _).bind fun _ => pure (Nat.le_refl _)
  refine call .returnStatement rfl hrank (advance.bind fun _ => currentSymbol.bind fun found => ?_)
  dsimp only
  split
  · exact (pure (Nat.le_refl _)).bind hrest
  · have hvalue : Performs levels Site.top (fun _ => (Site.loop .operators).rank)
        (some <$> Procedure.call (.expression cx)) (some <$> Parser.expression cx levels) :=
      (expression term (by decide)).map fun _ => Nat.le_refl _
    exact hvalue.bind hrest

variable {block : Parser (List Statement)}
  (hblock : ∀ entry, Performs levels entry (fun _ => Site.top) (Procedure.block cx) block)
include hblock

theorem ifStatement (hrank : Site.ifStatement.rank < entry) :
    Performs levels entry (fun _ => Site.top) (.call (.ifStatement cx))
      (Parser.ifStatement (Parser.expression cx levels) block) := by
  refine call .ifStatement rfl hrank (advance.bind fun _ => condition.bind fun _ => ?_)
  refine (hblock _).bind fun _ => currentKeyword.bind fun found => ?_
  split
  · exact advance.bind fun _ => (hblock _).bind fun _ => pure (Nat.le_refl _)
  · exact pure (Nat.le_refl _)

theorem whileStatement (hrank : Site.whileStatement.rank < entry) :
    Performs levels entry (fun _ => Site.top) (.call (.whileStatement cx))
      (Parser.whileStatement (Parser.expression cx levels) block) :=
  call .whileStatement rfl hrank <| advance.bind fun _ => condition.bind fun _ =>
    (hblock _).bind fun _ => pure (Nat.le_refl _)

theorem statement? :
    Performs levels (Site.loop .statements).rank
      (fun a? => Loop.statements.behind a?.isSome) (Procedure.statement? cx)
      (Parser.statement? cx (Parser.expression cx levels) block) := by
  have hsome {p : Procedure Statement} {q : Parser Statement}
      (h : Performs levels (Site.loop .statements).rank (fun _ => Site.top) p q) :
      Performs levels (Site.loop .statements).rank
        (fun a? => Loop.statements.behind a?.isSome) (some <$> p) (some <$> q) :=
    h.map fun _ => Site.rank_lt_top _
  refine currentKeyword.bind fun found => ?_
  rcases found with _ | k
  · exact pure (Nat.le_refl _)
  · cases k with
    | «let» => exact hsome (letStatement (by decide))
    | «if» => exact hsome (ifStatement hblock (by decide))
    | «while» => exact hsome (whileStatement hblock (by decide))
    | «do» => exact hsome (doStatement (by decide))
    | «return» => exact hsome (returnStatement (by decide))
    | _ => exact pure (Nat.le_refl _)

end statements

/-- A block of statements uses up a level. -/
theorem statements (hrank : Site.statements.rank < entry) :
    Performs levels entry (fun _ => (Site.loop .statements).rank) (.call (.statements cx))
      (Parser.statements cx levels) := by
  induction levels generalizing entry with
  | zero => exact call .statements rfl hrank (nest_zero .statements)
  | succ levels ih =>
    have hblock (entry : Nat) : Performs levels entry (fun _ => Site.top) (Procedure.block cx)
        (Parser.braced (Parser.statements cx levels)) :=
      (expectSymbol _).bind fun _ => (ih (by decide)).bind fun _ =>
        (expectSymbol _).bind fun _ => pure (Nat.le_refl _)
    refine call .statements rfl hrank (nest .statements (many (by decide) (statement? hblock) ?_))
    intro s hs
    rw [Parser.statement?, Parser.bind_of_ok (Parser.currentKeyword_of_end hs)]
    rfl

/-! ### Declarations -/

theorem type : Performs levels entry (fun _ => Site.top) Procedure.type Parser.type := by
  refine (peek .type?).bind fun type? => ?_
  cases type? with
  | none => exact unexpected _
  | some type => exact advance.bind fun _ => pure (Nat.le_refl _)

theorem declaredName (scopes : Scopes) (type : VarType) (kind : VarKind) :
    Performs levels entry (fun _ => Site.top) (Procedure.declaredName scopes type kind)
      (Parser.declaredName scopes type kind) := by
  refine identifier.bind fun named => ?_
  dsimp only
  cases hdeclare : Scopes.declare named.1 type kind named.2 scopes with
  | ok v scopes => exact pure (Nat.le_refl _)
  | error fault => exact throw _

theorem declaredItems {l : Loop} {item : Scopes → Procedure (Variable × Scopes)}
    {item' : Scopes → Parser (Variable × Scopes)}
    (hitem : ∀ {entry} scopes,
      Performs levels entry (fun _ => Site.top) (item scopes) (item' scopes))
    (scopes : Scopes) :
    Performs levels entry (fun _ => (Site.loop l).rank) (Procedure.declaredItems l item scopes)
      (Parser.declaredItems item' scopes) := by
  refine (hitem scopes).bind fun first => (loop (Site.rank_lt_top _) (fun state => ?_)
    (fun state s hs => ?_) _).bind fun _ => pure (Nat.le_refl _)
  · refine comma.bind fun more => ?_
    cases more with
    | true => exact (hitem _).bind fun _ => pure (Site.rank_lt_top _)
    | false => exact pure (Nat.le_refl _)
  · rw [Parser.bind_of_ok (Parser.comma_of_end hs)]
    rfl

theorem declaration (kind : VarKind) (scopes : Scopes) (hrank : Site.declaration.rank < entry) :
    Performs levels entry (fun _ => Site.top) (.call (.declaration kind scopes))
      (Parser.declaration kind scopes) :=
  call .declaration rfl hrank <| type.bind fun type =>
    (declaredItems (declaredName · type kind) scopes).bind fun _ =>
      (expectSymbol _).bind fun _ => pure (Nat.le_refl _)

theorem declarations {l : Loop} (hrank : (Site.loop l).rank < entry)
    (kind? : Keyword → Option VarKind) (scopes : Scopes) :
    Performs levels entry (fun _ => (Site.loop l).rank) (Procedure.declarations l kind? scopes)
      (Parser.declarations kind? scopes) := by
  refine (loop hrank (fun state => ?_) (fun state s hs => ?_) _).bind fun _ => pure (Nat.le_refl _)
  · refine currentKeyword.bind fun found => ?_
    dsimp only
    cases found.bind kind? with
    | none => exact pure (Nat.le_refl _)
    | some kind =>
      refine advance.bind fun _ => (declaration _ _ (by decide)).bind fun _ => ?_
      exact pure (Site.rank_lt_top _)
  · rw [Parser.bind_of_ok (Parser.currentKeyword_of_end hs)]
    rfl

theorem parameters (scopes : Scopes) (hrank : Site.parameters.rank < entry) :
    Performs levels entry (fun _ => (Site.loop .parameters).rank) (.call (.parameters scopes))
      (Parser.parameters scopes) := by
  refine call .parameters rfl hrank ((peek .type?).bind fun type? => ?_)
  split
  · exact declaredItems (fun scopes => type.bind fun type => declaredName scopes type _) scopes
  · exact pure (by decide)

/-! ### Subroutines and classes -/

theorem subroutine (className : String) (kind : SubroutineKind) (scopes : Scopes)
    (hrank : Site.subroutine.rank < entry) :
    Performs maxNesting entry (fun _ => Site.top) (.call (.subroutine className kind scopes))
      (Parser.subroutine className kind scopes) := by
  refine call .subroutine rfl hrank ((peek .span).bind fun span => advance.bind fun _ => ?_)
  refine (peek (.subroutineScopes _ _ _)).bind fun scopes => currentKeyword.bind fun found => ?_
  extract_lets rest rest'
  have hrest returnType :
      Performs maxNesting Site.top (fun _ => Site.top) (rest returnType) (rest' returnType) := by
    refine identifier.bind fun _ => (expectSymbol _).bind fun _ => ?_
    refine (parameters scopes (by decide)).bind fun _ => (expectSymbol _).bind fun _ => ?_
    refine (expectSymbol _).bind fun _ => (declarations (by decide) _ _).bind fun _ => ?_
    refine (peek (.checkFields _ _ _)).bind fun _ => (statements (by decide)).bind fun _ => ?_
    exact (expectSymbol _).bind fun _ => pure (Nat.le_refl _)
  split
  · exact advance.bind fun _ => (pure (Nat.le_refl _)).bind hrest
  · have htype : Performs maxNesting Site.top (fun _ => Site.top) (some <$> Procedure.type)
        (some <$> Parser.type) := type.map fun _ => Nat.le_refl _
    exact htype.bind hrest

theorem classDeclaration :
    Performs maxNesting Site.top (fun _ => Site.top) (.call .classDeclaration)
      Parser.classDeclaration := by
  refine call .classDeclaration rfl (by decide) ((expectKeyword _).bind fun _ => ?_)
  refine identifier.bind fun named => (expectSymbol _).bind fun _ => ?_
  refine (declarations (by decide) _ _).bind fun declared => ?_
  refine (many (by decide) ?_ fun s hs => ?_).bind fun _ => (expectSymbol _).bind fun _ =>
    pure (Nat.le_refl _)
  · refine currentKeyword.bind fun found => ?_
    cases found.bind Parser.subroutineKind? with
    | none => exact pure (Nat.le_refl _)
    | some kind => exact (subroutine _ _ _ (by decide)).bind fun _ => pure (Site.rank_lt_top _)
  · rw [Parser.bind_of_ok (Parser.currentKeyword_of_end hs)]
    rfl

/-- The parser starts with a token to look at, where the reader follows already. -/
theorem wholeClass :
    Performs maxNesting Site.top (fun _ => Site.top) Procedure.wholeClass Parser.program := by
  intro reader s ceiling hs hceiling
  have hstart : Parser.start.run s = .ok () s := Parser.start_eq_ok.2 ⟨hs.lexer.live, rfl⟩
  rw [Parser.program, Parser.bind_of_ok hstart]
  refine (classDeclaration.bind fun c => (peek .current).bind fun found => ?_) hs hceiling
  dsimp only
  split
  · exact (unexpected _).bind fun _ => pure (Nat.le_refl _)
  · exact pure (Nat.le_refl _)

end Procedure.Performs
end JackLang
