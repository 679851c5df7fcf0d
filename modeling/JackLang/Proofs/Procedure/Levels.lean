import JackLang.Proofs.Procedure.Steps

/-! Which procedures count levels of nesting. Statements and terms do, around all that they do
(`Nesting`); every other production leaves the count to what it calls (`Level`), and so does each
part of the grammar that productions are made of (`level_or_nest`). -/

namespace JackLang

/-- The productions that are levels of nesting. -/
def Site.nests : Site → Bool
  | statements | term => true
  | classDeclaration | declaration | subroutine | parameters | letStatement | ifStatement
  | whileStatement | doStatement | returnStatement | expression | termBody | call | arguments
  | loop _ => false

namespace Procedure

variable {α β σ : Type} {cx : Context}

/-- A procedure that does not count levels itself, whatever it calls. -/
inductive Level : {α : Type} → Procedure α → Prop
  | answer {α : Type} (answer : Except Fault α) : Level (.answer answer)
  | look {α : Type} {next : View → Procedure α} : (∀ view, Level (next view)) → Level (.look next)
  | read {α : Type} {next : Procedure α} : Level next → Level (.read next)
  | call {α : Type} (p : Production α) : Level (.call p)
  | loop {σ : Type} {l : Loop} {step : σ → Procedure (ForInStep σ)} (state : σ) :
    (∀ state, Level (step state)) → Level (.loop l step state)
  | bind {α β : Type} {first : Procedure α} {next : α → Procedure β} :
    Level first → (∀ a, Level (next a)) → Level (.bind first next)

namespace Level

/-! ### Parts of the grammar -/

theorem pure (a : α) : Level (pure a : Procedure α) := .answer (.ok a)

theorem map {p : Procedure α} (f : α → β) (h : Level p) : Level (f <$> p) :=
  .bind h fun _ => .answer _

theorem peek (q : Parser α) : Level (Procedure.peek q) := by
  refine .look fun view => ?_
  split <;> exact .answer _

theorem advance : Level Procedure.advance := by
  refine .bind (peek _) fun found => ?_
  cases found with
  | none => exact peek _
  | some token => exact .read (pure _)

theorem expectKeyword (k : Keyword) : Level (Procedure.expectKeyword k) := by
  refine .bind (peek _) fun found => ?_
  split
  · exact advance
  · exact peek _

theorem expectSymbol (symbol : Symbol) : Level (Procedure.expectSymbol symbol) := by
  refine .bind (peek _) fun found => ?_
  split
  · exact advance
  · exact peek _

theorem identifier : Level Procedure.identifier := by
  refine .bind (peek _) fun found => ?_
  match found with
  | some (.identifier name) => exact .bind (peek _) fun _ => .bind advance fun _ => pure _
  | none | some (.keyword _) | some (.symbol _) | some (.integer _) | some (.string _) =>
    exact peek _

theorem many {l : Loop} {item? : Procedure (Option α)} (h : Level item?) :
    Level (Procedure.many l item?) := by
  refine .bind (.loop _ fun items => .bind h fun item => ?_) fun items => pure _
  cases item with
  | none | some _ => exact pure _

theorem comma : Level Procedure.comma := by
  refine .bind (peek _) fun found => ?_
  split
  · exact .bind advance fun _ => pure _
  · exact pure _

theorem commaSeparated {l : Loop} {item : Procedure α} (h : Level item) :
    Level (Procedure.commaSeparated l item) := by
  refine .bind h fun first => .bind (many (.bind comma fun more => ?_)) fun rest => pure _
  cases more with
  | true => exact .bind h fun _ => pure _
  | false => exact pure _

/-! ### Expressions -/

theorem expression : Level (Procedure.expression cx) := by
  refine .bind (.call _) fun first => .bind (many (.bind (peek _) fun op? => ?_)) fun rest => pure _
  cases op? with
  | none => exact pure _
  | some op => exact .bind advance fun _ => .bind (.call _) fun _ => pure _

theorem arguments : Level (Procedure.arguments cx) := by
  refine .bind (peek _) fun found => ?_
  split
  · exact pure _
  · exact commaSeparated (.call _)

theorem callTail (name : String) (span : Span) : Level (Procedure.callTail cx name span) := by
  refine .bind (peek _) fun found => ?_
  have harguments (f : List Expression → Callee × String × List Expression) :
      Level (do
        let arguments ← Procedure.call (.arguments cx)
        Procedure.expectSymbol .closeParen
        return f arguments) :=
    .bind (.call _) fun _ => .bind (expectSymbol _) fun _ => pure _
  rcases found with _ | symbol
  · exact peek _
  · cases symbol with
    | openParen => exact .bind (peek _) fun _ => .bind advance fun _ => harguments _
    | dot =>
      refine .bind advance fun _ => .bind identifier fun _ => ?_
      exact .bind (expectSymbol _) fun _ => harguments _
    | _ => exact peek _

theorem named (name : String) (span : Span) : Level (Procedure.named cx name span) := by
  refine .bind (peek _) fun found => ?_
  have hvariable : Level (do return Term.variable (← Procedure.peek (cx.resolve name span))) :=
    .bind (peek _) fun _ => pure _
  have hcall : Level (do
      let call ← Procedure.call (.call cx name span)
      return Term.call call.1 call.2.1 call.2.2) :=
    .bind (.call _) fun _ => pure _
  rcases found with _ | symbol
  · exact hvariable
  · cases symbol with
    | openBracket =>
      refine .bind (peek _) fun _ => .bind advance fun _ => .bind (.call _) fun _ => ?_
      exact .bind (expectSymbol _) fun _ => pure _
    | openParen | dot => exact hcall
    | _ => exact hvariable

theorem termBody : Level (Procedure.termBody cx) := by
  refine .bind (peek _) fun span => .bind (peek _) fun found => ?_
  rcases found with _ | token
  · exact peek _
  · cases token with
    | integer value =>
      have hinteger : Level (do Procedure.advance; return Term.integer value) :=
        .bind advance fun _ => pure _
      dsimp only
      split
      · exact .bind (peek _) fun _ => hinteger
      · exact hinteger
    | string text => exact .bind advance fun _ => .bind (peek _) fun _ => pure _
    | keyword k =>
      have hconstant (constant : Constant) :
          Level (do Procedure.advance; return Term.constant constant) :=
        .bind advance fun _ => pure _
      cases k with
      | this => exact .bind advance fun _ => .bind (peek _) fun _ => pure _
      | true | false | null => exact hconstant _
      | _ => exact peek _
    | symbol symbol =>
      cases symbol with
      | openParen =>
        refine .bind advance fun _ => .bind (.call _) fun _ => ?_
        exact .bind (expectSymbol _) fun _ => pure _
      | minus | tilde => exact .bind advance fun _ => .bind (.call _) fun _ => pure _
      | _ => exact peek _
    | identifier name => exact .bind advance fun _ => named name span

/-! ### Statements -/

theorem letStatement : Level (Procedure.letStatement cx) := by
  have hvalue (f : Expression → Statement) : Level (do
      let value ← Procedure.call (.expression cx)
      Procedure.expectSymbol .semicolon
      return f value) :=
    .bind (.call _) fun _ => .bind (expectSymbol _) fun _ => pure _
  refine .bind advance fun _ => .bind identifier fun named => .bind (peek _) fun target => ?_
  refine .bind (peek _) fun found => ?_
  split
  · refine .bind advance fun _ => .bind (.call _) fun _ => ?_
    exact .bind (expectSymbol _) fun _ => .bind (expectSymbol _) fun _ => hvalue _
  · exact .bind (expectSymbol _) fun _ => hvalue _

theorem condition : Level (Procedure.condition cx) :=
  .bind (expectSymbol _) fun _ => .bind (.call _) fun _ => .bind (expectSymbol _) fun _ => pure _

theorem block : Level (Procedure.block cx) :=
  .bind (expectSymbol _) fun _ => .bind (.call _) fun _ => .bind (expectSymbol _) fun _ => pure _

theorem ifStatement : Level (Procedure.ifStatement cx) := by
  refine .bind advance fun _ => .bind condition fun _ => .bind block fun _ => ?_
  refine .bind (peek _) fun found => ?_
  split
  · exact .bind advance fun _ => .bind block fun _ => pure _
  · exact pure _

theorem whileStatement : Level (Procedure.whileStatement cx) :=
  .bind advance fun _ => .bind condition fun _ => .bind block fun _ => pure _

theorem doStatement : Level (Procedure.doStatement cx) :=
  .bind advance fun _ => .bind identifier fun _ => .bind (.call _) fun _ =>
    .bind (expectSymbol _) fun _ => pure _

theorem returnStatement : Level (Procedure.returnStatement cx) := by
  have hrest (value : Option Expression) : Level (do
      Procedure.expectSymbol .semicolon
      return Statement.return value) :=
    .bind (expectSymbol _) fun _ => pure _
  refine .bind advance fun _ => .bind (peek _) fun found => ?_
  dsimp only
  split
  · exact .bind (pure _) hrest
  · exact .bind (map _ (.call _)) hrest

theorem statement? : Level (Procedure.statement? cx) := by
  refine .bind (peek _) fun found => ?_
  rcases found with _ | k
  · exact pure _
  · cases k with
    | «let» | «if» | «while» | «do» | «return» => exact map _ (.call _)
    | _ => exact pure _

/-! ### Declarations and classes -/

theorem type : Level Procedure.type := by
  refine .bind (peek _) fun type? => ?_
  cases type? with
  | none => exact peek _
  | some type => exact .bind advance fun _ => pure _

theorem declaredName (scopes : Scopes) (type : VarType) (kind : VarKind) :
    Level (Procedure.declaredName scopes type kind) := by
  refine .bind identifier fun named => ?_
  dsimp only
  split
  · exact pure _
  · exact peek _

theorem declaredItems {l : Loop} {item : Scopes → Procedure (Variable × Scopes)}
    (hitem : ∀ scopes, Level (item scopes)) (scopes : Scopes) :
    Level (Procedure.declaredItems l item scopes) := by
  refine .bind (hitem _) fun first => .bind (.loop _ fun state => .bind comma fun more => ?_)
    fun vars => pure _
  cases more with
  | true => exact .bind (hitem _) fun _ => pure _
  | false => exact pure _

theorem declaration (kind : VarKind) (scopes : Scopes) :
    Level (Procedure.declaration kind scopes) :=
  .bind type fun type => .bind (declaredItems (declaredName · type kind) scopes) fun _ =>
    .bind (expectSymbol _) fun _ => pure _

theorem declarations {l : Loop} (kind? : Keyword → Option VarKind) (scopes : Scopes) :
    Level (Procedure.declarations l kind? scopes) := by
  refine .bind (.loop _ fun state => .bind (peek _) fun found => ?_) fun done => pure _
  dsimp only
  cases found.bind kind? with
  | none => exact pure _
  | some kind => exact .bind advance fun _ => .bind (.call _) fun _ => pure _

theorem parameters (scopes : Scopes) : Level (Procedure.parameters scopes) := by
  refine .bind (peek _) fun type? => ?_
  split
  · exact declaredItems (fun scopes => .bind type fun type => declaredName scopes type _) scopes
  · exact pure _

theorem subroutine (className : String) (kind : SubroutineKind) (scopes : Scopes) :
    Level (Procedure.subroutine className kind scopes) := by
  refine .bind (peek _) fun span => .bind advance fun _ => .bind (peek _) fun scopes => ?_
  refine .bind (peek _) fun found => ?_
  extract_lets rest
  have hrest returnType : Level (rest returnType) := by
    refine .bind identifier fun _ => .bind (expectSymbol _) fun _ => .bind (.call _) fun _ => ?_
    refine .bind (expectSymbol _) fun _ => .bind (expectSymbol _) fun _ => ?_
    refine .bind (declarations _ _) fun _ => .bind (peek _) fun _ => .bind (.call _) fun _ => ?_
    exact .bind (expectSymbol _) fun _ => pure _
  split
  · exact .bind advance fun _ => .bind (pure _) hrest
  · exact .bind (map _ type) hrest

theorem classDeclaration : Level Procedure.classDeclaration := by
  refine .bind (expectKeyword _) fun _ => .bind identifier fun _ => ?_
  refine .bind (expectSymbol _) fun _ => .bind (declarations _ _) fun _ => ?_
  refine .bind (many (.bind (peek _) fun found => ?_))
    fun _ => .bind (expectSymbol _) fun _ => pure _
  cases found.bind Parser.subroutineKind? with
  | none => exact pure _
  | some kind => exact .bind (.call _) fun _ => pure _

theorem program : Level Procedure.program := by
  refine .read (.bind (.call _) fun c => .bind (peek _) fun found => ?_)
  dsimp only
  split
  · exact .bind (peek _) fun _ => pure _
  · exact pure _

end Level

/-- Every production is level, or is one that nests and is level inside. -/
theorem level_or_nest (p : Production α) : Level p.procedure ∨
    p.site.nests ∧ ∃ nested inner, Level inner ∧ p.procedure = nest nested inner := by
  cases p with
  | statements cx => exact .inr ⟨rfl, _, _, .many .statement?, rfl⟩
  | term cx => exact .inr ⟨rfl, _, _, .call _, rfl⟩
  | classDeclaration => exact .inl .classDeclaration
  | declaration kind scopes => exact .inl (.declaration kind scopes)
  | subroutine className kind scopes => exact .inl (.subroutine className kind scopes)
  | parameters scopes => exact .inl (.parameters scopes)
  | letStatement cx => exact .inl .letStatement
  | ifStatement cx => exact .inl .ifStatement
  | whileStatement cx => exact .inl .whileStatement
  | doStatement cx => exact .inl .doStatement
  | returnStatement cx => exact .inl .returnStatement
  | expression cx => exact .inl .expression
  | termBody cx => exact .inl .termBody
  | call cx name span => exact .inl (.callTail name span)
  | arguments cx => exact .inl .arguments

end Procedure
end JackLang
