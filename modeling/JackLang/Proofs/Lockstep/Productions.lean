import JackLang.Proofs.Engine.Class
import JackLang.Proofs.Lockstep.Basic

/-! Every parser of the grammar runs in lockstep with itself: it takes its branches by tokens, and
what it knows of places goes into faults alone. -/

namespace JackLang

variable {P : Span → Span → Prop} {a b : Span}

/-- A name is declared with the same success at any place. -/
theorem Scopes.declare_alike (h : P a b) (name : String) (type : VarType) (kind : VarKind)
    (scopes : Scopes) :
    (∃ v scopes', declare name type kind a scopes = .ok v scopes' ∧
        declare name type kind b scopes = .ok v scopes') ∨
      ∃ fault fault', declare name type kind a scopes = .error fault scopes ∧
        declare name type kind b scopes = .error fault' scopes ∧ fault.Alike P fault' := by
  unfold declare
  split
  · exact .inr ⟨_, _, rfl, rfl, .duplicate name h⟩
  · split
    · exact .inr ⟨_, _, rfl, rfl, .tooManyVariables kind h⟩
    · exact .inl ⟨_, _, rfl, rfl⟩

namespace Parser.Lockstep

variable {α : Type} {cx : Context} {name : String}

/-! ### Names -/

theorem resolve (h : P a b) :
    Lockstep P Same (cx.resolve name a) (cx.resolve name b) := by
  unfold Context.resolve
  split
  · exact pure rfl
  · exact throw (.undefined name h)

theorem receiver (h : P a b) : Lockstep P Same (cx.receiver a) (cx.receiver b) := by
  unfold Context.receiver
  split
  · exact pure rfl
  · exact throw (.undefined "this" h)

/-! ### Expressions -/

section expressions

variable {expression : Parser Expression} (hexpression : Lockstep P Same expression expression)
include hexpression

theorem arguments : Lockstep P Same (arguments expression) (arguments expression) := by
  refine currentSymbol.andThen fun found => ?_
  split
  · exact pure rfl
  · exact commaSeparated hexpression

theorem callOf (h : P a b) :
    Lockstep P Same (callOf cx expression name a) (callOf cx expression name b) := by
  refine currentSymbol.andThen fun found => ?_
  split
  · refine (receiver h).andThen fun _ => advance_same.andThen fun _ => ?_
    refine (arguments hexpression).andThen fun _ => ?_
    exact (expectSymbol _).andThen fun _ => pure rfl
  · refine advance_same.andThen fun _ => identifier_bind fun _ _ _ _ => ?_
    refine (expectSymbol _).andThen fun _ => (arguments hexpression).andThen fun _ => ?_
    exact (expectSymbol _).andThen fun _ => pure rfl
  · exact unexpected _

theorem named (h : P a b) :
    Lockstep P Same (named cx expression name a) (named cx expression name b) := by
  have hcall : Lockstep P Same
      (do let call ← Parser.callOf cx expression name a
          return Term.call call.1 call.2.1 call.2.2)
      (do let call ← Parser.callOf cx expression name b
          return Term.call call.1 call.2.1 call.2.2) :=
    (callOf hexpression h).andThen fun _ => pure rfl
  refine currentSymbol.andThen fun found => ?_
  split
  · refine (resolve h).andThen fun _ => advance_same.andThen fun _ => ?_
    exact hexpression.andThen fun _ => (expectSymbol _).andThen fun _ => pure rfl
  · exact hcall
  · exact hcall
  · exact (resolve h).andThen fun _ => pure rfl

end expressions

theorem checkString (text : String) (h : P a b) :
    Lockstep P Same (checkString text a) (checkString text b) := by
  unfold Parser.checkString
  split
  · exact throw (.stringTooLong h)
  · split
    · exact throw (.characterTooLarge _ h)
    · exact pure rfl

theorem expressionOf {term : Parser Term} (hterm : Lockstep P Same term term) :
    Lockstep P Same (expressionOf term) (expressionOf term) := by
  refine hterm.andThen fun first => (many ?_).andThen fun rest => pure rfl
  have hoperator : Lockstep P Same Parser.operator? Parser.operator? :=
    currentSymbol.andThen fun _ => pure rfl
  refine hoperator.andThenMoving fun op? => ?_
  cases op? with
  | none => exact pure ⟨rfl, nofun⟩
  | some op => exact advance_bind (hterm.andThen fun _ => pure rfl)

theorem term (levels : Nat) : Lockstep P Same (term cx levels) (term cx levels) := by
  induction levels with
  | zero => exact unexpected _
  | succ levels ih =>
    have hexpression := expressionOf ih
    rw [Parser.term]
    refine span.bind fun a b _ h => current.andThen fun found => ?_
    split
    · split
      · exact throw (.integerTooLarge _ h)
      · exact advance_same.andThen fun _ => pure rfl
    · exact advance_same.andThen fun _ => (checkString _ h).andThen fun _ => pure rfl
    · exact advance_same.andThen fun _ => (receiver h).andThen fun _ => pure rfl
    · split
      · exact advance_same.andThen fun _ => pure rfl
      · exact unexpected _
    · exact advance_same.andThen fun _ => hexpression.andThen fun _ =>
        (expectSymbol _).andThen fun _ => pure rfl
    · exact advance_same.andThen fun _ => ih.andThen fun _ => pure rfl
    · exact advance_same.andThen fun _ => ih.andThen fun _ => pure rfl
    · exact advance_same.andThen fun _ => named hexpression h
    · exact unexpected _

/-! ### Statements -/

section statements

variable {expression : Parser Expression} {block : Parser (List Statement)}
  (hexpression : Lockstep P Same expression expression) (hblock : Lockstep P Same block block)

include hexpression

theorem letStatement : Lockstep P (SameMoving fun _ => True) (letStatement cx expression)
    (letStatement cx expression) := by
  refine advance_bind (identifier_bind fun name a b h => ?_)
  have hvalue {f : Expression → Statement} : Lockstep P Same
      (do let value ← expression; Parser.expectSymbol .semicolon; return f value)
      (do let value ← expression; Parser.expectSymbol .semicolon; return f value) :=
    hexpression.andThen fun _ => (expectSymbol _).andThen fun _ => pure rfl
  refine (resolve h).andThen fun _ => currentSymbol.andThen fun found => ?_
  split
  · refine advance_same.andThen fun _ => hexpression.andThen fun _ => ?_
    exact (expectSymbol _).andThen fun _ => (expectSymbol _).andThen fun _ => hvalue
  · exact (expectSymbol _).andThen fun _ => hvalue

theorem condition : Lockstep P Same (condition expression) (condition expression) :=
  (expectSymbol _).andThen fun _ => hexpression.andThen fun _ =>
    (expectSymbol _).andThen fun _ => pure rfl

theorem doStatement : Lockstep P (SameMoving fun _ => True) (doStatement cx expression)
    (doStatement cx expression) := by
  refine advance_bind (identifier_bind fun name a b h => ?_)
  exact (callOf hexpression h).andThen fun _ =>
    (expectSymbol _).andThen fun _ => pure rfl

theorem returnStatement : Lockstep P (SameMoving fun _ => True)
    (returnStatement expression) (returnStatement expression) := by
  refine advance_bind (currentSymbol.andThen fun found => ?_)
  extract_lets rest
  have hrest value : Lockstep P Same (rest value) (rest value) :=
    (expectSymbol _).andThen fun _ => pure rfl
  split
  · exact andThen (pure rfl) hrest
  · exact (hexpression.map some).andThen hrest

include hblock

theorem ifStatement : Lockstep P (SameMoving fun _ => True)
    (ifStatement expression block) (ifStatement expression block) := by
  refine advance_bind ((condition hexpression).andThen fun _ => hblock.andThen fun _ => ?_)
  refine currentKeyword.andThen fun found => ?_
  split
  · exact advance_same.andThen fun _ => hblock.andThen fun _ => pure rfl
  · exact pure rfl

theorem whileStatement : Lockstep P (SameMoving fun _ => True)
    (whileStatement expression block) (whileStatement expression block) :=
  advance_bind ((condition hexpression).andThen fun _ => hblock.andThen fun _ => pure rfl)

theorem statement? : Lockstep P (SameMoving fun statement? => statement?.isSome)
    (statement? cx expression block) (statement? cx expression block) := by
  have hsome {p : Parser Statement} (hp : Lockstep P (SameMoving fun _ => True) p p) :
      Lockstep P (SameMoving fun statement? => statement?.isSome) (some <$> p) (some <$> p) := by
    rw [← bind_pure_comp]
    refine hp.bind fun x y k hxy => ?_
    obtain ⟨rfl, hmoves⟩ := hxy
    exact pure ⟨rfl, fun _ => Nat.add_pos_right _ (hmoves trivial)⟩
  refine currentKeyword.andThenMoving fun found => ?_
  split
  · exact hsome (letStatement hexpression)
  · exact hsome (ifStatement hexpression hblock)
  · exact hsome (whileStatement hexpression hblock)
  · exact hsome (doStatement hexpression)
  · exact hsome (returnStatement hexpression)
  · exact pure ⟨rfl, nofun⟩

end statements

theorem statements (levels : Nat) :
    Lockstep P Same (statements cx levels) (statements cx levels) := by
  induction levels with
  | zero => exact unexpected _
  | succ levels ih =>
    rw [Parser.statements]
    refine many (statement? (expressionOf (term levels)) ?_)
    exact (expectSymbol _).andThen fun _ => ih.andThen fun _ =>
      (expectSymbol _).andThen fun _ => pure rfl

/-! ### Declarations -/

theorem type? : Lockstep P Same type? type? := by
  refine current.andThen fun found => ?_
  split <;> exact pure rfl

theorem type : Lockstep P Same type type := by
  refine type?.andThen fun type? => ?_
  split
  · exact advance_same.andThen fun _ => pure rfl
  · exact unexpected _

theorem declaredName (scopes : Scopes) (type : VarType) (kind : VarKind) :
    Lockstep P Same (declaredName scopes type kind) (declaredName scopes type kind) := by
  refine identifier_bind fun name a b h => ?_
  obtain ⟨v, scopes', ha, hb⟩ | ⟨fault, fault', ha, hb, hfaults⟩ :=
    Scopes.declare_alike h name type kind scopes
  · simp only [ha, hb]
    exact pure rfl
  · simp only [ha, hb]
    exact throw hfaults

theorem declaredItems {item : Scopes → Parser (Variable × Scopes)}
    (hitem : ∀ scopes, Lockstep P Same (item scopes) (item scopes)) (scopes : Scopes) :
    Lockstep P Same (declaredItems item scopes) (declaredItems item scopes) := by
  refine (hitem scopes).andThen fun first => (iterate (fun state => ?_) _).andThen fun _ => pure rfl
  exact comma_bind ((hitem _).andThen fun _ => pure rfl) (pure ⟨rfl, nofun⟩)

theorem declaration (kind : VarKind) (scopes : Scopes) :
    Lockstep P Same (declaration kind scopes) (declaration kind scopes) := by
  refine type.andThen fun type => ?_
  refine (declaredItems (declaredName · type kind) scopes).andThen fun _ => ?_
  exact (expectSymbol _).andThen fun _ => pure rfl

theorem declarations (kind? : Keyword → Option VarKind) (scopes : Scopes) :
    Lockstep P Same (declarations kind? scopes) (declarations kind? scopes) := by
  refine (iterate (fun state => ?_) _).andThen fun _ => pure rfl
  refine currentKeyword.andThenMoving fun found => ?_
  split
  · exact advance_bind ((declaration _ _).andThen fun _ => pure rfl)
  · exact pure ⟨rfl, nofun⟩

theorem parameters (scopes : Scopes) :
    Lockstep P Same (parameters scopes) (parameters scopes) := by
  refine type?.andThen fun type? => ?_
  split
  · refine declaredItems (fun scopes => ?_) scopes
    exact type.andThen fun type => declaredName scopes type .argument
  · exact pure rfl

/-! ### Subroutines and classes -/

theorem subroutineScopes (className : String) (kind : SubroutineKind) (scopes : Scopes)
    (h : P a b) : Lockstep P Same (subroutineScopes className kind a scopes)
      (subroutineScopes className kind b scopes) := by
  unfold Parser.subroutineScopes
  cases kind with
  | constructor | function => exact pure rfl
  | method =>
    obtain ⟨v, scopes', ha, hb⟩ | ⟨fault, fault', ha, hb, hfaults⟩ :=
      Scopes.declare_alike h "this" (.object className) .argument scopes.enterSubroutine
    · simp only [ha, hb]
      exact pure rfl
    · simp only [ha, hb]
      exact throw hfaults

theorem checkFields (className : String) (kind : SubroutineKind) (scopes : Scopes) :
    Lockstep P Same (checkFields className kind scopes) (checkFields className kind scopes) := by
  unfold Parser.checkFields
  dsimp only
  split
  · exact throw (.tooManyFields _ _)
  · exact pure rfl

theorem subroutine (className : String) (kind : SubroutineKind) (scopes : Scopes) :
    Lockstep P (SameMoving fun _ => True) (subroutine className kind scopes)
      (subroutine className kind scopes) := by
  refine span.bindMoving fun a b _ h => advance_bind ?_
  refine (subroutineScopes className kind scopes h).andThen fun scopes => ?_
  refine currentKeyword.andThen fun found => ?_
  extract_lets rest
  have hrest returnType : Lockstep P Same (rest returnType) (rest returnType) := by
    refine identifier_bind fun _ _ _ _ => ?_
    refine (expectSymbol _).andThen fun _ => (parameters scopes).andThen fun _ => ?_
    refine (expectSymbol _).andThen fun _ => (expectSymbol _).andThen fun _ => ?_
    refine (declarations _ _).andThen fun _ => (checkFields ..).andThen fun _ => ?_
    exact (statements _).andThen fun _ => (expectSymbol _).andThen fun _ => pure rfl
  split
  · exact advance_same.andThen fun _ => andThen (pure rfl) hrest
  · exact (type.map some).andThen hrest

theorem classDeclaration : Lockstep P Same classDeclaration classDeclaration := by
  refine (expectKeyword _).andThen fun _ => identifier_bind fun _ _ _ _ => ?_
  refine (expectSymbol _).andThen fun _ => (declarations _ _).andThen fun found => ?_
  refine (many ?_).andThen fun _ => (expectSymbol _).andThen fun _ => pure rfl
  refine currentKeyword.andThenMoving fun found => ?_
  split
  · refine (subroutine _ _ _).bind fun x y n hxy => ?_
    obtain ⟨rfl, hmoves⟩ := hxy
    refine pure ⟨rfl, fun _ => ?_⟩
    have := hmoves trivial
    omega
  · exact pure ⟨rfl, nofun⟩

/-- The parser of a whole source looks at the first token, which the first stream may not have. -/
theorem program {s t : TokenStream} (hst : s.Beside P t) :
    Agree P s Same (program.run s) (program.run t) := by
  rw [Parser.program]
  cases hstart : start.run s with
  | error fault s' =>
    rw [EStateM.run_bind, hstart]
    exact .cut (fault?_of_start_eq_error hstart)
  | ok u s' =>
    obtain ⟨hlive, rfl⟩ := start_eq_ok.1 hstart
    have halong : s'.Along P t := ⟨hst, hlive⟩
    have hstart' : start.run t = .ok () t := start_eq_ok.2 ⟨halong.live_right, rfl⟩
    rw [bind_of_ok hstart, bind_of_ok hstart']
    refine (classDeclaration.andThen fun c => current.andThen fun found => ?_) halong
    split
    · exact unexpected _
    · exact pure rfl

end Parser.Lockstep

/-- Compilations of lines with tokens beside each other end alike, unless the first ends with the
fault of its lines. -/
theorem compile_alike {lines lines' : List Line} (traced : Bool)
    (h : (TokenStream.ofLines lines).Beside P (.ofLines lines')) :
    (∃ compiled, compile lines traced = .ok compiled ∧ compile lines' traced = .ok compiled) ∨
      (∃ fault fault', compile lines traced = .error fault ∧
        compile lines' traced = .error fault' ∧ fault.Alike P fault') ∨
      ∃ fault, compile lines traced = .error fault ∧
        (TokenStream.ofLines lines).fault? = some fault := by
  have hagree := Parser.Lockstep.program h
  simp only [EStateM.run] at hagree
  rw [compile_eq, compile_eq, parse, parse]
  generalize Parser.program (.ofLines lines) = left,
    Parser.program (.ofLines lines') = right at hagree ⊢
  cases hagree with
  | ok k _ _ _ heq =>
    cases heq
    exact .inl ⟨_, rfl, rfl⟩
  | error hfaults => exact .inr (.inl ⟨_, _, rfl, rfl, hfaults⟩)
  | cut hcut => exact .inr (.inr ⟨_, rfl, hcut⟩)

end JackLang
