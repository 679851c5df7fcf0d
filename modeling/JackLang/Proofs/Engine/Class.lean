import JackLang.Proofs.Engine.Declarations

/-! Subroutines and classes. At the end of a run the engine has the trace and the code of the class
that the parser answers (`compile_eq`). -/

namespace JackLang

/-! ### Scopes of subroutines -/

namespace Scopes

/-- Names of the class, and arguments: the scopes in which a subroutine declares its locals. -/
structure Opens (scopes s : Scopes) : Prop where
  named : s.Named
  enterSubroutine : s.enterSubroutine = scopes.enterSubroutine
  locals : s.count .local = 0

variable {scopes s : Scopes} {vars : List Variable} {kind : VarKind} {fields : Nat}

theorem opens_insertAll (hscopes : scopes.Named) (hvars : ∀ v ∈ vars, v.kind = .argument) :
    scopes.Opens (scopes.enterSubroutine.insertAll vars) where
  named := hscopes.enterSubroutine.insertAll
  enterSubroutine := by
    refine enterSubroutine_insertAll fun v hv => ?_
    simp [hvars v hv, VarKind.isClassLevel]
  locals := by
    rw [count_insertAll, List.countP_eq_zero.2]
    · rfl
    · intro v hv
      simp [hvars v hv]

/-- A subroutine declares no fields. -/
theorem count_field_of_enterSubroutine (h : s.enterSubroutine = scopes.enterSubroutine) :
    s.count .field = scopes.count .field := congrArg (·.count .field) h

end Scopes

/-! ### Keywords of declarations -/

namespace Parser

variable {k : Keyword} {kind : VarKind}

theorem heading_of_localKind? (h : localKind? k = some kind) :
    (Declaration.heading kind).2 = k := by
  obtain ⟨_, rfl, rfl⟩ := localKind?_eq_some_iff.1 h
  rfl

theorem isClassLevel_of_localKind? (h : localKind? k = some kind) : kind.isClassLevel = false := by
  obtain ⟨_, rfl, rfl⟩ := localKind?_eq_some_iff.1 h
  rfl

theorem heading_of_classLevelKind? (h : classLevelKind? k = some kind) :
    (Declaration.heading kind).2 = k := by
  obtain ⟨level, rfl, rfl⟩ := classLevelKind?_eq_some_iff.1 h
  cases level <;> rfl

theorem isClassLevel_of_classLevelKind? (h : classLevelKind? k = some kind) :
    kind.isClassLevel = true := by
  obtain ⟨level, rfl, rfl⟩ := classLevelKind?_eq_some_iff.1 h
  cases level <;> rfl

end Parser

namespace Engine.Follows

variable {stream : TokenStream} {l : Ledger}

/-! ### Subroutines -/

/-- The scope that a subroutine starts with. -/
theorem declareReceiver {className : String} {kind : SubroutineKind} {span : Span} {scopes : Scopes}
    (hl : l.scopes = scopes.enterSubroutine) :
    Follows ⟨stream, l⟩ (Engine.declareReceiver className kind span)
      (Parser.subroutineScopes className kind span scopes) fun scopes' _ l' =>
        l' = l.within scopes' ∧
          ∃ vars, (∀ v ∈ vars, v.kind = .argument) ∧ scopes' = l.scopes.insertAll vars := by
  cases kind with
  | constructor | function => exact pure ⟨hl ▸ rfl, [], by simp, hl.symm⟩
  | method =>
    rw [Engine.declareReceiver, Parser.subroutineScopes, ← hl,
      ← bind_pure (Engine.declare _ _ _ _)]
    exact declare fun v _ _ hkind => pure ⟨rfl, [v], List.forall_mem_singleton.2 hkind, rfl⟩

theorem prologue {α β : Type} {post : α → β → Ledger → Prop} {enclosing : Enclosing}
    {f : Unit → Engine β} {g : Unit → Parser α} {fields : Nat} (hl : l.scopes.count .field = fields)
    (hf : Follows
      ⟨stream, l.emitted fun e => (enclosing.kind.prologue fields).foldl Emission.push e⟩
      (f ()) (g ()) post) :
    Follows ⟨stream, l⟩ (Engine.prologue enclosing >>= f)
      (Parser.checkFields enclosing.className enclosing.kind l.scopes >>= g) post := by
  have hcount : (count .field).run ⟨stream, l⟩ = .ok fields ⟨stream, l⟩ := hl ▸ rfl
  obtain ⟨className, name, kind⟩ := enclosing
  rw [Parser.checkFields, hl]
  cases kind with
  | constructor =>
    rw [Engine.prologue, bind_assoc]
    refine of_run hcount ?_
    dsimp only
    split
    · next hfields =>
      simp only [hfields, and_self, if_true]
      exact throw _
    · next hfields =>
      simp only [hfields, and_false, if_false, bind_assoc]
      exact write (by simp) (write (by simp) (write (by simp) hf))
  | method =>
    rw [Engine.prologue, bind_assoc]
    exact write (by simp) (write (by simp) hf)
  | function => exact hf

theorem subroutineBody {className name : String} {kind : SubroutineKind}
    {returnType : Option VarType} {parameters : List Variable} {scopes : Scopes} {fields : Nat}
    (hclass : className ≠ "") (hname : name ≠ "") (hfields : scopes.count .field = fields)
    (hl : scopes.Opens l.scopes) :
    Follows ⟨stream, l⟩ (Engine.subroutineBody ⟨className, name, kind⟩)
      (do
        Parser.expectSymbol .openBrace
        let (locals, scopes) ← Parser.declarations Parser.localKind? l.scopes
        Parser.checkFields className kind scopes
        let body ← Parser.statements ⟨className, kind, scopes⟩ maxNesting
        Parser.expectSymbol .closeBrace
        return Subroutine.mk kind returnType name parameters locals body) fun s _ l' =>
      ∃ locals body scopes', s = ⟨kind, returnType, name, parameters, locals, body⟩ ∧
        scopes'.enterSubroutine = scopes.enterSubroutine ∧
          l' = ((l.within scopes').traced s.traceBody).emitted (s.emit className fields) := by
  rw [Engine.subroutineBody]
  refine note (.next (expectSymbol _) fun _ _ stream => ?_)
  refine .bind (declarations Parser.heading_of_localKind? Parser.isClassLevel_of_localKind?
    (by simp)) ?_
  rintro ⟨locals, _⟩ _ stream l₁ h
  obtain rfl := h.scopes_ledger
  have hscopes : l₁.scopes = l.scopes.insertAll (locals.flatMap (·.vars)) := h.scopes_eq
  have henter : l₁.scopes.enterSubroutine = scopes.enterSubroutine := by
    rw [hscopes, ← hl.enterSubroutine]
    exact Scopes.enterSubroutine_insertAll fun v hv => by
      simp [h.isClassLevel_eq Parser.isClassLevel_of_localKind? v hv]
  have hcount : (count .local).run ⟨stream, l₁⟩ =
      .ok (Declaration.count .local locals) ⟨stream, l₁⟩ := by
    rw [← Nat.zero_add (Declaration.count _ _), ← hl.locals]
    exact congrArg (EStateM.Result.ok · _) (h.count_eq .local)
  have hfields₁ := (Scopes.count_field_of_enterSubroutine henter).trans hfields
  refine of_run hcount (write (by simp) (prologue hfields₁ ?_))
  have hcx : Enclosing.Agrees ⟨className, name, kind⟩ ⟨className, kind, l₁.scopes⟩ :=
    ⟨rfl, rfl, hscopes ▸ hl.named.insertAll, hclass, hname⟩
  refine .next (statements hcx rfl) fun body _ stream => ?_
  refine .next (expectSymbol _) fun _ _ stream => note_pure ?_
  refine ⟨locals, body, l₁.scopes, rfl, henter, ?_⟩
  rw [h.ledger_eq]
  simp only [Ledger.traced_traced, Ledger.within_traced, Ledger.coded_eq, Ledger.emitted_emitted,
    Ledger.emitted_traced]
  rfl

/-- What a subroutine returns, where void is no type. -/
theorem returnType {α β : Type} {post : α → β → Ledger → Prop} {f : Unit → Engine β}
    {g : Option VarType → Parser α}
    (hf : ∀ (returnType : Option VarType) stream,
      Follows ⟨stream, l.traced fun events => match returnType with
        | none => events.keyword .void
        | some type => type.trace events⟩ (f ()) (g returnType) post) :
    Follows ⟨stream, l⟩
      (do
        if (← read Parser.currentKeyword) = some .void then Engine.advance >>= f
        else discard Engine.type >>= f)
      (do
        if (← Parser.currentKeyword) = some .void then
          Parser.advance
          Pure.pure none >>= g
        else some <$> Parser.type >>= g) post := by
  refine peek Parser.currentKeyword_run ?_
  split
  · next hk =>
    exact (advance (TokenStream.keyword?_eq_some_iff.1 hk)).next fun _ _ stream => hf none stream
  · rw [map_eq_pure_bind, bind_assoc]
    have hdiscard : discard Engine.type = Engine.type >>= fun _ => Pure.pure () := rfl
    rw [hdiscard, bind_assoc]
    refine .bind type ?_
    rintro _ type stream _ ⟨rfl, rfl⟩
    exact hf (some type) stream

theorem subroutine {className : String} {kind : SubroutineKind} {scopes : Scopes} {fields : Nat}
    (hk : stream.keyword? = some kind.keyword) (hclass : className ≠ "") (hnamed : scopes.Named)
    (hfields : scopes.count .field = fields)
    (hl : l.scopes.enterSubroutine = scopes.enterSubroutine) :
    Follows ⟨stream, l⟩ (Engine.subroutine className kind) (Parser.subroutine className kind scopes)
      fun s _ l' => ∃ scopes', scopes'.enterSubroutine = scopes.enterSubroutine ∧
        l' = ((l.within scopes').traced s.trace).emitted (s.emit className fields) := by
  rw [Engine.subroutine, Parser.subroutine]
  have henter : (Engine.enterSubroutine).run ⟨stream, l.traced (·.add (.open "subroutineDec"))⟩ =
      .ok () ⟨stream, (l.traced (·.add (.open "subroutineDec"))).within scopes.enterSubroutine⟩ :=
    hl ▸ rfl
  refine note (of_run henter (peek Parser.span_run ?_))
  refine .next (advance (TokenStream.keyword?_eq_some_iff.1 hk)) fun _ _ stream => ?_
  refine .bind (declareReceiver rfl) ?_
  rintro scopes₁ _ stream l₁ ⟨hl₁, vars₁, hvars₁, hscopes₁⟩
  have hscopes : l₁.scopes = scopes₁ := hl₁ ▸ rfl
  rw [← hscopes] at hscopes₁ ⊢
  refine returnType fun returnType stream => ?_
  refine .bind identifier ?_
  rintro ⟨name, _⟩ _ stream _ ⟨rfl, hname, rfl⟩
  refine noteName (by simp) (.next (expectSymbol _) fun _ _ stream => ?_)
  refine .bind parameters ?_
  rintro ⟨params, scopes₂⟩ _ stream l₂ ⟨hparams, hscopes₂, hl₂⟩
  obtain rfl : l₂.scopes = scopes₂ := hl₂ ▸ rfl
  have harguments : ∀ v ∈ vars₁ ++ params, v.kind = .argument :=
    List.forall_mem_append.2 ⟨hvars₁, hparams⟩
  have hopens : scopes.Opens l₂.scopes := by
    have hall : l₂.scopes = (scopes.enterSubroutine.insertAll vars₁).insertAll params :=
      hscopes₂.trans (congrArg (·.insertAll params) hscopes₁)
    rw [hall, ← Scopes.insertAll_append]
    exact Scopes.opens_insertAll hnamed harguments
  refine .next (expectSymbol _) fun _ _ stream => ?_
  refine .seq (subroutineBody hclass hname hfields hopens) ?_
  rintro s _ stream l₃ ⟨locals, body, scopes₃, rfl, hscopes₃, rfl⟩
  refine note_pure ⟨scopes₃, hscopes₃, ?_⟩
  rw [hl₂, hl₁]
  cases returnType with
  | none | some type =>
    simp only [Ledger.within_traced, Ledger.consumed_keyword, Ledger.traced_traced,
      Ledger.within_within, Ledger.emitted_traced]
    rfl

theorem subroutines {className : String} {scopes : Scopes} {fields : Nat} (hclass : className ≠ "")
    (hnamed : scopes.Named) (hfields : scopes.count .field = fields) (hl : l.scopes = scopes) :
    Follows ⟨stream, l⟩
      (repeatWhile do
        match (← read Parser.currentKeyword).bind Parser.subroutineKind? with
        | some kind =>
          Engine.subroutine className kind
          return true
        | none => return false)
      (Parser.many do
        match (← Parser.currentKeyword).bind Parser.subroutineKind? with
        | some kind => return some (← Parser.subroutine className kind scopes)
        | none => return none) fun ss _ l' => ∃ scopes',
      scopes'.enterSubroutine = scopes.enterSubroutine ∧
        l' = ((l.within scopes').traced
            fun events => ss.foldl (fun events s => s.trace events) events).emitted
          fun e => ss.foldl (fun e s => s.emit className fields e) e := by
  refine manySteps _ ?_ ⟨scopes, rfl, ?_⟩
  · rintro ss _ stream _ ⟨scopes', hscopes', rfl⟩
    rw [bind_assoc]
    refine peek Parser.currentKeyword_run ?_
    cases hkind : stream.keyword?.bind Parser.subroutineKind? with
    | none => exact pure ⟨scopes', hscopes', rfl⟩
    | some kind =>
      obtain ⟨k, hk, hkind⟩ := Option.bind_eq_some_iff.1 hkind
      obtain rfl := Parser.subroutineKind?_eq_some_iff.1 hkind
      dsimp only
      rw [bind_assoc]
      refine .bind (subroutine hk hclass hnamed hfields hscopes') ?_
      rintro s _ stream _ ⟨scopes'', hscopes'', rfl⟩
      refine pure ⟨scopes'', hscopes'', ?_⟩
      simp
  · rw [← hl]
    exact l.traced_id.symm

/-! ### Classes -/

theorem classDeclaration {traced : Bool} :
    Follows ⟨stream, { trace? := if traced then some #[] else none }⟩ Engine.classDeclaration
      Parser.classDeclaration fun c name l' => name = c.name ∧ l'.emission.code = c.emit ∧
        l'.trace? = if traced then some c.trace else none := by
  rw [Engine.classDeclaration, Parser.classDeclaration]
  generalize hstart : ({ trace? := if traced then some #[] else none } : Ledger) = l
  have hscopes : l.scopes = {} := hstart ▸ rfl
  have hbare : true = true → l.scopes.Bare := fun _ name => by simp [hscopes]
  refine note (.next (expectKeyword _) fun _ _ stream => ?_)
  refine .bind identifier ?_
  rintro ⟨name, _⟩ _ stream _ ⟨rfl, hclass, rfl⟩
  refine noteName (by simp) (.next (expectSymbol _) fun _ _ stream => ?_)
  rw [← hscopes]
  refine .bind (declarations Parser.heading_of_classLevelKind?
    Parser.isClassLevel_of_classLevelKind? hbare) ?_
  rintro ⟨ds, scopes⟩ _ stream l₁ h
  obtain rfl := h.scopes_ledger
  have hall : l₁.scopes = l.scopes.insertAll (ds.flatMap (·.vars)) := h.scopes_eq
  have hnamed : l₁.scopes.Named := by
    rw [hall, hscopes]
    exact Scopes.named_empty.insertAll
  have hfields : l₁.scopes.count .field = Declaration.count .field ds := by
    have hcount : l₁.scopes.count .field = l.scopes.count .field + Declaration.count .field ds :=
      h.count_eq .field
    rw [hcount, hscopes]
    exact Nat.zero_add _
  refine .bind (subroutines hclass hnamed hfields rfl) ?_
  rintro ss _ stream _ ⟨scopes', -, rfl⟩
  refine .next (expectSymbol _) fun _ _ stream => note (pure ⟨rfl, ?_, ?_⟩)
  · rw [h.ledger_eq, ← hstart]
    rfl
  · rw [h.ledger_eq, ← hstart]
    cases traced with
    | true =>
      simp only [↓reduceIte, Ledger.traced_traced, Ledger.within_traced, Ledger.within_within,
        Ledger.emitted_traced]
      rfl
    | false => rfl

theorem program {traced : Bool} :
    Follows ⟨stream, { trace? := if traced then some #[] else none }⟩ Engine.program
      Parser.program fun c name l' => name = c.name ∧ l'.emission.code = c.emit ∧
        l'.trace? = if traced then some c.trace else none := by
  rw [Engine.program, Parser.program]
  refine .next start fun _ _ stream => .bind classDeclaration fun c name stream l h => ?_
  refine peek Parser.current_run ?_
  dsimp only
  split
  · exact unexpected _
  · exact pure h

end Engine.Follows

/-- The engine comes to the code and the trace of the class that the parser finds, or to the fault
that the parser meets. -/
theorem compile_eq (lines : List Line) (traced : Bool) : compile lines traced = do
    let c ← parse lines
    return ⟨c.name, c.emit, if traced then some c.trace else none⟩ := by
  have hends : Engine.Ends (fun c name l => name = c.name ∧ l.emission.code = c.emit ∧
      l.trace? = if traced then some c.trace else none)
      (Parser.program (.ofLines lines)) (Engine.program (.start lines traced)) :=
    Engine.Follows.program (TokenStream.named_ofLines lines)
  rw [compile, parse]
  generalize Parser.program _ = found at hends ⊢
  generalize Engine.program _ = found' at hends ⊢
  cases hends with
  | ok _ h =>
    obtain ⟨rfl, hcode, htrace⟩ := h
    simp only [hcode, htrace]
    rfl
  | error => rfl

end JackLang
