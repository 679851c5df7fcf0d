import JackLang.Proofs.Engine.Expression

/-! Statements. What the engine keeps behind a statement is its trace and its code, with the labels
that it takes (`Engine.Follows.statements`). -/

namespace JackLang

namespace Ledger

variable (l : Ledger)

theorem coded_eq (f : Code → Code) : l.coded f = l.emitted fun e => ⟨f e.code, e.labels⟩ := rfl

/-- What is kept behind a statement. -/
def behind (enclosing : Enclosing) (statement : Statement) : Ledger :=
  (l.traced statement.trace).emitted (statement.emit enclosing.className enclosing.subroutine)

theorem emitted_congr {f g : Emission → Emission} (h : f l.emission = g l.emission) :
    l.emitted f = l.emitted g := by
  rw [emitted, h, emitted]

end Ledger

namespace Statement

variable (className subroutine : String)

theorem traceAll_concat (statements : List Statement) (statement : Statement) :
    traceAll (statements ++ [statement]) =
      fun events => statement.trace (traceAll statements events) := by
  funext events
  induction statements generalizing events with
  | nil => rfl
  | cons first rest ih => exact ih _

theorem emitAll_concat (statements : List Statement) (statement : Statement) :
    emitAll className subroutine (statements ++ [statement]) =
      fun e => statement.emit className subroutine (emitAll className subroutine statements e) := by
  funext e
  induction statements generalizing e with
  | nil => rfl
  | cons first rest ih => exact ih _

end Statement

namespace Engine.Follows

variable {stream : TokenStream} {l : Ledger} {cx : Context} {enclosing : Enclosing}
  {expression : Engine Unit} {expression' : Parser Expression}

/-- Labels are taken where both names are given. -/
theorem drawLabels {α β : Type} {post : α → β → Ledger → Prop} {f : LabelPair → Engine β}
    {g : Parser α} {construct : Construct} (hcx : enclosing.Agrees cx)
    (hf : ∀ pair : LabelPair,
      pair = (l.emission.labels.draw enclosing.className enclosing.subroutine construct).1 →
      Follows ⟨stream, l.emitted fun e =>
        ⟨e.code, (e.labels.draw enclosing.className enclosing.subroutine construct).2⟩⟩
        (f pair) g post) :
    Follows ⟨stream, l⟩ (Engine.drawLabels enclosing construct >>= f) g post := by
  refine of_run ?_ (hf _ rfl)
  rw [EStateM.run]
  simp only [Engine.drawLabels, Labels.next_eq hcx.className_ne hcx.subroutine_ne]
  rfl

/-- A statement has been found. -/
theorem answered {s : Session} {e : Engine Unit} {q : Parser Statement}
    {effect : Statement → Ledger} (h : Follows s e q fun statement _ l' => l' = effect statement) :
    Follows s (do e; return true) (some <$> q) fun statement? again l' =>
      again = statement?.isSome ∧ l' = statement?.elim s.ledger effect := by
  rw [map_eq_pure_bind]
  exact h.next fun _ _ _ => pure ⟨rfl, rfl⟩

/-! ### Single statements -/

section statements

variable (hcx : enclosing.Agrees cx)
  (hexpression : Compiles cx expression expression' Expression.trace Expression.emit)
include hexpression

theorem returnStatement (hk : stream.keyword? = some .return) (hl : l.scopes = cx.scopes) :
    Follows ⟨stream, l⟩ (Engine.returnStatement expression) (Parser.returnStatement expression')
      fun statement _ l' => l' = l.behind enclosing statement := by
  rw [Engine.returnStatement, Parser.returnStatement]
  refine note (.next (advanceKeyword hk) fun _ _ stream => ?_)
  refine peek Parser.currentSymbol_run ?_
  dsimp only
  split
  · rw [pure_bind]
    refine write (by simp) (write (by simp) ?_)
    refine .next (expectSymbol _) fun _ _ stream => note_pure ?_
    simp only [Ledger.traced_traced, Ledger.coded_eq, Ledger.emitted_emitted, Ledger.emitted_traced]
    rfl
  · simp only [map_eq_pure_bind, bind_assoc, pure_bind]
    refine .next (hexpression hl) fun value _ stream => write (by simp) ?_
    refine .next (expectSymbol _) fun _ _ stream => note_pure ?_
    simp only [Ledger.traced_traced, Ledger.coded_eq, Ledger.emitted_emitted, Ledger.emitted_traced]
    rfl

include hcx

theorem letStatement (hk : stream.keyword? = some .let) (hl : l.scopes = cx.scopes) :
    Follows ⟨stream, l⟩ (Engine.letStatement expression) (Parser.letStatement cx expression')
      fun statement _ l' => l' = l.behind enclosing statement := by
  rw [Engine.letStatement, Parser.letStatement]
  refine note (.next (advanceKeyword hk) fun _ _ stream => ?_)
  refine .bind identifier ?_
  rintro ⟨name, span⟩ _ stream _ ⟨rfl, -, rfl⟩
  refine resolve hl fun target hfind => noteVariable (hcx.named.find? hfind) (hl ▸ hfind) ?_
  refine peek Parser.currentSymbol_run ?_
  dsimp only
  split
  · next hsymbol =>
    refine .next (advance (TokenStream.symbol?_eq_some_iff.1 hsymbol)) fun _ _ stream => ?_
    refine write (by simp) (.next (hexpression hl) fun index _ stream => ?_)
    refine .next (expectSymbol _) fun _ _ stream => write (by simp) ?_
    refine .next (expectSymbol _) fun _ _ stream => .next (hexpression hl) fun value _ stream => ?_
    refine write (by simp) (write (by simp) (write (by simp) (write (by simp) ?_)))
    refine .next (expectSymbol _) fun _ _ stream => note_pure ?_
    simp only [Ledger.traced_traced, Ledger.consumed_symbol, Ledger.coded_eq, Ledger.emitted_traced,
      Ledger.emitted_emitted]
    rfl
  · refine .next (expectSymbol _) fun _ _ stream => .next (hexpression hl) fun value _ stream => ?_
    refine write (by simp) (.next (expectSymbol _) fun _ _ stream => note_pure ?_)
    simp only [Ledger.traced_traced, Ledger.coded_eq, Ledger.emitted_emitted, Ledger.emitted_traced]
    rfl

theorem doStatement (hk : stream.keyword? = some .do) (hl : l.scopes = cx.scopes) :
    Follows ⟨stream, l⟩ (Engine.doStatement enclosing expression)
      (Parser.doStatement cx expression') fun statement _ l' =>
        l' = l.behind enclosing statement := by
  rw [Engine.doStatement, Parser.doStatement]
  refine note (.next (advanceKeyword hk) fun _ _ stream => ?_)
  refine .bind identifier ?_
  rintro ⟨name, span⟩ _ stream _ ⟨rfl, -, rfl⟩
  refine .next (callOf hexpression hcx hl) fun call _ stream => write (by simp) ?_
  refine .next (expectSymbol _) fun _ _ stream => note_pure ?_
  simp only [Ledger.traced_traced, Ledger.coded_eq, Ledger.emitted_emitted, Ledger.emitted_traced]
  rfl

section blocks

variable {block : Engine Unit} {block' : Parser (List Statement)}
  (hblock : ∀ {stream l}, l.scopes = cx.scopes →
    Follows ⟨stream, l⟩ block block' fun body _ l' =>
      l' = (l.traced fun events => (Statement.traceAll body events.openBlock).closeBlock).emitted
        (Statement.emitAll enclosing.className enclosing.subroutine body))
include hblock

theorem ifStatement (hk : stream.keyword? = some .if) (hl : l.scopes = cx.scopes) :
    Follows ⟨stream, l⟩ (Engine.ifStatement enclosing expression block)
      (Parser.ifStatement expression' block') fun statement _ l' =>
        l' = l.behind enclosing statement := by
  simp only [Engine.ifStatement, Parser.ifStatement, Parser.condition, jumpUnless, bind_assoc,
    pure_bind]
  refine note (.next (advanceKeyword hk) fun _ _ stream => ?_)
  refine .next (expectSymbol _) fun _ _ stream => ?_
  refine .next (hexpression hl) fun condition _ stream => ?_
  refine .next (expectSymbol _) fun _ _ stream => ?_
  refine drawLabels hcx fun pair hpair => write (by simp) (write (by simp) ?_)
  refine .next (hblock hl) fun body _ stream => ?_
  refine peek Parser.currentKeyword_run ?_
  split
  · next helse =>
    refine .next (advance (TokenStream.keyword?_eq_some_iff.1 helse)) fun _ _ stream => ?_
    refine write (by simp) (write (by simp) ?_)
    refine .next (hblock (by simpa using hl)) fun alternative _ stream => ?_
    refine write (by simp) (note_pure ?_)
    simp only [Ledger.traced_traced, Ledger.coded_eq, Ledger.emitted_traced, Ledger.emitted_emitted,
      Ledger.consumed_keyword]
    exact Ledger.emitted_congr _ (hpair ▸ rfl)
  · refine write (by simp) (note_pure ?_)
    simp only [Ledger.traced_traced, Ledger.coded_eq, Ledger.emitted_traced, Ledger.emitted_emitted]
    exact Ledger.emitted_congr _ (hpair ▸ rfl)

theorem whileStatement (hk : stream.keyword? = some .while) (hl : l.scopes = cx.scopes) :
    Follows ⟨stream, l⟩ (Engine.whileStatement enclosing expression block)
      (Parser.whileStatement expression' block') fun statement _ l' =>
        l' = l.behind enclosing statement := by
  simp only [Engine.whileStatement, Parser.whileStatement, Parser.condition, jumpUnless, bind_assoc,
    pure_bind]
  refine note (.next (advanceKeyword hk) fun _ _ stream => ?_)
  refine .next (expectSymbol _) fun _ _ stream => ?_
  refine drawLabels hcx fun pair hpair => write (by simp) ?_
  refine .next (hexpression hl) fun condition _ stream => ?_
  refine .next (expectSymbol _) fun _ _ stream => write (by simp) (write (by simp) ?_)
  refine .next (hblock hl) fun body _ stream => write (by simp) (write (by simp) (note_pure ?_))
  simp only [Ledger.traced_traced, Ledger.coded_eq, Ledger.emitted_emitted, Ledger.emitted_traced]
  exact Ledger.emitted_congr _ (hpair ▸ rfl)

theorem statement? (hl : l.scopes = cx.scopes) :
    Follows ⟨stream, l⟩ (Engine.statement? enclosing expression block)
      (Parser.statement? cx expression' block') fun statement? again l' =>
        again = statement?.isSome ∧ l' = statement?.elim l (l.behind enclosing) := by
  rw [Engine.statement?, Parser.statement?]
  refine peek Parser.currentKeyword_run ?_
  cases hk : stream.keyword? with
  | none => exact pure ⟨rfl, rfl⟩
  | some k =>
    cases k with
    | «let» => exact answered (letStatement hcx hexpression hk hl)
    | «if» => exact answered (ifStatement hcx hexpression hblock hk hl)
    | «while» => exact answered (whileStatement hcx hexpression hblock hk hl)
    | «do» => exact answered (doStatement hcx hexpression hk hl)
    | «return» => exact answered (returnStatement hexpression hk hl)
    | _ => exact pure ⟨rfl, rfl⟩

end blocks
end statements

/-! ### Blocks -/

theorem statements (hcx : enclosing.Agrees cx) {levels : Nat} (hl : l.scopes = cx.scopes) :
    Follows ⟨stream, l⟩ (Engine.statements enclosing levels) (Parser.statements cx levels)
      fun body _ l' =>
        l' = (l.traced fun events =>
            (Statement.traceAll body (events.open "statements")).close "statements").emitted
          (Statement.emitAll enclosing.className enclosing.subroutine body) := by
  induction levels generalizing stream l with
  | zero => exact unexpected _
  | succ levels ih =>
    have hblock {stream l} (hl : l.scopes = cx.scopes) :
        Follows ⟨stream, l⟩ (Engine.braced (Engine.statements enclosing levels))
          (Parser.braced (Parser.statements cx levels)) fun body _ l' =>
            l' = (l.traced fun events =>
                (Statement.traceAll body events.openBlock).closeBlock).emitted
              (Statement.emitAll enclosing.className enclosing.subroutine body) := by
      rw [Engine.braced, Parser.braced]
      refine .next (expectSymbol _) fun _ _ stream => .next (ih hl) fun body _ stream => ?_
      rw [← bind_pure (Engine.expectSymbol _)]
      refine .next (expectSymbol _) fun _ _ stream => pure ?_
      simp only [Ledger.traced_traced, Ledger.emitted_traced]
      rfl
    rw [Engine.statements, Parser.statements]
    refine note ?_
    generalize hopen : l.traced _ = l₁
    have hl₁ : l₁.scopes = cx.scopes := hopen ▸ hl
    let effect (body : List Statement) : Ledger := (l₁.traced (Statement.traceAll body)).emitted
      (Statement.emitAll enclosing.className enclosing.subroutine body)
    refine .seq (many effect l₁.traced_id fun body stream => ?_) ?_
    · refine .mono (statement? hcx (expression hcx levels) hblock hl₁) ?_
      rintro statement? again l' ⟨rfl, rfl⟩
      refine ⟨rfl, ?_⟩
      cases statement? with
      | none => simp
      | some statement =>
        simp [effect, Ledger.behind, Statement.traceAll_concat, Statement.emitAll_concat]
    · rintro body _ stream _ rfl
      refine note_pure ?_
      simp only [← hopen, Ledger.traced_traced, Ledger.emitted_traced, effect]
      rfl

end Engine.Follows
end JackLang
