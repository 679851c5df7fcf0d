import JackLang.Proofs.Parser.Reading

/-! Two runs of a parser side by side, on streams with the same tokens at different places. The first
stream may be cut short by a fault, behind which the second goes on. `Lockstep` says that the runs
end alike, unless the first one meets the fault: every parser of one token runs in lockstep with
itself, and sequences and repetitions keep the step. -/

namespace JackLang

/-- Faults of parsers that differ in their places only, as `P` relates them. -/
inductive Fault.Alike (P : Span → Span → Prop) : Fault → Fault → Prop
  | unexpected {a b : Span} (expected : Expectation) (found : Option Token) : P a b →
    Alike P (.unexpected a expected found) (.unexpected b expected found)
  | integerTooLarge {a b : Span} (value : Nat) : P a b →
    Alike P (.integerTooLarge a value) (.integerTooLarge b value)
  | stringTooLong {a b : Span} : P a b → Alike P (.stringTooLong a) (.stringTooLong b)
  | characterTooLarge {a b : Span} (c : Char) : P a b →
    Alike P (.characterTooLarge a c) (.characterTooLarge b c)
  | duplicate {a b : Span} (name : String) : P a b →
    Alike P (.duplicate name a) (.duplicate name b)
  | undefined {a b : Span} (name : String) : P a b →
    Alike P (.undefined name a) (.undefined name b)
  | tooManyVariables {a b : Span} (kind : VarKind) : P a b →
    Alike P (.tooManyVariables kind a) (.tooManyVariables kind b)
  | tooManyFields (className : String) (fields : Nat) :
    Alike P (.tooManyFields className fields) (.tooManyFields className fields)

theorem Fault.Alike.eq {fault fault' : Fault} (h : Alike Eq fault fault') : fault = fault' := by
  cases h with
  | tooManyFields => rfl
  | _ => subst_vars; rfl

namespace TokenStream

variable {P : Span → Span → Prop}

/-- The first tokens are those that the second begin with, at places that `P` relates. -/
inductive Alongside (P : Span → Span → Prop) : List Located → List Located → Prop
  | nil (rest : List Located) : Alongside P [] rest
  | cons {a b : Span} {tokens tokens' : List Located} (t : Token) : P a b →
    Alongside P tokens tokens' → Alongside P (⟨t, a⟩ :: tokens) (⟨t, b⟩ :: tokens')

/-- A stream beside another: it ends where the other ends, or in a fault before that. -/
structure Beside (P : Span → Span → Prop) (s t : TokenStream) : Prop where
  tokens : Alongside P s.tokens t.tokens
  ends : s.fault? = none →
    s.tokens.length = t.tokens.length ∧ t.fault? = none ∧ P s.position t.position

/-- A stream that goes along another, with a token to look at or at the end. -/
structure Along (P : Span → Span → Prop) (s t : TokenStream) : Prop extends s.Beside P t where
  live : s.Live

theorem Alongside.tail {tokens tokens' : List Located} (h : Alongside P tokens tokens') :
    Alongside P tokens.tail tokens'.tail := by
  cases h with
  | nil rest => exact .nil _
  | cons _ _ h => exact h

theorem Alongside.length_le {tokens tokens' : List Located} (h : Alongside P tokens tokens') :
    tokens.length ≤ tokens'.length := by
  induction h with
  | nil => exact Nat.zero_le _
  | cons _ _ _ ih => exact Nat.succ_le_succ ih

variable {s t : TokenStream}

/-- The first tokens of both streams, which may have none. -/
theorem Along.heads (h : s.Along P t) :
    (s.tokens = [] ∧ t.tokens = [] ∧ P s.position t.position) ∨
      ∃ token a b tokens tokens', s.tokens = ⟨token, a⟩ :: tokens ∧
        t.tokens = ⟨token, b⟩ :: tokens' ∧ P a b := by
  obtain ⟨tokens, position, fault?⟩ := s
  obtain ⟨tokens', position', fault?'⟩ := t
  obtain ⟨⟨htokens, hends⟩, hlive⟩ := h
  cases htokens with
  | nil =>
    obtain ⟨hlength, -, hposition⟩ := hends (hlive rfl)
    exact .inl ⟨rfl, List.length_eq_zero_iff.1 hlength.symm, hposition⟩
  | cons token hplace => exact .inr ⟨token, _, _, _, _, rfl, rfl, hplace⟩

theorem Along.current?_eq (h : s.Along P t) : s.current? = t.current? := by
  obtain ⟨hs, ht, -⟩ | ⟨token, a, b, tokens, tokens', hs, ht, -⟩ := h.heads
  · rw [current?, current?, hs, ht]
  · rw [current?, current?, hs, ht]
    rfl

theorem Along.span (h : s.Along P t) : P s.span t.span := by
  obtain ⟨hs, ht, hplace⟩ | ⟨token, a, b, tokens, tokens', hs, ht, hplace⟩ := h.heads
  · rwa [TokenStream.span, TokenStream.span, hs, ht]
  · rwa [TokenStream.span, TokenStream.span, hs, ht]

theorem Along.live_right (h : s.Along P t) : t.Live := by
  intro ht
  have hle := h.tokens.length_le
  rw [ht, List.length_nil, Nat.le_zero, List.length_eq_zero_iff] at hle
  exact (h.ends (h.live hle)).2.1

theorem Along.tail (h : s.Along P t) (hlive : s.tail.Live) : s.tail.Along P t.tail where
  live := hlive
  tokens := h.tokens.tail
  ends hfault := by
    obtain ⟨hlength, hnone, hposition⟩ := h.ends hfault
    refine ⟨?_, hnone, hposition⟩
    rw [TokenStream.tail, TokenStream.tail, List.length_tail, List.length_tail, hlength]

theorem Along.keyword?_eq (h : s.Along P t) : s.keyword? = t.keyword? := by
  rw [keyword?, keyword?, h.current?_eq]

theorem Along.symbol?_eq (h : s.Along P t) : s.symbol? = t.symbol? := by
  rw [symbol?, symbol?, h.current?_eq]

end TokenStream

namespace Parser

open TokenStream

variable {P : Span → Span → Prop} {α β γ δ σ : Type} {s t : TokenStream}
  {R : α → β → Nat → Prop} {R' : γ → δ → Nat → Prop} {p : Parser α} {q : Parser β}

/-- How two runs end that started with streams of which the first is `s`: with answers related by
`R`, which also sees how many tokens are consumed, with faults that are alike, or, the first of
them, with the fault that its stream ends in. -/
inductive Agree (P : Span → Span → Prop) (s : TokenStream) (R : α → β → Nat → Prop) :
    EStateM.Result Fault TokenStream α → EStateM.Result Fault TokenStream β → Prop
  | ok {a : α} {b : β} {s' t' : TokenStream} (k : Nat) : s'.Along P t' → s'.fault? = s.fault? →
    s.tokens.length = s'.tokens.length + k → R a b k → Agree P s R (.ok a s') (.ok b t')
  | error {fault fault' : Fault} {s' t' : TokenStream} : fault.Alike P fault' →
    Agree P s R (.error fault s') (.error fault' t')
  | cut {fault : Fault} {s' : TokenStream} {r : EStateM.Result Fault TokenStream β} :
    s.fault? = some fault → Agree P s R (.error fault s') r

/-- Runs that go on behind `k` tokens of `s`. -/
theorem Agree.behind {s s' : TokenStream} {k : Nat} {left : EStateM.Result Fault TokenStream α}
    {right : EStateM.Result Fault TokenStream β} (hfault : s'.fault? = s.fault?)
    (hk : s.tokens.length = s'.tokens.length + k)
    (h : Agree P s' (fun a b n => R a b (n + k)) left right) : Agree P s R left right := by
  cases h with
  | ok n halong hfault' hn hab => exact .ok (n + k) halong (hfault'.trans hfault) (by omega) hab
  | error hfaults => exact .error hfaults
  | cut hcut => exact .cut (hfault ▸ hcut)

def Lockstep (P : Span → Span → Prop) (R : α → β → Nat → Prop) (p : Parser α) (q : Parser β) :
    Prop :=
  ∀ ⦃s t⦄, s.Along P t → Agree P s R (p.run s) (q.run t)

/-- The same answer. -/
def Same (a b : α) (_ : Nat) : Prop := a = b

/-- The same answer, for which some token is consumed if it is one of the answers `moves`. -/
def SameMoving (moves : α → Prop) (a b : α) (k : Nat) : Prop := a = b ∧ (moves a → 0 < k)

namespace Lockstep

theorem mono {R₁ : α → β → Nat → Prop} (hR : ∀ a b k, R a b k → R₁ a b k)
    (h : Lockstep P R p q) : Lockstep P R₁ p q := by
  intro s t hst
  have hpq := h hst
  generalize p.run s = left, q.run t = right at hpq ⊢
  cases hpq with
  | ok k halong hfault hk hab => exact .ok k halong hfault hk (hR _ _ _ hab)
  | error hfaults => exact .error hfaults
  | cut hcut => exact .cut hcut

/-! ### Sequences -/

theorem pure {a : α} {b : β} (h : R a b 0) : Lockstep P R (pure a) (pure b) :=
  fun _ _ hst => .ok 0 hst rfl rfl h

theorem throw {fault fault' : Fault} (h : fault.Alike P fault') :
    Lockstep P R (throw fault) (throw fault') :=
  fun _ _ _ => .error h

/-- The second parts start where the first ones have stopped. -/
theorem bind {f : α → Parser γ} {g : β → Parser δ} (hp : Lockstep P R p q)
    (hf : ∀ a b k, R a b k → Lockstep P (fun c d n => R' c d (n + k)) (f a) (g b)) :
    Lockstep P R' (p >>= f) (q >>= g) := by
  intro s t hst
  have hpq := hp hst
  rw [EStateM.run_bind, EStateM.run_bind]
  generalize p.run s = left, q.run t = right at hpq ⊢
  cases hpq with
  | @ok a b s₁ t₁ k halong hfault hk hab => exact (hf a b k hab halong).behind hfault hk
  | error hfaults => exact .error hfaults
  | cut hcut => exact .cut hcut

/-- What comes behind the same answers may forget how they were found. -/
theorem andThen {p q : Parser α} {f g : α → Parser γ} (hp : Lockstep P Same p q)
    (hf : ∀ a, Lockstep P Same (f a) (g a)) : Lockstep P Same (p >>= f) (q >>= g) := by
  refine bind hp fun a b _ hab => ?_
  cases hab
  exact hf a

/-- What moves in the second parts moves in the whole. -/
theorem bindMoving {moves : γ → Prop} {f : α → Parser γ} {g : β → Parser γ}
    (hp : Lockstep P R p q)
    (hf : ∀ a b k, R a b k → Lockstep P (SameMoving moves) (f a) (g b)) :
    Lockstep P (SameMoving moves) (p >>= f) (q >>= g) :=
  hp.bind fun a b k hab => (hf a b k hab).mono fun _ _ _ h =>
    ⟨h.1, fun hmoves => Nat.add_pos_left (h.2 hmoves) k⟩

theorem andThenMoving {moves : γ → Prop} {p q : Parser α} {f g : α → Parser γ}
    (hp : Lockstep P Same p q) (hf : ∀ a, Lockstep P (SameMoving moves) (f a) (g a)) :
    Lockstep P (SameMoving moves) (p >>= f) (q >>= g) := by
  refine hp.bindMoving fun a b _ hab => ?_
  cases hab
  exact hf a

theorem map {p q : Parser α} (f : α → γ) (hp : Lockstep P Same p q) :
    Lockstep P Same (f <$> p) (f <$> q) := by
  rw [← bind_pure_comp, ← bind_pure_comp]
  exact hp.andThen fun _ => pure rfl

/-! ### One token -/

theorem look {R : α → α → Nat → Prop} {look : Parser α} {find : TokenStream → α}
    (hrun : ∀ s, look.run s = .ok (find s) s)
    (hfind : ∀ s t, s.Along P t → R (find s) (find t) 0) : Lockstep P R look look := by
  intro s t hst
  rw [hrun, hrun]
  exact .ok 0 hst rfl rfl (hfind s t hst)

theorem current : Lockstep P Same current current :=
  look (fun _ => rfl) fun _ _ hst => hst.current?_eq

theorem currentKeyword : Lockstep P Same currentKeyword currentKeyword :=
  look (fun _ => currentKeyword_run) fun _ _ hst => hst.keyword?_eq

theorem currentSymbol : Lockstep P Same currentSymbol currentSymbol :=
  look (fun _ => currentSymbol_run) fun _ _ hst => hst.symbol?_eq

theorem span : Lockstep P (fun a b _ => P a b) span span :=
  look (fun _ => rfl) fun _ _ hst => hst.span

theorem unexpected (expected : Expectation) :
    Lockstep P R (unexpected expected) (unexpected expected) := by
  intro s t hst
  show Agree P s R (.error (.unexpected s.span expected s.current?) s)
    (.error (.unexpected t.span expected t.current?) t)
  rw [hst.current?_eq]
  exact .error (.unexpected _ _ hst.span)

/-- The current token is consumed in both runs, if the first does not end in a fault behind it. -/
theorem advance : Lockstep P (fun _ _ k => 0 < k) advance advance := by
  intro s t hst
  cases hcurrent : s.current? with
  | none =>
    have hadvance {s : TokenStream} (hs : s.current? = none) :
        Parser.advance.run s = (Parser.unexpected .token).run s := by
      rw [EStateM.run, Parser.advance, current?_eq_none_iff.1 hs]
      rfl
    rw [hadvance hcurrent, hadvance (hst.current?_eq ▸ hcurrent)]
    exact unexpected .token hst
  | some token =>
    rw [advance_run hcurrent, advance_run (hst.current?_eq ▸ hcurrent)]
    cases hstart : start.run s.tail with
    | error fault s' =>
      have hcut : s.tail.fault? = some fault := fault?_of_start_eq_error hstart
      exact .cut hcut
    | ok u s' =>
      obtain ⟨hlive, rfl⟩ := start_eq_ok.1 hstart
      have halong := hst.tail hlive
      have hstart' : start.run t.tail = .ok () t.tail := start_eq_ok.2 ⟨halong.live_right, rfl⟩
      have hreads := reads_singleton_iff.2 ⟨hcurrent, hlive, rfl⟩
      rw [hstart']
      exact .ok 1 halong rfl hreads.length_le.symm Nat.one_pos

/-- What begins by consuming a token consumes one. -/
theorem advance_bind {moves : γ → Prop} {f g : Unit → Parser γ}
    (h : Lockstep P Same (f ()) (g ())) :
    Lockstep P (SameMoving moves) (Parser.advance >>= f) (Parser.advance >>= g) :=
  advance.bind fun _ _ _ hk => h.mono fun _ _ _ heq => ⟨heq, fun _ => Nat.add_pos_right _ hk⟩

theorem advance_same : Lockstep P Same Parser.advance Parser.advance :=
  advance.mono fun _ _ _ _ => rfl

theorem expectKeyword (k : Keyword) : Lockstep P Same (expectKeyword k) (expectKeyword k) := by
  refine currentKeyword.andThen fun found => ?_
  split
  · exact advance_same
  · exact unexpected _

theorem expectSymbol (symbol : Symbol) :
    Lockstep P Same (expectSymbol symbol) (expectSymbol symbol) := by
  refine currentSymbol.andThen fun found => ?_
  split
  · exact advance_same
  · exact unexpected _

/-- What comes behind a name knows it from its place. -/
theorem identifier_bind {f g : String × Span → Parser α}
    (hf : ∀ name a b, P a b → Lockstep P Same (f (name, a)) (g (name, b))) :
    Lockstep P Same (identifier >>= f) (identifier >>= g) := by
  have hidentifier : Lockstep P (fun x y _ => x.1 = y.1 ∧ P x.2 y.2) identifier identifier := by
    refine current.bind fun found _ _ heq => ?_
    cases heq
    split
    · refine span.bind fun a b _ hspan => ?_
      exact advance.bind fun _ _ _ _ => pure ⟨rfl, hspan⟩
    · exact unexpected _
  refine hidentifier.bind fun x y _ hxy => ?_
  obtain ⟨name, a⟩ := x
  obtain ⟨_, b⟩ := y
  obtain ⟨rfl, h⟩ : name = _ ∧ P a b := hxy
  exact hf name a b h

/-! ### Repetition -/

/-- Steps in lockstep, each of which consumes a token if another one follows. -/
theorem iterate {step : σ → Parser (ForInStep σ)}
    (hstep : ∀ state, Lockstep P (SameMoving fun next => ∃ state', next = .yield state')
      (step state) (step state)) (state : σ) :
    Lockstep P Same (iterate step state) (iterate step state) := by
  suffices ∀ left left' : List Located, ∀ state s t, s.Along P t →
      s.tokens.length ≤ left.length → left.length ≤ left'.length →
      (s.fault? = none → left.length = left'.length) →
      Agree P s Same ((iterate.rounds step left state).run s)
        ((iterate.rounds step left' state).run t) by
    intro s t hst
    exact this s.tokens t.tokens state s t hst (Nat.le_refl _) hst.tokens.length_le
      fun hfault => (hst.ends hfault).1
  intro left
  induction left with
  | nil =>
    intro left' state s t hst hleft _ hfault
    have hnil : s.tokens = [] := List.length_eq_zero_iff.1 (Nat.le_zero.1 hleft)
    obtain rfl : left' = [] := List.length_eq_zero_iff.1 (hfault (hst.live hnil)).symm
    exact pure (R := Same) rfl hst
  | cons token left ih =>
    intro left' state s t hst hleft hle hfault
    cases left' with
    | nil => cases hle
    | cons token' left' =>
      have hnext := hstep state hst
      rw [iterate.rounds, iterate.rounds, EStateM.run_bind, EStateM.run_bind]
      generalize (step state).run s = left, (step state).run t = right at hnext ⊢
      cases hnext with
      | error hfaults => exact .error hfaults
      | cut hcut => exact .cut hcut
      | @ok next _ s' t' k halong hfault' hk heq =>
        obtain ⟨rfl, hmoves⟩ := heq
        cases next with
        | done state' => exact .ok k halong hfault' hk rfl
        | yield state' =>
          have hpos := hmoves ⟨state', rfl⟩
          rw [List.length_cons] at hleft
          have hrest := ih left' state' s' t' halong (by omega) (Nat.le_of_succ_le_succ hle)
            fun hnone => Nat.succ_inj.1 (hfault (hfault' ▸ hnone))
          exact Agree.behind hfault' hk hrest

theorem many {item? : Parser (Option α)}
    (hitem : Lockstep P (SameMoving fun a? => a?.isSome) item? item?) :
    Lockstep P Same (many item?) (many item?) := by
  refine andThen (iterate (fun items => ?_) []) fun _ => pure rfl
  refine hitem.bind fun a? _ k heq => ?_
  obtain ⟨rfl, hmoves⟩ := heq
  cases a? with
  | none => exact pure ⟨rfl, nofun⟩
  | some a => exact pure ⟨rfl, fun _ => Nat.add_pos_right _ (hmoves rfl)⟩

theorem comma : Lockstep P (SameMoving (· = true)) comma comma := by
  refine currentSymbol.andThenMoving fun found => ?_
  split
  · exact advance_bind (pure rfl)
  · exact pure ⟨rfl, nofun⟩

/-- What comes behind a comma, and what comes where there is none. -/
theorem comma_bind {moves : γ → Prop} {f g : Bool → Parser γ}
    (htrue : Lockstep P Same (f true) (g true))
    (hfalse : Lockstep P (SameMoving moves) (f false) (g false)) :
    Lockstep P (SameMoving moves) (Parser.comma >>= f) (Parser.comma >>= g) := by
  refine comma.bind fun found _ k heq => ?_
  obtain ⟨rfl, hmoves⟩ := heq
  cases found with
  | true => exact htrue.mono fun _ _ _ h => ⟨h, fun _ => Nat.add_pos_right _ (hmoves rfl)⟩
  | false => exact hfalse.mono fun _ _ _ h => ⟨h.1, fun hmove => Nat.add_pos_left (h.2 hmove) k⟩

theorem commaSeparated {item : Parser α} (hitem : Lockstep P Same item item) :
    Lockstep P Same (commaSeparated item) (commaSeparated item) := by
  refine hitem.andThen fun first => andThen (many ?_) fun rest => pure rfl
  exact comma_bind (hitem.andThen fun _ => pure rfl) (pure ⟨rfl, nofun⟩)

end Lockstep
end Parser
end JackLang
