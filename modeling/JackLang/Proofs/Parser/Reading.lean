import JackLang.Parser.Basic
import JackLang.Proofs.Syntax.Tree
import Mathlib.Data.List.Forall2

/-! What parsers read. `TokenStream.Reads s ts s'` says that the tokens `ts` lead from one stream to
another; every parser of one token succeeds just if it reads that token. The repetitions get a rule
for each direction: what a successful repetition has read (`many_sound`, `commaSeparated_sound`), and
that one succeeds on the tokens of a list of items (`exists_many_ok`, `exists_commaSeparated_ok`). -/

namespace JackLang

namespace TokenStream

/-- The stream behind the current token. -/
def tail (s : TokenStream) : TokenStream := { s with tokens := s.tokens.tail }

/-- A stream that does not start with a fault. -/
def Live (s : TokenStream) : Prop := s.tokens = [] → s.fault? = none

/-- The tokens from one stream to another, with no fault met on the way. -/
inductive Reads : TokenStream → List Token → TokenStream → Prop
  | nil {s : TokenStream} : Reads s [] s
  | cons {s s' : TokenStream} {t : Token} {ts : List Token} :
    s.current? = some t → s.tail.Live → Reads s.tail ts s' → Reads s (t :: ts) s'

variable {s s' : TokenStream} {t : Token} {ts us : List Token}

@[simp] theorem reads_nil_iff : s.Reads [] s' ↔ s' = s := by
  refine ⟨fun h => ?_, fun h => h ▸ .nil⟩
  cases h
  rfl

theorem reads_cons_iff : s.Reads (t :: ts) s' ↔
    s.current? = some t ∧ s.tail.Live ∧ s.tail.Reads ts s' := by
  refine ⟨fun h => ?_, fun ⟨ht, hl, h⟩ => .cons ht hl h⟩
  cases h with
  | cons ht hl h => exact ⟨ht, hl, h⟩

theorem reads_singleton_iff :
    s.Reads [t] s' ↔ s.current? = some t ∧ s.tail.Live ∧ s' = s.tail := by
  rw [reads_cons_iff, reads_nil_iff]

theorem reads_append_iff : s.Reads (ts ++ us) s' ↔ ∃ s₁, s.Reads ts s₁ ∧ s₁.Reads us s' := by
  induction ts generalizing s with
  | nil => simp
  | cons t ts ih =>
    simp only [List.cons_append, reads_cons_iff, ih]
    refine ⟨?_, ?_⟩
    · rintro ⟨ht, hl, s₁, h, h'⟩
      exact ⟨s₁, ⟨ht, hl, h⟩, h'⟩
    · rintro ⟨s₁, ⟨ht, hl, h⟩, h'⟩
      exact ⟨ht, hl, s₁, h, h'⟩

/-- A token, and then the others. -/
theorem reads_cons_iff_exists :
    s.Reads (t :: ts) s' ↔ ∃ s₁, s.Reads [t] s₁ ∧ s₁.Reads ts s' := by
  rw [← List.singleton_append, reads_append_iff]

/-- Tokens between two others. -/
theorem reads_between_iff {u : Token} : s.Reads (t :: (ts ++ [u])) s' ↔
    ∃ s₁ s₂, s.Reads [t] s₁ ∧ s₁.Reads ts s₂ ∧ s₂.Reads [u] s' := by
  rw [reads_cons_iff_exists]
  simp only [reads_append_iff, exists_and_left]

theorem Reads.append {s₁ : TokenStream} (h : s.Reads ts s₁) (h' : s₁.Reads us s') :
    s.Reads (ts ++ us) s' := reads_append_iff.2 ⟨s₁, h, h'⟩

theorem Reads.cons_of {s₁ : TokenStream} (h : s.Reads [t] s₁) (h' : s₁.Reads ts s') :
    s.Reads (t :: ts) s' := h.append h'

theorem Reads.concat {s₁ : TokenStream} (h : s.Reads ts s₁) (h' : s₁.Reads [t] s') :
    s.Reads (ts ++ [t]) s' := h.append h'

theorem Reads.current?_eq (h : s.Reads (t :: ts) s') : s.current? = some t :=
  (reads_cons_iff.1 h).1

theorem Reads.map_token (h : s.Reads ts s') :
    s.tokens.map (·.token) = ts ++ s'.tokens.map (·.token) := by
  induction h with
  | nil => rfl
  | cons ht _ _ ih =>
    obtain ⟨token, htoken, rfl⟩ := Option.map_eq_some_iff.1 ht
    obtain ⟨rest, hrest⟩ := List.head?_eq_some_iff.1 htoken
    rw [tail, hrest] at ih
    rw [hrest, List.cons_append, ← ih, List.map_cons, List.tail_cons]

/-- What is read leaves the tokens behind it. -/
theorem Reads.drop_eq (h : s.Reads ts s') : s.tokens.drop ts.length = s'.tokens := by
  induction h with
  | nil => rfl
  | @cons s s' t ts _ _ _ ih =>
    rw [← ih, List.length_cons, Nat.add_comm, ← List.drop_drop, tail, List.drop_one]

theorem Reads.fault?_eq (h : s.Reads ts s') : s'.fault? = s.fault? := by
  induction h with
  | nil => rfl
  | cons _ _ _ ih => exact ih

theorem Reads.position_eq (h : s.Reads ts s') : s'.position = s.position := by
  induction h with
  | nil => rfl
  | cons _ _ _ ih => exact ih

theorem Reads.live (h : s.Reads ts s') (hs : s.Live) : s'.Live := by
  induction h with
  | nil => exact hs
  | cons _ hl _ ih => exact ih hl

theorem Reads.length_le (h : s.Reads ts s') : s'.tokens.length + ts.length = s.tokens.length := by
  have := congrArg List.length h.map_token
  simp only [List.length_append, List.length_map] at this
  omega

theorem current?_eq_none_iff : s.current? = none ↔ s.tokens = [] := by
  rw [current?, Option.map_eq_none_iff, List.head?_eq_none_iff]

/-- All tokens of a stream without a fault can be read. -/
theorem exists_reads (h : s.fault? = none) :
    ∃ s', s.Reads (s.tokens.map (·.token)) s' ∧ s'.tokens = [] := by
  obtain ⟨tokens, position, fault?⟩ := s
  subst h
  induction tokens with
  | nil => exact ⟨_, .nil, rfl⟩
  | cons token tokens ih =>
    obtain ⟨s', h, hs'⟩ := ih
    exact ⟨s', .cons rfl (fun _ => rfl) h, hs'⟩

/-- The keyword at the start of a stream. -/
def keyword? (s : TokenStream) : Option Keyword :=
  match s.current? with
  | some (.keyword k) => some k
  | _ => none

/-- The symbol at the start of a stream. -/
def symbol? (s : TokenStream) : Option Symbol :=
  match s.current? with
  | some (.symbol symbol) => some symbol
  | _ => none

theorem keyword?_eq_some_iff {k : Keyword} :
    s.keyword? = some k ↔ s.current? = some (.keyword k) := by
  rw [keyword?]
  split <;> simp_all

theorem symbol?_eq_some_iff {symbol : Symbol} :
    s.symbol? = some symbol ↔ s.current? = some (.symbol symbol) := by
  rw [symbol?]
  split <;> simp_all

end TokenStream

namespace Parser

open TokenStream

variable {α β σ : Type} {s s' s₁ : TokenStream}

/-! ### Sequences -/

theorem bind_eq_ok {x : Parser α} {f : α → Parser β} {b : β} :
    (x >>= f).run s = .ok b s' ↔ ∃ a s₁, x.run s = .ok a s₁ ∧ (f a).run s₁ = .ok b s' := by
  rw [EStateM.run_bind]
  split
  · next a s₁ hx =>
    rw [hx]
    refine ⟨fun h => ⟨a, s₁, rfl, h⟩, ?_⟩
    rintro ⟨_, _, ⟨⟩, h⟩
    exact h
  · next hx => simp [hx]

/-- What comes after a parser goes on from where that has stopped. -/
theorem bind_of_ok {x : Parser α} {f : α → Parser β} {a : α} (h : x.run s = .ok a s₁) :
    (x >>= f).run s = (f a).run s₁ := by
  rw [EStateM.run_bind, h]

/-- Both parts of a sequence succeed, the second with what the first has found. -/
theorem exists_bind_ok {x : Parser α} {f : α → Parser β} {P : α → Prop} {Q : β → Prop}
    (hx : ∃ a, x.run s = .ok a s₁ ∧ P a)
    (hf : ∀ a, P a → ∃ b, (f a).run s₁ = .ok b s' ∧ Q b) :
    ∃ b, (x >>= f).run s = .ok b s' ∧ Q b := by
  obtain ⟨a, ha, hP⟩ := hx
  obtain ⟨b, hb, hQ⟩ := hf a hP
  exact ⟨b, (bind_of_ok ha).trans hb, hQ⟩

theorem pure_eq_ok {a b : α} : (pure a : Parser α).run s = .ok b s' ↔ b = a ∧ s' = s := by
  rw [EStateM.run_pure, EStateM.Result.ok.injEq, eq_comm, eq_comm (a := s)]

theorem map_eq_ok {x : Parser α} {f : α → β} {b : β} :
    (f <$> x).run s = .ok b s' ↔ ∃ a, x.run s = .ok a s' ∧ b = f a := by
  rw [← bind_pure_comp]
  simp only [bind_eq_ok, pure_eq_ok]
  refine ⟨?_, fun ⟨a, h, hb⟩ => ⟨a, s', h, hb, rfl⟩⟩
  rintro ⟨a, _, h, hb, rfl⟩
  exact ⟨a, h, hb⟩

theorem map_some_eq_ok {x : Parser α} {a : α} :
    (some <$> x).run s = .ok (some a) s' ↔ x.run s = .ok a s' := by
  simp only [map_eq_ok, Option.some.injEq, exists_eq_right']

@[simp] theorem throw_ne_ok {fault : Fault} {a : α} :
    (throw fault : Parser α).run s ≠ .ok a s' := nofun

@[simp] theorem unexpected_ne_ok {expected : Expectation} {a : α} :
    (unexpected expected).run s ≠ .ok a s' := nofun

/-! ### One token -/

theorem current_run : current.run s = .ok s.current? s := rfl

theorem currentKeyword_run : currentKeyword.run s = .ok s.keyword? s := by
  rw [EStateM.run, currentKeyword, TokenStream.keyword?]
  split <;> simp_all

theorem currentSymbol_run : currentSymbol.run s = .ok s.symbol? s := by
  rw [EStateM.run, currentSymbol, TokenStream.symbol?]
  split <;> simp_all

theorem span_run : span.run s = .ok s.span s := rfl

theorem start_eq_ok {u : Unit} : start.run s = .ok u s' ↔ s.Live ∧ s' = s := by
  obtain ⟨tokens, position, fault?⟩ := s
  cases tokens <;> cases fault? <;> simp [EStateM.run, start, TokenStream.Live, eq_comm]

theorem fault?_of_start_eq_error {fault : Fault} (h : start.run s = .error fault s') :
    s.fault? = some fault := by
  obtain ⟨tokens, position, fault?⟩ := s
  cases tokens <;> cases fault? <;> cases h
  rfl

theorem advance_run {t : Token} (h : s.current? = some t) : advance.run s = start.run s.tail := by
  obtain ⟨_ | ⟨_, tokens⟩, position, fault?⟩ := s
  · cases h
  · rfl

/-- To consume a token that is known is to read it. -/
theorem advance_eq_ok_iff {u : Unit} {t : Token} (h : s.current? = some t) :
    advance.run s = .ok u s' ↔ s.Reads [t] s' := by
  rw [advance_run h, start_eq_ok, reads_singleton_iff]
  exact (and_iff_right h).symm

theorem advance_of_reads {t : Token} (h : s.Reads [t] s') : advance.run s = .ok () s' :=
  (advance_eq_ok_iff h.current?_eq).2 h

theorem expectSymbol_eq_ok {symbol : Symbol} {u : Unit} :
    (expectSymbol symbol).run s = .ok u s' ↔ s.Reads [.symbol symbol] s' := by
  rw [expectSymbol, bind_of_ok currentSymbol_run]
  split
  · next h => exact advance_eq_ok_iff (symbol?_eq_some_iff.1 h)
  · next h =>
    exact iff_of_false unexpected_ne_ok fun hr => h (symbol?_eq_some_iff.2 hr.current?_eq)

theorem expectSymbol_of_reads {symbol : Symbol} (h : s.Reads [.symbol symbol] s') :
    (expectSymbol symbol).run s = .ok () s' := expectSymbol_eq_ok.2 h

theorem expectKeyword_eq_ok {k : Keyword} {u : Unit} :
    (expectKeyword k).run s = .ok u s' ↔ s.Reads [.keyword k] s' := by
  rw [expectKeyword, bind_of_ok currentKeyword_run]
  split
  · next h => exact advance_eq_ok_iff (keyword?_eq_some_iff.1 h)
  · next h =>
    exact iff_of_false unexpected_ne_ok fun hr => h (keyword?_eq_some_iff.2 hr.current?_eq)

theorem expectKeyword_of_reads {k : Keyword} (h : s.Reads [.keyword k] s') :
    (expectKeyword k).run s = .ok () s' := expectKeyword_eq_ok.2 h

theorem identifier_eq_ok {named : String × Span} : identifier.run s = .ok named s' ↔
    s.Reads [.identifier named.1] s' ∧ named.2 = s.span := by
  rw [identifier, bind_of_ok current_run]
  split
  · next name h =>
    rw [bind_of_ok span_run, bind_eq_ok]
    refine ⟨?_, ?_⟩
    · rintro ⟨_, _, hr, h'⟩
      obtain ⟨rfl, rfl⟩ := pure_eq_ok.1 h'
      exact ⟨(advance_eq_ok_iff h).1 hr, rfl⟩
    · rintro ⟨hr, hspan⟩
      cases h.symm.trans hr.current?_eq
      exact ⟨(), s', advance_of_reads hr, pure_eq_ok.2 ⟨Prod.ext rfl hspan, rfl⟩⟩
  · next h => exact iff_of_false unexpected_ne_ok fun hr => h _ hr.1.current?_eq

theorem identifier_of_reads {name : String} (h : s.Reads [.identifier name] s') :
    identifier.run s = .ok (name, s.span) s' := identifier_eq_ok.2 ⟨h, rfl⟩

theorem comma_eq_ok {b : Bool} : comma.run s = .ok b s' ↔
    (b = true ∧ s.Reads [.symbol .comma] s') ∨
      (b = false ∧ s.current? ≠ some (.symbol .comma) ∧ s' = s) := by
  rw [comma, bind_of_ok currentSymbol_run]
  split
  · next h =>
    rw [symbol?_eq_some_iff] at h
    rw [bind_eq_ok]
    refine ⟨?_, ?_⟩
    · rintro ⟨_, _, hr, h'⟩
      obtain ⟨rfl, rfl⟩ := pure_eq_ok.1 h'
      exact .inl ⟨rfl, (advance_eq_ok_iff h).1 hr⟩
    · rintro (⟨rfl, hr⟩ | ⟨-, hne, -⟩)
      · exact ⟨(), s', advance_of_reads hr, rfl⟩
      · exact absurd h hne
  · next h =>
    rw [symbol?_eq_some_iff] at h
    have hr : ¬ s.Reads [.symbol .comma] s' := fun hr => h hr.current?_eq
    rw [pure_eq_ok]
    simp [h, hr]

/-! ### Repetition -/

/-- Whatever a parser answers, it has read the tokens of something that the answer stands for. -/
def Finds (p : Parser α) (tokens : β → List Token) (Q : β → α → Prop) : Prop :=
  ∀ ⦃s a s'⦄, p.run s = .ok a s' → ∃ b, s.Reads (tokens b) s' ∧ Q b a

/-- A parser succeeds on tokens if they stand before what may follow them. -/
def Accepts (p : Parser α) (tokens : List Token) (Follow : Option Token → Prop) : Prop :=
  ∀ ⦃s s'⦄, s.Reads tokens s' → Follow s'.current? → ∃ a, p.run s = .ok a s'

section iterate

variable {step : σ → Parser (ForInStep σ)} {state state' : σ}

/-- What every step keeps holds at the end of a repetition. -/
theorem iterate_sound {I : σ → TokenStream → Prop}
    (hstep : ∀ ⦃state s r s'⦄, I state s → (step state).run s = .ok r s' → I r.value s')
    (hI : I state s) (h : (iterate step state).run s = .ok state' s') : I state' s' := by
  rw [EStateM.run, iterate] at h
  generalize s.tokens = left at h
  induction left generalizing state s with
  | nil =>
    cases h
    exact hI
  | cons _ left ih =>
    obtain ⟨r, s₁, hr, h⟩ := bind_eq_ok.1 h
    have hI' := hstep hI hr
    cases r with
    | done =>
      cases h
      exact hI'
    | yield => exact ih hI' h

/-- A repetition gets through a list of items if every item makes one step that consumes a token, and
the step is done when there are no more. -/
theorem exists_iterate_ok {I : List β → σ → TokenStream → Prop} {P : σ → Prop} {items : List β}
    (hdone : ∀ ⦃state s⦄, I [] state s →
      s = s' ∧ P state ∧ (step state).run s' = .ok (.done state) s')
    (hstep : ∀ ⦃b bs state s⦄, I (b :: bs) state s → ∃ state' s₁,
      (step state).run s = .ok (.yield state') s₁ ∧ I bs state' s₁ ∧
        s₁.tokens.length < s.tokens.length)
    (h : I items state s) : ∃ state', (iterate step state).run s = .ok state' s' ∧ P state' := by
  suffices ∀ left : List Located, s.tokens.length ≤ left.length →
      ∃ state', (iterate.rounds step left state).run s = .ok state' s' ∧ P state' from
    this s.tokens (Nat.le_refl _)
  intro left hleft
  induction items generalizing state s left with
  | nil =>
    obtain ⟨rfl, hP, hs⟩ := hdone h
    refine ⟨state, ?_, hP⟩
    cases left with
    | nil => rfl
    | cons _ left =>
      rw [iterate.rounds, bind_of_ok hs]
      rfl
  | cons b bs ih =>
    obtain ⟨state', s₁, hs, hI, hlt⟩ := hstep h
    cases left with
    | nil =>
      rw [List.length_nil] at hleft
      omega
    | cons _ left =>
      rw [iterate.rounds, bind_of_ok hs]
      rw [List.length_cons] at hleft
      exact ih hI left (by omega)

end iterate

section many

variable {item? : Parser (Option α)} {tokens : β → List Token} {Q : β → α → Prop} {as : List α}

theorem many_sound
    (hsome : ∀ ⦃s a s'⦄, item?.run s = .ok (some a) s' → ∃ b, s.Reads (tokens b) s' ∧ Q b a)
    (hnone : ∀ ⦃s s'⦄, item?.run s = .ok none s' → s' = s) (h : (many item?).run s = .ok as s') :
    ∃ bs, s.Reads (bs.flatMap tokens) s' ∧ List.Forall₂ Q bs as := by
  simp only [many, bind_eq_ok, pure_eq_ok] at h
  obtain ⟨items, _, h, rfl, rfl⟩ := h
  refine iterate_sound (I := fun items s₁ =>
    ∃ bs, s.Reads (bs.flatMap tokens) s₁ ∧ List.Forall₂ Q bs items.reverse) ?_ ?_ h
  · rintro items s₁ r s₂ ⟨bs, hbs, hQ⟩ hr
    obtain ⟨a?, s₃, ha, hr⟩ := bind_eq_ok.1 hr
    cases a? with
    | none =>
      cases hr
      cases hnone ha
      exact ⟨bs, hbs, hQ⟩
    | some a =>
      cases hr
      obtain ⟨b, hb, hab⟩ := hsome ha
      refine ⟨bs ++ [b], ?_, ?_⟩
      · simpa using hbs.append hb
      · simpa using List.rel_append hQ (.cons hab .nil)
  · exact ⟨[], .nil, .nil⟩

/-- `Follow` holds of what may stand behind an item. -/
theorem exists_many_ok (Follow : Option Token → Prop) {bs : List β}
    (hitem : ∀ b ∈ bs, ∀ ⦃s s'⦄, s.Reads (tokens b) s' → Follow s'.current? →
      ∃ a, item?.run s = .ok (some a) s')
    (hfirst : ∀ b ∈ bs, ∃ t ts, tokens b = t :: ts ∧ Follow (some t))
    (hlast : Follow s'.current?) (hend : item?.run s' = .ok none s')
    (h : s.Reads (bs.flatMap tokens) s') : ∃ as, (many item?).run s = .ok as s' := by
  let I (cs : List β) (_ : List α) (s₁ : TokenStream) : Prop :=
    cs ⊆ bs ∧ s₁.Reads (cs.flatMap tokens) s'
  suffices ∃ items, (iterate _ []).run s = .ok items s' ∧ True by
    obtain ⟨items, hs, -⟩ := this
    exact ⟨items.reverse, bind_of_ok hs⟩
  refine exists_iterate_ok (I := I) ?_ ?_ ⟨List.Subset.refl _, h⟩
  · rintro items s₁ ⟨-, hs₁⟩
    exact ⟨(reads_nil_iff.1 hs₁).symm, trivial, bind_of_ok hend⟩
  · rintro b cs items s₁ ⟨hsub, hs₁⟩
    have hb : b ∈ bs := hsub List.mem_cons_self
    rw [List.flatMap_cons, reads_append_iff] at hs₁
    obtain ⟨s₂, hs₂, hrest⟩ := hs₁
    have hfollow : Follow s₂.current? := by
      cases cs with
      | nil => exact reads_nil_iff.1 hrest ▸ hlast
      | cons c cs =>
        obtain ⟨t, ts, hts, ht⟩ := hfirst c (hsub (by simp))
        rw [List.flatMap_cons, hts, List.cons_append] at hrest
        rwa [hrest.current?_eq]
    obtain ⟨a, ha⟩ := hitem b hb hs₂ hfollow
    refine ⟨a :: items, s₂, ?_, ⟨fun c hc => hsub (List.mem_cons_of_mem _ hc), hrest⟩, ?_⟩
    · rw [bind_of_ok ha]
      rfl
    · obtain ⟨t, ts, hts, -⟩ := hfirst b hb
      have := hs₂.length_le
      rw [hts, List.length_cons] at this
      omega

end many

section commaSeparated

open Syntax

variable {item : Parser α} {tokens : β → List Token} {Q : β → α → Prop} {as : List α}

/-- What stands before an item behind the first. -/
theorem commaItem_eq_ok {a? : Option α} :
    (do if ← comma then return some (← item) else return none : Parser (Option α)).run s = .ok a? s' ↔
      (∃ a s₁, s.Reads [.symbol .comma] s₁ ∧ item.run s₁ = .ok a s' ∧ a? = some a) ∨
        (a? = none ∧ s.current? ≠ some (.symbol .comma) ∧ s' = s) := by
  rw [bind_eq_ok]
  refine ⟨?_, ?_⟩
  · rintro ⟨b, s₁, hb, h⟩
    obtain ⟨rfl, hcomma⟩ | ⟨rfl, hcomma, rfl⟩ := comma_eq_ok.1 hb
    · obtain ⟨a, s₂, ha, h⟩ := bind_eq_ok.1 h
      obtain ⟨rfl, rfl⟩ := pure_eq_ok.1 h
      exact .inl ⟨a, s₁, hcomma, ha, rfl⟩
    · obtain ⟨rfl, rfl⟩ := pure_eq_ok.1 h
      exact .inr ⟨rfl, hcomma, rfl⟩
  · rintro (⟨a, s₁, hcomma, ha, rfl⟩ | ⟨rfl, hcomma, rfl⟩)
    · exact ⟨true, s₁, comma_eq_ok.2 (.inl ⟨rfl, hcomma⟩), bind_of_ok ha⟩
    · exact ⟨false, s', comma_eq_ok.2 (.inr ⟨rfl, hcomma, rfl⟩), rfl⟩

theorem commaSeparated_sound (hitem : Finds item tokens Q) :
    Finds (commaSeparated item) (fun bs => withCommas (bs.map tokens)) (List.Forall₂ Q) := by
  intro s as s' h
  simp only [commaSeparated, bind_eq_ok, pure_eq_ok] at h
  obtain ⟨first, s₁, hfirst, rest, _, hrest, rfl, rfl⟩ := h
  obtain ⟨b, hb, hQ⟩ := hitem hfirst
  suffices ∃ bs, s₁.Reads (bs.flatMap fun b => .symbol .comma :: tokens b) s' ∧
      List.Forall₂ Q bs rest by
    obtain ⟨bs, hbs, hQs⟩ := this
    refine ⟨b :: bs, ?_, .cons hQ hQs⟩
    simpa [withCommas, List.flatMap_map] using hb.append hbs
  refine many_sound ?_ ?_ hrest
  · intro s a s' h
    obtain ⟨a', s₂, hcomma, ha, heq⟩ | ⟨heq, -, -⟩ := commaItem_eq_ok.1 h
    · cases heq
      obtain ⟨b, hb, hQ⟩ := hitem ha
      exact ⟨b, hcomma.cons_of hb, hQ⟩
    · cases heq
  · intro s s' h
    obtain ⟨_, _, _, _, heq⟩ | ⟨-, -, h⟩ := commaItem_eq_ok.1 h
    · cases heq
    · exact h

theorem exists_commaSeparated_ok (Follow : Option Token → Prop) {bs : List β} (hne : bs ≠ [])
    (hitem : ∀ b ∈ bs, Accepts item (tokens b) Follow)
    (hcomma : Follow (some (.symbol .comma))) (hlast : Follow s'.current?)
    (hend : s'.current? ≠ some (.symbol .comma))
    (h : s.Reads (withCommas (bs.map tokens)) s') :
    ∃ as, (commaSeparated item).run s = .ok as s' := by
  cases bs with
  | nil => exact absurd rfl hne
  | cons b bs =>
    rw [List.map_cons, withCommas, List.flatMap_map, reads_append_iff] at h
    obtain ⟨s₁, hs₁, h⟩ := h
    obtain ⟨first, hfirst⟩ : ∃ a, item.run s = .ok a s₁ := by
      refine hitem b List.mem_cons_self hs₁ ?_
      cases bs with
      | nil => exact reads_nil_iff.1 h ▸ hlast
      | cons =>
        rw [List.flatMap_cons, List.cons_append] at h
        rwa [h.current?_eq]
    suffices ∃ rest, (many _).run s₁ = .ok rest s' by
      obtain ⟨rest, hrest⟩ := this
      refine ⟨first :: rest, ?_⟩
      rw [commaSeparated, bind_of_ok hfirst, bind_of_ok hrest]
      rfl
    refine exists_many_ok Follow ?_ (fun _ _ => ⟨_, _, rfl, hcomma⟩) hlast
      (commaItem_eq_ok.2 (.inr ⟨rfl, hend, rfl⟩)) h
    intro b' hb' s s' h hfollow
    obtain ⟨s₂, hcomma, h⟩ := reads_cons_iff_exists.1 h
    obtain ⟨a, ha⟩ := hitem b' (List.mem_cons_of_mem _ hb') h hfollow
    exact ⟨a, commaItem_eq_ok.2 (.inl ⟨a, s₂, hcomma, ha, rfl⟩)⟩

end commaSeparated

end Parser
end JackLang
