import JackLang.Proofs.Lexis.Requests
import JackLang.Proofs.Parser.Reading
import JackLang.Proofs.Procedure.Descent

/-! Procedures that do on a lexer what parsers do on the tokens that it has before it. `Performs`
says so of one procedure and one parser: on a reader that follows a stream the procedure has a run,
which ends as the parser does, consumes the same tokens, and falls. The pieces that the grammar is
made of perform their parsers, and sequences, repetitions, calls and levels of nesting keep it so. -/

namespace JackLang

/-! ### Readers on streams -/

/-- A lexer that has made the first token of a stream current, with the others before it. -/
structure Lexer.Follows (l : Lexer) (s : TokenStream) : Prop where
  peeked : l.peeked = none
  current : l.current = s.tokens.head?
  rest : l.scanner.stream [] = s.tail
  live : s.Live
  position : s.tokens = [] → l.position = s.position

theorem Lexer.advance_of_peek {l l' : Lexer} {token? : Option Located}
    (h : l.peek = .ok token? l') :
    l.advance = .ok token? { l' with peeked := none, current := token? } := by
  show EStateM.bind Lexer.peek _ l = _
  rw [EStateM.bind, h]
  rfl

theorem Lexer.advance_of_peek_fault {l l' : Lexer} {fault : Fault}
    (h : l.peek = .error fault l') : l.advance = .error fault l' := by
  show EStateM.bind Lexer.peek _ l = _
  rw [EStateM.bind, h]

/-- A lexer advances to the first token before it, or to the end of the input, or finds the fault
that is there instead. -/
theorem Lexer.advance_start {l : Lexer} (h : l.peeked = none) :
    (∃ token? l', l.advance = .ok token? l' ∧ l'.Follows (l.scanner.stream [])) ∨
      ∃ fault l', l.advance = .error fault l' ∧
        Parser.start.run (l.scanner.stream []) = .error fault (l.scanner.stream []) := by
  cases hscan : l.scanner.scan with
  | error fault scanner =>
    refine .inr ⟨fault, _, advance_of_peek_fault (peek_of_scan_fault h hscan), ?_⟩
    rw [Scanner.stream_of_error hscan]
    rfl
  | ok token? scanner =>
    refine .inl ⟨token?, _, advance_of_peek (peek_of_scan h hscan), ?_⟩
    cases token? with
    | none =>
      have hrest : scanner.stream [] = ⟨[], scanner.position, none⟩ :=
        Scanner.stream_of_end (Scanner.scan_of_scan_end hscan)
      rw [Scanner.stream_of_end hscan]
      exact ⟨rfl, rfl, hrest, fun _ => rfl, fun _ => rfl⟩
    | some token =>
      rw [Scanner.stream_of_token hscan, Scanner.stream_before]
      exact ⟨rfl, rfl, rfl, nofun, nofun⟩

/-- A reader on a stream, with so many levels of nesting left. -/
structure Reader.Follows (reader : Reader) (levels : Nat) (s : TokenStream) : Prop where
  lexer : reader.lexer.Follows s
  depth : reader.depth + levels = maxNesting

section follows

variable {reader : Reader} {levels : Nat} {s : TokenStream}

theorem Reader.Follows.current?_eq (h : reader.Follows levels s) :
    reader.view.current? = s.current? := by
  rw [view, h.lexer.current, TokenStream.current?]

theorem Reader.Follows.span_eq (h : reader.Follows levels s) : reader.view.span = s.span := by
  rw [view, h.lexer.current, TokenStream.span]
  cases htokens : s.tokens with
  | nil => exact h.lexer.position htokens
  | cons token tokens => rfl

theorem View.current?_stream (v : View) : v.stream.current? = v.current? := by
  rw [stream, TokenStream.current?]
  cases v.current? <;> rfl

theorem View.span_stream (v : View) : v.stream.span = v.span := by
  rw [stream, TokenStream.span]
  cases v.current? <;> rfl

end follows

/-! ### Parsers that consume nothing -/

namespace Parser

variable {α β : Type}

/-- A parser that consumes nothing and looks at the current token and its place alone: it finds the
same on all streams that begin alike. -/
def Stays (q : Parser α) : Prop :=
  ∀ s : TokenStream, ∃ found : Except Fault α, ∀ s' : TokenStream,
    s'.current? = s.current? → s'.span = s.span →
      q.run s' = match found with
        | .ok a => .ok a s'
        | .error fault => .error fault s'

namespace Stays

theorem pure (a : α) : Stays (pure a) := fun _ => ⟨.ok a, fun _ _ _ => rfl⟩

theorem throw (fault : Fault) : Stays (throw fault : Parser α) :=
  fun _ => ⟨.error fault, fun _ _ _ => rfl⟩

theorem unexpected (expected : Expectation) : Stays (unexpected expected : Parser α) := by
  refine fun s => ⟨.error (.unexpected s.span expected s.current?), fun s' hcurrent hspan => ?_⟩
  rw [← hcurrent, ← hspan]
  rfl

theorem current : Stays current := fun s => ⟨.ok s.current?, fun s' hcurrent _ => by
  rw [current_run, hcurrent]⟩

theorem span : Stays span := fun s => ⟨.ok s.span, fun s' _ hspan => by rw [span_run, hspan]⟩

theorem currentKeyword : Stays currentKeyword := fun s => ⟨.ok s.keyword?, fun s' hcurrent _ => by
  rw [currentKeyword_run, TokenStream.keyword?, hcurrent, ← TokenStream.keyword?]⟩

theorem currentSymbol : Stays currentSymbol := fun s => ⟨.ok s.symbol?, fun s' hcurrent _ => by
  rw [currentSymbol_run, TokenStream.symbol?, hcurrent, ← TokenStream.symbol?]⟩

theorem bind {q : Parser α} {f : α → Parser β} (hq : Stays q) (hf : ∀ a, Stays (f a)) :
    Stays (q >>= f) := by
  intro s
  obtain ⟨found, hfound⟩ := hq s
  cases found with
  | error fault =>
    refine ⟨.error fault, fun s' hcurrent hspan => ?_⟩
    rw [EStateM.run_bind, hfound s' hcurrent hspan]
  | ok a =>
    obtain ⟨found', hfound'⟩ := hf a s
    refine ⟨found', fun s' hcurrent hspan => ?_⟩
    rw [bind_of_ok (hfound s' hcurrent hspan), hfound' s' hcurrent hspan]

end Stays

/-! ### The end of the input -/

variable {s : TokenStream}

theorem currentKeyword_of_end (h : s.tokens = []) : currentKeyword.run s = .ok none s := by
  rw [currentKeyword_run, TokenStream.keyword?, TokenStream.current?_eq_none_iff.2 h]

theorem currentSymbol_of_end (h : s.tokens = []) : currentSymbol.run s = .ok none s := by
  rw [currentSymbol_run, TokenStream.symbol?, TokenStream.current?_eq_none_iff.2 h]

theorem comma_of_end (h : s.tokens = []) : comma.run s = .ok false s := by
  rw [comma, bind_of_ok (currentSymbol_of_end h)]
  rfl

end Parser

/-! ### Performance -/

/-- The ceiling behind a round of a loop, which has to rise if another round follows. -/
def Loop.behind (l : Loop) (again : Bool) : Nat :=
  if again then (Site.loop l).rank + 1 else (Site.loop l).rank

namespace Procedure

variable {α β σ : Type} {levels ceiling entry entry' : Nat} {exit exit' : α → Nat}
  {p : Procedure α} {q : Parser α}

/-- How a run of a procedure ends, from a reader on a stream and below a ceiling, where a parser
ends with the given result: the ceiling behind it is as high at least as `exit` says. -/
inductive Performed (levels ceiling : Nat) (exit : α → Nat) (p : Procedure α) (reader : Reader)
    (s : TokenStream) : EStateM.Result Fault TokenStream α → Prop
  | ok {a : α} {s' : TokenStream} {events : List Event} {reader' : Reader} {ceiling' : Nat} :
    p.Runs reader events (.ok a) reader' → reader'.Follows levels s' →
    s.tokens.map some = Event.advances events ++ s'.tokens.map some →
    Falls ceiling events ceiling' → exit a ≤ ceiling' →
    Performed levels ceiling exit p reader s (.ok a s')
  | error {fault : Fault} {s' : TokenStream} {events : List Event} {reader' : Reader}
    {ceiling' : Nat} :
    p.Runs reader events (.error fault) reader' → Event.advances events <+: s.tokens.map some →
    Falls ceiling events ceiling' → Performed levels ceiling exit p reader s (.error fault s')

/-- A procedure performs a parser below any ceiling from `entry` up. -/
def Performs (levels entry : Nat) (exit : α → Nat) (p : Procedure α) (q : Parser α) : Prop :=
  ∀ ⦃reader s ceiling⦄, reader.Follows levels s → entry ≤ ceiling →
    Performed levels ceiling exit p reader s (q.run s)

/-- What is performed behind some events, as part of runs that begin with these. -/
theorem Performed.behind {p' : Procedure α} {reader reader₁ : Reader} {s s₁ : TokenStream}
    {events : List Event} {ceiling₁ : Nat} {result : EStateM.Result Fault TokenStream α}
    (h : Performed levels ceiling₁ exit p reader₁ s₁ result)
    (hfalls : Falls ceiling events ceiling₁)
    (htokens : s.tokens.map some = Event.advances events ++ s₁.tokens.map some)
    (hruns : ∀ {events' answer reader'}, p.Runs reader₁ events' answer reader' →
      p'.Runs reader (events ++ events') answer reader') :
    Performed levels ceiling exit p' reader s result := by
  cases h with
  | ok hrun hfollows htokens' hfalls' hle =>
    refine .ok (hruns hrun) hfollows ?_ (hfalls.append hfalls') hle
    rw [Event.advances_append, List.append_assoc, ← htokens', htokens]
  | error hrun hprefix hfalls' =>
    refine .error (hruns hrun) ?_ (hfalls.append hfalls')
    rw [Event.advances_append, htokens]
    exact (List.prefix_append_right_inj _).2 hprefix

namespace Performs

/-! ### Sequences -/

theorem mono (h : Performs levels entry exit p q) (hentry : entry ≤ entry')
    (hexit : ∀ a, exit' a ≤ exit a) : Performs levels entry' exit' p q := by
  intro reader s ceiling hs hceiling
  have hpq := h hs (Nat.le_trans hentry hceiling)
  generalize q.run s = result at hpq ⊢
  cases hpq with
  | ok hrun hfollows htokens hfalls hle =>
    exact .ok hrun hfollows htokens hfalls (Nat.le_trans (hexit _) hle)
  | error hrun hprefix hfalls => exact .error hrun hprefix hfalls

theorem pure {a : α} (h : exit a ≤ entry) : Performs levels entry exit (pure a) (pure a) :=
  fun _ _ _ hs hceiling => .ok (.answer _ _) hs rfl (.nil _) (Nat.le_trans h hceiling)

/-- The second parts start below the ceilings that the first ones leave. -/
theorem bind {f : α → Procedure β} {g : α → Parser β} {exit' : β → Nat}
    (hp : Performs levels entry exit p q)
    (hf : ∀ a, Performs levels (exit a) exit' (f a) (g a)) :
    Performs levels entry exit' (p >>= f) (q >>= g) := by
  intro reader s ceiling hs hceiling
  have hpq := hp hs hceiling
  rw [EStateM.run_bind]
  generalize q.run s = result at hpq ⊢
  cases hpq with
  | ok hrun hfollows htokens hfalls hle =>
    exact (hf _ hfollows hle).behind hfalls htokens (.bind hrun)
  | error hrun hprefix hfalls => exact .error (.bindFault hrun) hprefix hfalls

theorem map {f : α → β} {exit' : β → Nat} (hp : Performs levels entry exit p q)
    (hf : ∀ a, exit' (f a) ≤ exit a) : Performs levels entry exit' (f <$> p) (f <$> q) := by
  rw [← bind_pure_comp f q]
  exact hp.bind fun a => pure (hf a)

/-! ### One token -/

theorem peek (hq : q.Stays) : Performs levels entry (fun _ => entry) (peek q) q := by
  intro reader s ceiling hs hceiling
  obtain ⟨found, hfound⟩ := hq s
  have hcurrent : reader.view.stream.current? = s.current? :=
    reader.view.current?_stream.trans hs.current?_eq
  have hspan : reader.view.stream.span = s.span := reader.view.span_stream.trans hs.span_eq
  have hrun : (Procedure.peek q).Runs reader [] found reader := by
    refine .look ?_
    rw [hfound _ hcurrent hspan]
    cases found with
    | ok | error => exact .answer _ _
  rw [hfound s rfl rfl]
  cases found with
  | ok a => exact .ok hrun hs rfl (.nil _) hceiling
  | error fault => exact .error hrun (List.nil_prefix) (.nil _)

/-- Where a parser has a fault and no answer, nothing can be said of the ceiling behind it. -/
theorem peek_fault {faultOf : TokenStream → Fault} (hq : q.Stays)
    (h : ∀ s, q.run s = .error (faultOf s) s) :
    Performs levels entry exit (Procedure.peek q) q := by
  intro reader s ceiling hs hceiling
  have hpeek := peek hq hs hceiling
  rw [h] at hpeek ⊢
  cases hpeek with
  | error hrun hprefix hfalls => exact .error hrun hprefix hfalls

theorem throw (fault : Fault) :
    Performs levels entry exit (Procedure.peek (throw fault)) (throw fault) :=
  peek_fault (.throw fault) fun _ => rfl

theorem unexpected (expected : Expectation) :
    Performs levels entry exit (Procedure.peek (Parser.unexpected expected))
      (Parser.unexpected expected) :=
  peek_fault (.unexpected expected) fun _ => rfl

/-- The lexer advances over the current token, which lifts the ceiling to the top. -/
theorem advance : Performs levels entry (fun _ => Site.top) Procedure.advance Parser.advance := by
  intro reader s ceiling hs hceiling
  have hcurrent := peek .current hs hceiling
  rw [Parser.current_run] at hcurrent
  cases hcurrent with | @ok _ _ events reader ceiling hrun hs htokens hfalls hceiling
  refine Performed.behind ?_ hfalls htokens (.bind hrun)
  cases htoken : s.current? with
  | none =>
    rw [EStateM.run, Parser.advance, TokenStream.current?_eq_none_iff.1 htoken]
    exact unexpected .token hs hceiling
  | some token =>
    obtain ⟨first, rest, hfirst⟩ : ∃ first rest, s.tokens = first :: rest := by
      refine List.exists_cons_of_ne_nil fun hnil => ?_
      rw [TokenStream.current?_eq_none_iff.2 hnil] at htoken
      cases htoken
    have hadvances : [reader.lexer.current] ++ s.tail.tokens.map some = s.tokens.map some := by
      rw [hs.lexer.current, TokenStream.tail, hfirst]
      rfl
    rw [Parser.advance_run htoken, ← hs.lexer.rest]
    rw [← hs.lexer.rest] at hadvances
    obtain ⟨token?, l, hl, hfollows⟩ | ⟨fault, l, hl, hstart⟩ :=
      Lexer.advance_start hs.lexer.peeked
    · rw [Parser.start_eq_ok.2 ⟨hfollows.live, rfl⟩]
      exact .ok (.read hl (.answer _ _)) ⟨hfollows, hs.depth⟩ hadvances.symm
        (.advance _ (.nil _)) (Nat.le_refl _)
    · rw [hstart]
      exact .error (.readFault hl) ⟨_, hadvances⟩ (.advance _ (.nil _))

theorem currentKeyword :
    Performs levels entry (fun _ => entry) (Procedure.peek Parser.currentKeyword)
      Parser.currentKeyword := peek .currentKeyword

theorem currentSymbol :
    Performs levels entry (fun _ => entry) (Procedure.peek Parser.currentSymbol)
      Parser.currentSymbol := peek .currentSymbol

theorem expectKeyword (k : Keyword) :
    Performs levels entry (fun _ => Site.top) (Procedure.expectKeyword k)
      (Parser.expectKeyword k) := by
  refine currentKeyword.bind fun found => ?_
  split
  · exact advance
  · exact unexpected _

theorem expectSymbol (symbol : Symbol) :
    Performs levels entry (fun _ => Site.top) (Procedure.expectSymbol symbol)
      (Parser.expectSymbol symbol) := by
  refine currentSymbol.bind fun found => ?_
  split
  · exact advance
  · exact unexpected _

theorem identifier :
    Performs levels entry (fun _ => Site.top) Procedure.identifier Parser.identifier := by
  refine (peek .current).bind fun found => ?_
  match found with
  | some (.identifier name) =>
    exact (peek .span).bind fun span => advance.bind fun _ => pure (Nat.le_refl _)
  | none | some (.keyword _) | some (.symbol _) | some (.integer _) | some (.string _) =>
    exact unexpected _

/-! ### Calls -/

/-- A production is called from above the rank of its site. -/
theorem call {production : Production α} (site : Site) (hsite : production.site = site)
    (hrank : site.rank < entry) (h : Performs levels site.rank exit production.procedure q) :
    Performs levels entry exit (.call production) q := by
  subst hsite
  intro reader s ceiling hs hceiling
  have hfalls : Falls ceiling [.reach production.site reader.view] production.site.rank :=
    .reach _ (Nat.lt_of_lt_of_le hrank hceiling) (.nil _)
  exact (h hs (Nat.le_refl _)).behind hfalls rfl .call

/-- What is a level further down is performed with one level less, and leaves it again. -/
theorem nest (nested : Nested) (h : Performs levels entry exit p q) :
    Performs (levels + 1) entry exit (Procedure.nest nested p) q := by
  intro reader s ceiling hs hceiling
  have hdepth : reader.depth + 1 + levels = maxNesting := by
    rw [← hs.depth]
    omega
  have hlt : reader.view.depth < maxNesting := by
    show reader.depth < maxNesting
    omega
  have hs' : Reader.Follows { reader with depth := reader.depth + 1 } levels s := ⟨hs.lexer, hdepth⟩
  have hpq := h hs' hceiling
  have hnest {events : List Event} {answer : Except Fault α} {reader' : Reader}
      (hrun : Runs (do let a ← p; ascend (return a))
        { reader with depth := reader.depth + 1 } events answer reader') :
      (Procedure.nest nested p).Runs reader events answer reader' := by
    refine .look ?_
    rw [if_pos hlt]
    exact .descend hrun
  generalize q.run s = result at hpq ⊢
  cases hpq with
  | @ok a s' events reader' ceiling' hrun hfollows htokens hfalls hle =>
    have hascend : Runs (do let a ← p; ascend (return a)) { reader with depth := reader.depth + 1 }
        (events ++ []) (.ok a) { reader' with depth := reader'.depth - 1 } :=
      .bind hrun (.ascend (.answer _ _))
    rw [List.append_nil] at hascend
    refine .ok (hnest hascend) ⟨hfollows.lexer, ?_⟩ htokens hfalls hle
    have := hfollows.depth
    show reader'.depth - 1 + (levels + 1) = maxNesting
    omega
  | error hrun hprefix hfalls => exact .error (hnest (.bindFault hrun)) hprefix hfalls

/-- No level is left. -/
theorem nest_zero (nested : Nested) :
    Performs 0 entry exit (Procedure.nest nested p) (Parser.unexpected (.shallower nested)) := by
  intro reader s ceiling hs hceiling
  have hge : ¬ reader.view.depth < maxNesting := by
    have := hs.depth
    show ¬ reader.depth < maxNesting
    omega
  refine (unexpected (.shallower nested) hs hceiling).behind (.nil _) rfl fun hrun => ?_
  refine .look ?_
  rw [if_neg hge]
  exact hrun

/-! ### Repetition -/

/-- Loops whose steps consume something if another step follows, and are done at the end of the
input, where the parser has no round left. -/
theorem loop {l : Loop} {step : σ → Procedure (ForInStep σ)} {step' : σ → Parser (ForInStep σ)}
    (hrank : (Site.loop l).rank < entry)
    (hstep : ∀ state, Performs levels (Site.loop l).rank
      (fun next => l.behind (next matches .yield _)) (step state) (step' state))
    (hidle : ∀ state s, s.tokens = [] → (step' state).run s = .ok (.done state) s) (state : σ) :
    Performs levels entry (fun _ => (Site.loop l).rank) (.loop l step state)
      (Parser.iterate step' state) := by
  suffices ∀ left : List Located, ∀ state reader s ceiling, reader.Follows levels s →
      (Site.loop l).rank < ceiling → s.tokens.length ≤ left.length →
      Performed levels ceiling (fun _ => (Site.loop l).rank) (.loop l step state) reader s
        ((Parser.iterate.rounds step' left state).run s) by
    intro reader s ceiling hs hceiling
    exact this s.tokens state reader s ceiling hs (Nat.lt_of_lt_of_le hrank hceiling)
      (Nat.le_refl _)
  -- The induction is on the rounds that the parser has left: never fewer than tokens.
  intro left
  induction left with
  | nil =>
    intro state reader s ceiling hs hceiling hleft
    have hnext := hstep state hs (Nat.le_refl _)
    rw [hidle state s (List.length_eq_zero_iff.1 (Nat.le_zero.1 hleft))] at hnext
    cases hnext with
    | ok hrun hfollows htokens hfalls hle =>
      exact .ok (.done hrun) hfollows htokens (.reach _ hceiling hfalls) hle
  | cons _ left ih =>
    intro state reader s ceiling hs hceiling hleft
    have hnext := hstep state hs (Nat.le_refl _)
    rw [Parser.iterate.rounds, EStateM.run_bind]
    generalize (step' state).run s = result at hnext ⊢
    cases hnext with
    | error hrun hprefix hfalls => exact .error (.loopFault hrun) hprefix (.reach _ hceiling hfalls)
    | @ok next s₁ events reader₁ ceiling₁ hrun hfollows htokens hfalls hle =>
      cases next with
      | done state' => exact .ok (.done hrun) hfollows htokens (.reach _ hceiling hfalls) hle
      | yield state' =>
        -- The ceiling has risen, so the round has consumed something.
        have hconsumed := List.length_pos_of_ne_nil (hfalls.advances_ne_nil hle)
        have hlength := congrArg List.length htokens
        simp only [List.length_append, List.length_map] at hlength
        rw [List.length_cons] at hleft
        exact (ih state' reader₁ s₁ ceiling₁ hfollows hle (by omega)).behind
          (.reach reader.view hceiling hfalls) htokens (.yield hrun)

theorem many {l : Loop} {item? : Procedure (Option α)} {item?' : Parser (Option α)}
    (hrank : (Site.loop l).rank < entry)
    (hitem : Performs levels (Site.loop l).rank (fun a? => l.behind a?.isSome) item? item?')
    (hidle : ∀ s, s.tokens = [] → item?'.run s = .ok none s) :
    Performs levels entry (fun _ => (Site.loop l).rank) (Procedure.many l item?)
      (Parser.many item?') := by
  refine (loop hrank (fun items => hitem.bind fun a? => ?_) (fun items s hs => ?_) []).bind
    fun items => pure (Nat.le_refl _)
  · cases a? with
    | none | some _ => exact pure (Nat.le_refl _)
  · rw [Parser.bind_of_ok (hidle s hs)]
    rfl

/-- Behind a comma the ceiling is at the top. -/
theorem comma : Performs levels entry (fun more => if more then Site.top else entry)
    Procedure.comma Parser.comma := by
  refine currentSymbol.bind fun found => ?_
  split
  · exact advance.bind fun _ => pure (Nat.le_refl _)
  · exact pure (Nat.le_refl _)

theorem commaSeparated {l : Loop} {behind : Nat} (hentry : entry ≤ Site.top)
    (hrank : (Site.loop l).rank < behind) (hitem : Performs levels entry (fun _ => behind) p q) :
    Performs levels entry (fun _ => (Site.loop l).rank) (Procedure.commaSeparated l p)
      (Parser.commaSeparated q) := by
  refine hitem.bind fun first => (many hrank (comma.bind fun more => ?_) fun s hs => ?_).bind
    fun rest => pure (Nat.le_refl _)
  · cases more with
    | true => exact (hitem.mono hentry fun _ => Nat.le_refl _).bind fun _ => pure hrank
    | false => exact pure (Nat.le_refl _)
  · rw [Parser.bind_of_ok (Parser.comma_of_end hs)]
    rfl

end Performs
end Procedure
end JackLang
