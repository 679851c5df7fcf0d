import JackLang.Compile
import JackLang.Proofs.Labels
import JackLang.Proofs.Operands
import JackLang.Proofs.Parser.Reading
import JackLang.Proofs.TokenStream

/-! Engines that follow parsers. `Engine.Follows` says of an engine and a parser that from a session
they find the same: the same fault, or answers that leave the same tokens, and then the engine keeps
what a postcondition says of the two answers. The pieces that the engine is made of follow those of
the parser, and sequences and repetitions keep it so. What the engine does for itself, noting events
and writing instructions, changes what it keeps and nothing else. -/

namespace JackLang

/-! ### What an engine keeps -/

/-- Every name in a stream has a character. -/
def TokenStream.Named (s : TokenStream) : Prop := ∀ token ∈ s.tokens, token.token ≠ .identifier ""

theorem TokenStream.named_ofLines (lines : List Line) : (ofLines lines).Named := by
  intro token hmem hname
  have hlegible := legible_of_mem_ofLines hmem
  rw [hname] at hlegible
  exact hlegible.isWord.1 rfl

theorem TokenStream.Named.tail {s : TokenStream} (h : s.Named) : s.tail.Named :=
  fun token hmem => h token (List.mem_of_mem_tail hmem)

namespace Ledger

variable (l : Ledger)

/-- More of the trace. -/
def traced (f : Trace.Events → Trace.Events) : Ledger := { l with trace? := l.trace?.map f }

/-- More of the code, and perhaps of the labels. -/
def emitted (f : Emission → Emission) : Ledger := { l with emission := f l.emission }

/-- More of the code. -/
def coded (f : Code → Code) : Ledger := l.emitted fun e => ⟨f e.code, e.labels⟩

/-- The engine notes any token that it consumes, but a name. -/
def consumed : Token → Ledger
  | .identifier _ => l
  | t => l.traced (·.token t)

@[simp] theorem scopes_traced (f : Trace.Events → Trace.Events) :
    (l.traced f).scopes = l.scopes := rfl

@[simp] theorem scopes_emitted (f : Emission → Emission) : (l.emitted f).scopes = l.scopes := rfl

@[simp] theorem scopes_coded (f : Code → Code) : (l.coded f).scopes = l.scopes := rfl

@[simp] theorem consumed_identifier (name : String) : l.consumed (.identifier name) = l := rfl

@[simp] theorem consumed_keyword (k : Keyword) :
    l.consumed (.keyword k) = l.traced (·.keyword k) := rfl

@[simp] theorem consumed_symbol (s : Symbol) : l.consumed (.symbol s) = l.traced (·.symbol s) := rfl

@[simp] theorem consumed_integer (value : Nat) :
    l.consumed (.integer value) = l.traced (·.token (.integer value)) := rfl

@[simp] theorem consumed_string (text : String) :
    l.consumed (.string text) = l.traced (·.token (.string text)) := rfl

theorem traced_id : l.traced (fun events => events) = l := by
  rw [traced, Option.map_id']

@[simp] theorem traced_traced (f g : Trace.Events → Trace.Events) :
    (l.traced f).traced g = l.traced fun events => g (f events) := by
  simp only [traced, Option.map_map]
  rfl

@[simp] theorem emitted_traced (f : Emission → Emission) (g : Trace.Events → Trace.Events) :
    (l.emitted f).traced g = (l.traced g).emitted f := rfl

@[simp] theorem coded_traced (f : Code → Code) (g : Trace.Events → Trace.Events) :
    (l.coded f).traced g = (l.traced g).coded f := rfl

@[simp] theorem coded_coded (f g : Code → Code) :
    (l.coded f).coded g = l.coded fun code => g (f code) := rfl

@[simp] theorem emitted_emitted (f g : Emission → Emission) :
    (l.emitted f).emitted g = l.emitted fun e => g (f e) := rfl

end Ledger

namespace Engine

variable {α β γ δ : Type} {stream stream' : TokenStream} {l : Ledger}

/-! ### Single operations -/

theorem read_of_ok {q : Parser α} {a : α} (h : q.run stream = .ok a stream') :
    (read q).run ⟨stream, l⟩ = .ok a ⟨stream', l⟩ := by
  rw [EStateM.run] at h ⊢
  simp only [read, h]

theorem read_of_error {q : Parser α} {fault : Fault} (h : q.run stream = .error fault stream') :
    (read q).run ⟨stream, l⟩ = .error fault ⟨stream', l⟩ := by
  rw [EStateM.run] at h ⊢
  simp only [read, h]

theorem write_of_fits {instr : Instr} (h : instr.fault? = none) :
    (write instr).run ⟨stream, l⟩ = .ok () ⟨stream, l.coded (·.push instr)⟩ := by
  rw [EStateM.run]
  simp only [write, Code.add, h]
  rfl

/-- Names that are no variables are noted as they are. -/
theorem noteName_of_ne {name : String} {role : Trace.Role} {defined : Bool}
    (hrole : role ≠ .varName) : (noteName name role defined).run ⟨stream, l⟩ =
      .ok () ⟨stream, l.traced (·.add (.identifier name role none defined))⟩ := by
  obtain ⟨scopes, trace?, emission⟩ := l
  cases trace? with
  | none => rfl
  | some events =>
    cases role with
    | varName => exact absurd rfl hrole
    | className | subroutineName => rfl

/-- A variable is noted with its kind and index. -/
theorem noteName_of_find? {v : Variable} {defined : Bool}
    (hfind : l.scopes.find? v.name = some v) : (noteName v.name .varName defined).run ⟨stream, l⟩ =
      .ok () ⟨stream, l.traced (·.varName v defined)⟩ := by
  obtain ⟨scopes, trace?, emission⟩ := l
  cases trace? with
  | none => rfl
  | some events =>
    rw [EStateM.run]
    simp only [noteName, hfind]
    rfl

/-! ### Following -/

/-- The results of a parser and an engine that find the same. -/
inductive Ends (post : α → β → Ledger → Prop) :
    EStateM.Result Fault TokenStream α → EStateM.Result Fault Session β → Prop
  | ok {a : α} {b : β} {stream : TokenStream} {l : Ledger} : stream.Named → post a b l →
    Ends post (.ok a stream) (.ok b ⟨stream, l⟩)
  | error {fault : Fault} {stream : TokenStream} {l : Ledger} :
    Ends post (.error fault stream) (.error fault ⟨stream, l⟩)

/-- From a session an engine finds what a parser finds in the tokens, and keeps what `post` says. -/
def Follows (s : Session) (e : Engine β) (q : Parser α) (post : α → β → Ledger → Prop) : Prop :=
  s.stream.Named → Ends post (q.run s.stream) (e.run s)

namespace Follows

variable {s : Session} {e : Engine β} {q : Parser α} {post : α → β → Ledger → Prop}
  {post' : γ → δ → Ledger → Prop}

/-! ### Sequences -/

theorem mono {post' : α → β → Ledger → Prop} (h : Follows s e q post)
    (hpost : ∀ a b l, post a b l → post' a b l) : Follows s e q post' := by
  intro hs
  have hends := h hs
  generalize q.run s.stream = found at hends ⊢
  generalize e.run s = found' at hends ⊢
  cases hends with
  | ok hs h => exact .ok hs (hpost _ _ _ h)
  | error => exact .error

theorem pure {a : α} {b : β} (h : post a b s.ledger) : Follows s (pure b) (pure a) post :=
  fun hs => .ok hs h

theorem throw (fault : Fault) : Follows s (throw fault : Engine β) (throw fault : Parser α) post :=
  fun _ => .error

theorem unexpected (expected : Expectation) :
    Follows s (read (Parser.unexpected expected) : Engine β) (Parser.unexpected expected) post :=
  fun _ => .error

theorem bind {f : β → Engine δ} {g : α → Parser γ} (h : Follows s e q post)
    (hf : ∀ a b stream l, post a b l → Follows ⟨stream, l⟩ (f b) (g a) post') :
    Follows s (e >>= f) (q >>= g) post' := by
  intro hs
  have hends := h hs
  rw [EStateM.run_bind, EStateM.run_bind]
  generalize q.run s.stream = found at hends ⊢
  generalize e.run s = found' at hends ⊢
  cases hends with
  | ok hs hpost => exact hf _ _ _ _ hpost hs
  | error => exact .error

/-- What the engine keeps is determined by what the parser answers. -/
theorem next {effect : α → Ledger} {f : β → Engine δ} {g : α → Parser γ}
    (h : Follows s e q fun a _ l => l = effect a)
    (hf : ∀ a b stream, Follows ⟨stream, effect a⟩ (f b) (g a) post') :
    Follows s (e >>= f) (q >>= g) post' := by
  refine h.bind ?_
  rintro a b stream _ rfl
  exact hf a b stream

/-- The engine goes on for itself where the parser is done. -/
theorem seq {f : β → Engine δ} {post' : α → δ → Ledger → Prop} (h : Follows s e q post)
    (hf : ∀ a b stream l, post a b l → Follows ⟨stream, l⟩ (f b) (Pure.pure a : Parser α) post') :
    Follows s (e >>= f) q post' := by
  rw [← bind_pure q]
  exact h.bind hf

/-- The engine does something for itself first. -/
theorem of_run {f : β → Engine δ} {g : Parser γ} {b : β} {l' : Ledger}
    (he : e.run ⟨stream, l⟩ = .ok b ⟨stream, l'⟩) (hf : Follows ⟨stream, l'⟩ (f b) g post') :
    Follows ⟨stream, l⟩ (e >>= f) g post' := by
  intro hs
  rw [EStateM.run_bind, he]
  exact hf hs

/-- Both look at the tokens. -/
theorem peek {f : α → Engine δ} {g : α → Parser γ} {a : α} (hq : q.run stream = .ok a stream)
    (hf : Follows ⟨stream, l⟩ (f a) (g a) post') :
    Follows ⟨stream, l⟩ (read q >>= f) (q >>= g) post' := by
  intro hs
  rw [EStateM.run_bind, EStateM.run_bind, hq, read_of_ok hq]
  exact hf hs

/-! ### What the engine does for itself -/

variable {f : Unit → Engine δ} {g : Parser γ}

theorem note {event : Trace.Event}
    (hf : Follows ⟨stream, l.traced (·.add event)⟩ (f ()) g post') :
    Follows ⟨stream, l⟩ (note event >>= f) g post' := of_run rfl hf

theorem noteName {name : String} {role : Trace.Role} {defined : Bool} (hrole : role ≠ .varName)
    (hf : Follows ⟨stream, l.traced (·.add (.identifier name role none defined))⟩ (f ()) g post') :
    Follows ⟨stream, l⟩ (noteName name role defined >>= f) g post' :=
  of_run (noteName_of_ne hrole) hf

theorem noteVariable {name : String} {v : Variable} {defined : Bool} (hname : v.name = name)
    (hfind : l.scopes.find? name = some v)
    (hf : Follows ⟨stream, l.traced (·.varName v defined)⟩ (f ()) g post') :
    Follows ⟨stream, l⟩ (Engine.noteName name .varName defined >>= f) g post' := by
  subst hname
  exact of_run (noteName_of_find? hfind) hf

theorem write {instr : Instr} (hinstr : instr.fault? = none)
    (hf : Follows ⟨stream, l.coded (·.push instr)⟩ (f ()) g post') :
    Follows ⟨stream, l⟩ (write instr >>= f) g post' := of_run (write_of_fits hinstr) hf

/-- The engine ends with something that it does for itself. -/
theorem note_pure {event : Trace.Event} {a : α} {post : α → Unit → Ledger → Prop}
    (h : post a () (l.traced (·.add event))) :
    Follows ⟨stream, l⟩ (Engine.note event) (Pure.pure a) post := by
  rw [← bind_pure (Engine.note event)]
  exact note (pure h)

theorem write_pure {instr : Instr} {a : α} {post : α → Unit → Ledger → Prop}
    (hinstr : instr.fault? = none) (h : post a () (l.coded (·.push instr))) :
    Follows ⟨stream, l⟩ (Engine.write instr) (Pure.pure a) post := by
  rw [← bind_pure (Engine.write instr)]
  exact write hinstr (pure h)

/-! ### One token -/

/-- Both read, and the names that are left have characters. -/
theorem reading {q : Parser α}
    (hq : ∀ {a stream'}, stream.Named → q.run stream = .ok a stream' → stream'.Named) :
    Follows ⟨stream, l⟩ (read q) q fun _ _ l' => l' = l := by
  intro hs
  cases hrun : q.run stream with
  | ok a stream' =>
    rw [read_of_ok hrun]
    exact .ok (hq hs hrun) rfl
  | error fault stream' =>
    rw [read_of_error hrun]
    exact .error

theorem start : Follows ⟨stream, l⟩ (read Parser.start) Parser.start fun _ _ l' => l' = l :=
  reading fun hs hrun => (Parser.start_eq_ok.1 hrun).2 ▸ hs

theorem consume {t : Token} (ht : stream.current? = some t) :
    Follows ⟨stream, l⟩ (read Parser.advance) Parser.advance fun _ _ l' => l' = l := by
  refine reading fun hs hrun => ?_
  rw [Parser.advance_run ht] at hrun
  exact (Parser.start_eq_ok.1 hrun).2 ▸ hs.tail

theorem advance {t : Token} (ht : stream.current? = some t) :
    Follows ⟨stream, l⟩ Engine.advance Parser.advance fun _ _ l' => l' = l.consumed t := by
  have hcurrent : (read Parser.current).run ⟨stream, l⟩ = .ok (some t) ⟨stream, l⟩ :=
    ht ▸ read_of_ok Parser.current_run
  rw [Engine.advance]
  refine of_run hcurrent ?_
  cases t with
  | identifier name => exact consume ht
  | keyword | symbol | integer | string => exact note (consume ht)

theorem expectKeyword (k : Keyword) :
    Follows ⟨stream, l⟩ (Engine.expectKeyword k) (Parser.expectKeyword k) fun _ _ l' =>
      l' = l.traced (·.keyword k) := by
  refine peek Parser.currentKeyword_run ?_
  split
  · next hk => exact advance (TokenStream.keyword?_eq_some_iff.1 hk)
  · exact unexpected _

theorem expectSymbol (symbol : Symbol) :
    Follows ⟨stream, l⟩ (Engine.expectSymbol symbol) (Parser.expectSymbol symbol) fun _ _ l' =>
      l' = l.traced (·.symbol symbol) := by
  refine peek Parser.currentSymbol_run ?_
  split
  · next hsymbol => exact advance (TokenStream.symbol?_eq_some_iff.1 hsymbol)
  · exact unexpected _

/-- A keyword that has been seen is as expected. -/
theorem advanceKeyword {k : Keyword} (hk : stream.keyword? = some k) :
    Follows ⟨stream, l⟩ (Engine.expectKeyword k) Parser.advance fun _ _ l' =>
      l' = l.traced (·.keyword k) := by
  have hkeyword : (read Parser.currentKeyword).run ⟨stream, l⟩ = .ok (some k) ⟨stream, l⟩ :=
    hk ▸ read_of_ok Parser.currentKeyword_run
  rw [Engine.expectKeyword]
  refine of_run hkeyword ?_
  rw [if_pos rfl]
  exact advance (TokenStream.keyword?_eq_some_iff.1 hk)

/-- A name has a character, and the engine does not note it by itself. -/
theorem identifier :
    Follows ⟨stream, l⟩ Engine.identifier Parser.identifier fun named named' l' =>
      named' = named ∧ named.1 ≠ "" ∧ l' = l := by
  intro hs
  refine peek Parser.current_run ?_ hs
  cases ht : stream.current? with
  | none => exact unexpected _
  | some t =>
    cases t with
    | identifier name =>
      refine peek Parser.span_run ((advance ht).next fun _ _ _ => pure ⟨rfl, ?_, rfl⟩)
      rintro rfl
      obtain ⟨token, htoken, hname⟩ := Option.map_eq_some_iff.1 ht
      exact hs token (List.mem_of_head? htoken) hname
    | keyword | symbol | integer | string => exact unexpected _

theorem comma :
    Follows ⟨stream, l⟩ Engine.comma Parser.comma fun more more' l' =>
      more' = more ∧ l' = if more then l.traced (·.symbol .comma) else l := by
  refine peek Parser.currentSymbol_run ?_
  split
  · next hsymbol =>
    refine (advance (TokenStream.symbol?_eq_some_iff.1 hsymbol)).next fun _ _ _ => pure ?_
    exact ⟨rfl, rfl⟩
  · exact pure ⟨rfl, rfl⟩

/-! ### Repetition -/

section iterate

variable {σ τ : Type}

/-- Both are done or both go on, and something is kept. -/
def BothStep (inv : σ → τ → Ledger → Prop) : ForInStep σ → ForInStep τ → Ledger → Prop
  | .done a, .done b, l => inv a b l
  | .yield a, .yield b, l => inv a b l
  | _, _, _ => False

/-- What every step keeps holds at the end of a repetition. -/
theorem iterate {inv : σ → τ → Ledger → Prop} {step : τ → Engine (ForInStep τ)}
    {step' : σ → Parser (ForInStep σ)}
    (hstep : ∀ a b stream l, inv a b l →
      Follows ⟨stream, l⟩ (step b) (step' a) (BothStep inv)) {a : σ} {b : τ} (h : inv a b l) :
    Follows ⟨stream, l⟩ (Engine.iterate step b) (Parser.iterate step' a) inv := by
  suffices ∀ left : List Located, ∀ a b stream l, inv a b l →
      Follows ⟨stream, l⟩ (Engine.iterate.rounds step left b) (Parser.iterate.rounds step' left a)
        inv from this stream.tokens a b stream l h
  intro left
  induction left with
  | nil => exact fun a b stream l h => pure h
  | cons _ left ih =>
    intro a b stream l h
    refine (hstep a b stream l h).bind fun next next' stream l hnext => ?_
    cases next with
    | done a =>
      cases next' with
      | done b => exact pure hnext
      | yield b => cases hnext
    | yield a =>
      cases next' with
      | done b => cases hnext
      | yield b => exact ih a b stream l hnext

/-- A step for each item, and one that finds none. -/
theorem manySteps {item? : Parser (Option α)} {step : τ → Engine (ForInStep τ)} {state : τ}
    (inv : List α → τ → Ledger → Prop)
    (hstep : ∀ items state stream l, inv items state l →
      Follows ⟨stream, l⟩ (step state) item? fun item? next l' =>
        match item?, next with
        | some item, .yield state => inv (items ++ [item]) state l'
        | none, .done state => inv items state l'
        | _, _ => False) (h : inv [] state l) :
    Follows ⟨stream, l⟩ (Engine.iterate step state) (Parser.many item?) inv := by
  rw [← bind_pure (Engine.iterate step state), Parser.many]
  refine .bind ?_ fun items state stream l (h : inv items.reverse state l) => pure h
  refine iterate (fun items state stream l h => ?_) h
  rw [← bind_pure (step state)]
  refine (hstep items.reverse state stream l h).bind fun item? next stream l hnext => ?_
  cases item? with
  | none =>
    cases next with
    | done state => exact pure hnext
    | yield state => cases hnext
  | some item =>
    cases next with
    | done state => cases hnext
    | yield state =>
      have hnext : inv (items.reverse ++ [item]) state l := hnext
      rw [← List.reverse_cons] at hnext
      exact pure hnext

/-- A round for each item. What the engine keeps behind some items is a function of these. -/
theorem many {round : Engine Bool} {item? : Parser (Option α)} (effect : List α → Ledger)
    (hl : effect [] = l) (hround : ∀ items stream,
      Follows ⟨stream, effect items⟩ round item? fun item? again l' =>
        again = item?.isSome ∧ l' = effect (items ++ item?.toList)) :
    Follows ⟨stream, l⟩ (repeatWhile round) (Parser.many item?) fun items _ l' =>
      l' = effect items := by
  refine manySteps (fun items _ l => l = effect items) (fun items _ stream l h => ?_) hl.symm
  subst h
  refine (hround items stream).seq fun item? again stream l h => ?_
  obtain ⟨rfl, rfl⟩ := h
  cases item? with
  | none => exact pure (congrArg effect (List.append_nil _))
  | some item => exact pure rfl

end iterate

end Follows
end Engine
end JackLang
