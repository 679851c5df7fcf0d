import JackLang.Proofs.Parser.Completeness
import JackLang.Proofs.Prediction.Basic
import JackLang.Proofs.TokenStream

/-! Terms and expressions are parsed predictively. A name at the start of a term is a variable, an
array or the first name of a call; the token behind the name tells, and with it the part that the
name plays. What goes wrong inside a subroutine for another reason than the grammar is a constant
that is too large, too many levels, or a name or the current object where there is none (`Misuse`). -/

namespace JackLang

namespace Parser

open TokenStream Syntax
open scoped Computability

/-! ### Languages -/

/-- An operator and its right operand. -/
def operations : Language Leaf :=
  wordsOf fun p : Operator × Syntax.Term => .symbol p.1.symbol :: p.2.leaves

def terms : Language Leaf := wordsOf Term.leaves

def expressions : Language Leaf := wordsOf Expression.leaves

/-- What is written between the parentheses of a call. -/
def argumentLists : Language Leaf := wordsOf Expression.leavesAll

/-- The rest of a call behind its first name. -/
def callTails : Language Leaf :=
  between .openParen .closeParen argumentLists +
    word [.symbol .dot] * (names .plain * between .openParen .closeParen argumentLists)

theorem exists_mem_arguments : ∃ us, us ∈ between .openParen .closeParen argumentLists :=
  ⟨_, mem_between_iff.2 ⟨[], ⟨[], rfl⟩, rfl⟩⟩

theorem exists_mem_callTails : ∃ us, us ∈ callTails := exists_mem_arguments.imp fun _ => .inl

theorem expressions_eq : expressions = terms * operations∗ := by
  have hrest (rest : List (Operator × Syntax.Term)) : Expression.leavesRest rest =
      rest.flatMap fun p => .symbol p.1.symbol :: p.2.leaves := by
    induction rest with
    | nil => rfl
    | cons p rest ih => simp [Expression.leavesRest, ih]
  rw [terms, operations, kstar_wordsOf, wordsOf_mul_wordsOf]
  refine Set.ext fun us => ⟨?_, ?_⟩
  · rintro ⟨⟨first, rest⟩, rfl⟩
    exact ⟨(first, rest), by rw [Expression.leaves, hrest]⟩
  · rintro ⟨⟨first, rest⟩, rfl⟩
    exact ⟨.mk first rest, by rw [Expression.leaves, hrest]⟩

theorem argumentLists_eq : argumentLists = 1 + listed expressions := by
  have hmore (es : List Syntax.Expression) : Expression.leavesMore es =
      (es.map Expression.leaves).flatMap (.symbol .comma :: ·) := by
    induction es with
    | nil => rfl
    | cons e es ih => simp [Expression.leavesMore, ih]
  have hall (es : List Syntax.Expression) :
      Expression.leavesAll es = separated (es.map Expression.leaves) := by
    cases es with
    | nil => rfl
    | cons e es => rw [Expression.leavesAll, hmore, List.map_cons, separated]
  rw [expressions, one_add_listed_wordsOf, argumentLists, funext hall]

theorem this_mem : [.keyword .this] ∈ expressions := ⟨.mk .this [], rfl⟩

/-- A call begins with a name, which may be any. -/
theorem exists_callTail (qualifier : Option String) (subroutine : String)
    (arguments : List Syntax.Expression) : ∃ name, ∃ us ∈ callTails,
      callLeaves subroutine qualifier ++
        enclosed .openParen .closeParen (Expression.leavesAll arguments) = .name .called name :: us := by
  have harguments : enclosed .openParen .closeParen (Expression.leavesAll arguments) ∈
      between .openParen .closeParen argumentLists := mem_between_iff.2 ⟨_, ⟨arguments, rfl⟩, rfl⟩
  cases qualifier with
  | none => exact ⟨subroutine, _, .inl harguments, rfl⟩
  | some qualifier =>
    refine ⟨qualifier, _, .inr ?_, rfl⟩
    exact mem_word_mul_iff.2 ⟨_, mem_names_mul_iff.2 ⟨subroutine, _, harguments, rfl⟩, rfl⟩

theorem exists_call (name : String) {us : List Leaf} (hus : us ∈ callTails) :
    ∃ qualifier subroutine arguments, callLeaves subroutine qualifier ++
      enclosed .openParen .closeParen (Expression.leavesAll arguments) = .name .called name :: us := by
  rcases hus with hus | hus
  · obtain ⟨_, ⟨arguments, rfl⟩, rfl⟩ := mem_between_iff.1 hus
    exact ⟨none, name, arguments, rfl⟩
  · obtain ⟨_, hnames, rfl⟩ := mem_word_mul_iff.1 hus
    obtain ⟨subroutine, _, hcall, rfl⟩ := mem_names_mul_iff.1 hnames
    obtain ⟨_, ⟨arguments, rfl⟩, rfl⟩ := mem_between_iff.1 hcall
    exact ⟨some name, subroutine, arguments, rfl⟩

/-! ### Faults inside a subroutine -/

/-- What is at fault inside a subroutine where the grammar is kept. -/
inductive Misuse (origin : TokenStream) (cx : Context) : Blame
  | lexical {fault : Fault} {h : List Leaf} {token : Located} : fault.Lexical →
    token ∈ origin.tokens → fault.report.span? = some token.span → Misuse origin cx fault h
  | nested {nested : Nested} {s : TokenStream} {h : List Leaf} : origin.Reads (texts h) s →
    Misuse origin cx (.unexpected s.span (.shallower nested) s.current?) h
  | assigned {name : String} {span : Span} {h : List Leaf} :
    origin.tokens[h.length]? = some ⟨.identifier name, span⟩ → cx.scopes.find? name = none →
    Misuse origin cx (.undefined name span) (h ++ [.name .assigned name])
  /-- A variable, which is not the first name of a call. -/
  | read {name : String} {span : Span} {h : List Leaf} :
    origin.tokens[h.length]? = some ⟨.identifier name, span⟩ → cx.scopes.find? name = none →
    origin.tokens[h.length + 1]?.map (·.token) ≠ some (.symbol .openParen) →
    origin.tokens[h.length + 1]?.map (·.token) ≠ some (.symbol .dot) →
    Misuse origin cx (.undefined name span) (h ++ [.name .read name])
  | this {span : Span} {h : List Leaf} :
    origin.tokens[h.length]? = some ⟨.keyword .this, span⟩ → cx.kind = .function →
    Misuse origin cx (.undefined "this" span) (h ++ [.keyword .this])
  /-- A subroutine of the own class, which is called on the current object. -/
  | called {name : String} {span : Span} {h : List Leaf} :
    origin.tokens[h.length]? = some ⟨.identifier name, span⟩ →
    origin.tokens[h.length + 1]?.map (·.token) = some (.symbol .openParen) → cx.kind = .function →
    Misuse origin cx (.undefined "this" span) (h ++ [.name .called name])

variable {α : Type} {origin : TokenStream} {cx : Context} {B : Blame} {L : Language Leaf}
  {Follow : Option Token → Prop} {Q : α → List Leaf → Prop} {h : List Leaf} {s : TokenStream}
  {name : String} {span : Span}

namespace Predicts

theorem resolve_bind {f : Variable → Parser α} (hL : ∃ us, us ∈ L)
    (hB : cx.scopes.find? name = none → B (.undefined name span) h)
    (hf : ∀ v, Predicts origin B L Follow Q (f v) h s) :
    Predicts origin B L Follow Q (cx.resolve name span >>= f) h s := by
  rw [Context.resolve]
  cases hfind : cx.scopes.find? name with
  | none => exact .blame rfl hL (hB hfind)
  | some v => exact .look rfl (hf v)

theorem receiver_bind {f : Receiver → Parser α} (hL : ∃ us, us ∈ L)
    (hB : cx.kind = .function → B (.undefined "this" span) h)
    (hf : ∀ receiver, Predicts origin B L Follow Q (f receiver) h s) :
    Predicts origin B L Follow Q (cx.receiver span >>= f) h s := by
  rw [Context.receiver]
  cases hkind : cx.kind with
  | constructor | method => exact .look rfl (hf _)
  | function => exact .blame rfl hL (hB hkind)

theorem checkString_bind {f : Unit → Parser α} {text : String} (hL : ∃ us, us ∈ L)
    (hB : ∀ fault : Fault, fault.Lexical → fault.report.span? = some span → B fault h)
    (hf : Predicts origin B L Follow Q (f ()) h s) :
    Predicts origin B L Follow Q (checkString text span >>= f) h s := by
  rw [checkString]
  split
  · exact .blame rfl hL (hB _ (.stringTooLong span) rfl)
  · split
    · exact .blame rfl hL (hB _ (.characterTooLarge span _) rfl)
    · exact .look rfl hf

end Predicts

/-! ### Expressions over their terms -/

theorem separates_operations : Separates operations EndsExpression EndsTerm where
  starts us hus := by
    obtain ⟨p, rfl⟩ := hus
    exact ⟨_, _, rfl, endsTerm_operator p.1⟩
  follow _ h := h.1

theorem expressionOf_predicts {term : Parser Term}
    (hterm : ∀ h s, Predicts origin B terms EndsTerm Unknown term h s) :
    Predicts origin B expressions EndsExpression Unknown (expressionOf term) h s := by
  rw [expressions_eq]
  refine .bind ⟨[], Language.nil_mem_kstar _⟩ separates_operations.followItem (hterm h s)
    fun first ls s₁ _ _ _ => ?_
  refine .bind_pure (.many (P := fun _ => True) separates_operations (fun h s _ => ?_) trivial)
    fun _ _ _ _ => trivial
  cases hop : s.symbol?.bind Operator.ofSymbol? with
  | none =>
    refine .inr ⟨?_, ?_⟩
    · rintro ⟨_, ⟨p, rfl⟩, hstart⟩
      rw [symbol?_eq_some_iff.2 hstart.symm, Option.bind_some,
        Operator.ofSymbol?_eq_some_iff.2 rfl] at hop
      cases hop
    · rw [bind_of_ok operator?_run, hop]
      rfl
  | some op =>
    obtain ⟨symbol, hsymbol, hop'⟩ := Option.bind_eq_some_iff.1 hop
    obtain rfl := Operator.ofSymbol?_eq_some_iff.1 hop'
    have hcurrent := symbol?_eq_some_iff.1 hsymbol
    refine .inl ⟨fun hends => hends.2 op hcurrent, .look operator?_run ?_⟩
    rw [hop]
    refine .advance_bind (.symbol op.symbol) terms hcurrent ?_ ?_ ?_
    · rintro _ ⟨t, rfl⟩
      exact ⟨(op, t), rfl⟩
    · rintro _ ⟨⟨op', t⟩, rfl⟩ r _ hbegins
      rw [texts_cons, List.cons_append, begins_cons_iff] at hbegins
      exact ⟨_, ⟨t, rfl⟩, congrArg (· :: _) hbegins.1⟩
    · exact .bind_pure (hterm _ _) fun t _ _ _ => ⟨_, rfl, trivial⟩

section calls

variable {expression : Parser Expression}
  (hexpression : ∀ h s, Predicts origin B expressions EndsExpression Unknown expression h s)

include hexpression

theorem arguments_predicts : Predicts origin B argumentLists (· = some (.symbol .closeParen)) Unknown
    (arguments expression) h s := by
  rw [argumentLists_eq, arguments]
  refine .look currentSymbol_run ?_
  split
  · next hclose =>
    refine .left (fun us hus r _ hstart => ?_) (.pure trivial)
    obtain ⟨_, ⟨e, rfl⟩, us', -, rfl⟩ := Language.mem_mul.1 hus
    obtain ⟨t, ts, hts, ht, -⟩ := e.exists_tokens_eq_cons
    rw [texts_append, Expression.texts_leaves, hts, symbol?_eq_some_iff.1 hclose] at hstart
    exact ht (Option.some.inj hstart)
  · next hclose =>
    refine .right (fun us hus r hfollow hstart => ?_) ?_
    · rw [(Language.mem_one us).1 hus, texts_nil, List.nil_append, hfollow] at hstart
      exact hclose (symbol?_eq_some_iff.2 hstart.symm)
    · refine .commaSeparated (endsExpression_of_mem (by simp)) ?_ (by simp) hexpression
      rintro _ rfl
      exact endsExpression_of_mem (by simp)

end calls

section names

variable {expression : Parser Expression}
  (hexpression : ∀ h s,
    Predicts origin (Misuse origin cx) expressions EndsExpression Unknown expression h s)

include hexpression

theorem callOf_predicts (hname : origin.tokens[h.length]? = some ⟨.identifier name, span⟩) :
    Predicts origin (Misuse origin cx) callTails Anything Unknown (callOf cx expression name span)
      (h ++ [.name .called name]) s := by
  refine .of_at fun hat => .look currentSymbol_run ?_
  split
  · next hopen =>
    have hcurrent := symbol?_eq_some_iff.1 hopen
    refine .left (fun us hus r _ hstart => ?_) ?_
    · obtain ⟨vs, -, rfl⟩ := mem_word_mul_iff.1 hus
      cases hstart.trans hcurrent
    refine .receiver_bind exists_mem_arguments
      (.called hname ((getElem?_succ_of_at hat).trans hcurrent)) fun receiver => ?_
    refine .advance_word_bind (.symbol .openParen) hcurrent ?_
    exact .closed (arguments_predicts hexpression) rfl fun _ _ _ _ => trivial
  · next hdot =>
    have hcurrent := symbol?_eq_some_iff.1 hdot
    refine .right (fun us hus r _ hstart => ?_) ?_
    · obtain ⟨vs, -, rfl⟩ := mem_word_mul_iff.1 hus
      cases hstart.trans hcurrent
    refine .advance_word_bind (.symbol .dot) hcurrent ?_
    refine .bind exists_mem_arguments (fun _ _ _ _ => trivial) (.identifier .plain)
      fun _ ls s₁ _ _ _ => ?_
    refine .expectSymbol_bind ⟨_, Language.append_mem_mul ⟨[], rfl⟩ rfl⟩ fun s₂ _ => ?_
    exact .closed (arguments_predicts hexpression) rfl fun _ _ _ _ => trivial
  · next hparen hdot =>
    refine .unexpected exists_mem_callTails nofun fun us hus r _ hstart => ?_
    rcases (Language.mem_add _ _ _).1 hus with hus | hus
    · obtain ⟨vs, -, rfl⟩ := mem_word_mul_iff.1 hus
      exact hparen (symbol?_eq_some_iff.2 hstart.symm)
    · obtain ⟨vs, -, rfl⟩ := mem_word_mul_iff.1 hus
      exact hdot (symbol?_eq_some_iff.2 hstart.symm)

/-- What may stand behind a name at the start of a term. -/
def nameTails : Language Leaf :=
  1 + (between .openBracket .closeBracket expressions + callTails)

omit hexpression in
/-- A term that begins with a name goes on as its tail. -/
theorem exists_nameTail {us : List Leaf} {r : List Token} {next : Option Token} (hus : us ∈ terms)
    (hbegins : Begins (texts us ++ r) [.identifier name] next) :
    ∃ vs ∈ nameTails, texts us = .identifier name :: texts vs ∧ (texts vs ++ r).head? = next := by
  obtain ⟨t, rfl⟩ := hus
  cases t with
  | «variable» name' =>
    obtain ⟨hname, hnext⟩ := begins_cons_iff.1 hbegins
    exact ⟨[], .inl rfl, congrArg (· :: []) hname, hnext⟩
  | element array index =>
    obtain ⟨hname, hnext⟩ := begins_cons_iff.1 hbegins
    exact ⟨_, .inr (.inl (mem_between_iff.2 ⟨_, ⟨index, rfl⟩, rfl⟩)), congrArg (· :: _) hname, hnext⟩
  | call qualifier subroutine arguments =>
    obtain ⟨name', us, hus, heq⟩ := exists_callTail qualifier subroutine arguments
    rw [Term.leaves, heq] at hbegins ⊢
    obtain ⟨hname, hnext⟩ := begins_cons_iff.1 hbegins
    exact ⟨us, .inr (.inr hus), congrArg (· :: _) hname, hnext⟩
  | constant constant => cases constant <;> cases (begins_cons_iff.1 hbegins).1
  | unary op operand => cases op <;> cases (begins_cons_iff.1 hbegins).1
  | _ => cases (begins_cons_iff.1 hbegins).1

omit hexpression in
/-- The tails of a name begin in different ways. -/
theorem mem_nameTails_iff {vs : List Leaf} (hvs : vs ∈ nameTails) {r : List Token}
    (hfollow : EndsTerm r.head?) :
    ((texts vs ++ r).head? = some (.symbol .openBracket) ∧
      vs ∈ between .openBracket .closeBracket expressions) ∨
    (((texts vs ++ r).head? = some (.symbol .openParen) ∨
      (texts vs ++ r).head? = some (.symbol .dot)) ∧ vs ∈ callTails) ∨
    (EndsTerm (texts vs ++ r).head? ∧ vs = []) := by
  rcases hvs with hvs | hvs | hvs
  · obtain rfl := (Language.mem_one vs).1 hvs
    exact .inr (.inr ⟨hfollow, rfl⟩)
  · obtain ⟨vs', -, rfl⟩ := mem_between_iff.1 hvs
    exact .inl ⟨rfl, hvs⟩
  · refine .inr (.inl ⟨?_, hvs⟩)
    rcases hvs with hvs | hvs
    · obtain ⟨vs', -, rfl⟩ := mem_between_iff.1 hvs
      exact .inl rfl
    · obtain ⟨vs', -, rfl⟩ := mem_word_mul_iff.1 hvs
      exact .inr rfl

theorem element_predicts (hname : s.current? = some (.identifier name))
    (hbracket : s.tail.current? = some (.symbol .openBracket)) :
    Predicts origin (Misuse origin cx) terms EndsTerm Unknown
      (advance >>= fun _ => named cx expression name s.span) h s := by
  refine .of_at fun hat => ?_
  refine .advance_bind (.name .read name) (between .openBracket .closeBracket expressions) hname
    ?_ ?_ ?_
  · intro us hus
    obtain ⟨_, ⟨e, rfl⟩, rfl⟩ := mem_between_iff.1 hus
    exact ⟨.element name e, rfl⟩
  · intro us hus r hfollow hbegins
    obtain ⟨vs, hvs, heq, hnext⟩ := exists_nameTail hus hbegins
    refine ⟨vs, ?_, heq⟩
    rcases mem_nameTails_iff hvs hfollow with ⟨-, hvs⟩ | ⟨hother, -⟩ | ⟨hother, -⟩
    · exact hvs
    · simp [hnext, hbracket] at hother
    · exact absurd (hnext.trans hbracket) hother.1
  · refine .of_at fun hat' => .look currentSymbol_run ?_
    rw [symbol?_eq_some_iff.2 hbracket]
    refine .resolve_bind ⟨_, mem_between_iff.2 ⟨_, this_mem, rfl⟩⟩ ?_ fun v => ?_
    · intro hfind
      refine .read (getElem?_of_at hat hname) hfind ?_ ?_ <;>
        simp [getElem?_succ_of_at hat', hbracket]
    · refine .advance_word_bind (.symbol .openBracket) hbracket ?_
      exact .closed (hexpression _ _) (endsExpression_of_mem (by simp)) fun _ _ _ _ => trivial

theorem call_predicts (hname : s.current? = some (.identifier name))
    (hcall : s.tail.current? = some (.symbol .openParen) ∨ s.tail.current? = some (.symbol .dot)) :
    Predicts origin (Misuse origin cx) terms EndsTerm Unknown
      (advance >>= fun _ => named cx expression name s.span) h s := by
  refine .of_at fun hat => ?_
  refine .advance_bind (.name .called name) callTails hname ?_ ?_ ?_
  · intro us hus
    obtain ⟨qualifier, subroutine, arguments, heq⟩ := exists_call name hus
    exact ⟨.call qualifier subroutine arguments, heq⟩
  · intro us hus r hfollow hbegins
    obtain ⟨vs, hvs, heq, hnext⟩ := exists_nameTail hus hbegins
    refine ⟨vs, ?_, heq⟩
    rcases mem_nameTails_iff hvs hfollow with ⟨hother, -⟩ | ⟨-, hvs⟩ | ⟨hother, -⟩
    · simp [← hnext, hother] at hcall
    · exact hvs
    · rw [hnext] at hother
      exact absurd hcall (not_or.2 hother.2)
  · refine .look currentSymbol_run ?_
    have hcallOf := callOf_predicts (s := s.tail) hexpression (getElem?_of_at hat hname)
    rcases hcall with hcall | hcall
    all_goals
      rw [symbol?_eq_some_iff.2 hcall]
      exact .bind_pure hcallOf.followed fun _ _ _ _ => trivial

omit hexpression in
theorem variable_predicts (hname : s.current? = some (.identifier name))
    (hends : EndsTerm s.tail.current?) :
    Predicts origin (Misuse origin cx) terms EndsTerm Unknown
      (advance >>= fun _ => named cx expression name s.span) h s := by
  refine .of_at fun hat => ?_
  refine .advance_bind (.name .read name) 1 hname ?_ ?_ ?_
  · intro us hus
    rw [(Language.mem_one us).1 hus]
    exact ⟨.variable name, rfl⟩
  · intro us hus r hfollow hbegins
    obtain ⟨vs, hvs, heq, hnext⟩ := exists_nameTail hus hbegins
    refine ⟨vs, (Language.mem_one vs).2 ?_, heq⟩
    rw [← hnext] at hends
    rcases mem_nameTails_iff hvs hfollow with ⟨hother, -⟩ | ⟨hother, -⟩ | ⟨-, hvs⟩
    · exact absurd hother hends.1
    · exact absurd hother (not_or.2 hends.2)
    · exact hvs
  · refine .of_at fun hat' => .look currentSymbol_run ?_
    have hresolve : Predicts origin (Misuse origin cx) 1 EndsTerm Unknown
        (cx.resolve name s.span >>= fun v => Pure.pure (JackLang.Term.variable v))
        (h ++ [.name .read name]) s.tail := by
      refine .resolve_bind ⟨[], Language.nil_mem_one⟩ (fun hfind => ?_) fun v => .pure trivial
      refine .read (getElem?_of_at hat hname) hfind ?_ ?_
      · exact getElem?_succ_of_at hat' ▸ hends.2.1
      · exact getElem?_succ_of_at hat' ▸ hends.2.2
    split
    · next hsymbol => exact absurd (symbol?_eq_some_iff.1 hsymbol) hends.1
    · next hsymbol => exact absurd (symbol?_eq_some_iff.1 hsymbol) hends.2.1
    · next hsymbol => exact absurd (symbol?_eq_some_iff.1 hsymbol) hends.2.2
    · exact hresolve

/-- The token behind a name at the start of a term tells what the name begins. -/
theorem namedTerm_predicts (hname : s.current? = some (.identifier name)) :
    Predicts origin (Misuse origin cx) terms EndsTerm Unknown
      (advance >>= fun _ => named cx expression name s.span) h s := by
  by_cases hbracket : s.tail.current? = some (.symbol .openBracket)
  · exact element_predicts hexpression hname hbracket
  by_cases hcall : s.tail.current? = some (.symbol .openParen) ∨ s.tail.current? = some (.symbol .dot)
  · exact call_predicts hexpression hname hcall
  · exact variable_predicts hname ⟨hbracket, not_or.1 hcall⟩

end names

/-! ### Terms -/

/-- The tokens that are terms by themselves, names apart. -/
inductive Literal : Token → Prop
  | integer (value : Nat) : Literal (.integer value)
  | string (text : String) : Literal (.string text)
  | constant (constant : Constant) : Literal (.keyword constant.keyword)
  | this : Literal (.keyword .this)

/-- The first token of a term tells its form. -/
theorem terms_cases {us : List Leaf} {t : Token} {r : List Token} {next : Option Token}
    (hus : us ∈ terms) (hbegins : Begins (texts us ++ r) [t] next) :
    (Literal t ∧ texts us = [t]) ∨ (∃ name, t = .identifier name) ∨
    (t = .symbol .openParen ∧
      ∃ vs ∈ expressions * word [.symbol .closeParen], texts us = t :: texts vs) ∨
    (∃ op : UnaryOperator, t = .symbol op.symbol ∧ ∃ vs ∈ terms, texts us = t :: texts vs) := by
  obtain ⟨term, rfl⟩ := hus
  cases term with
  | integer value =>
    obtain rfl := (begins_cons_iff.1 hbegins).1
    exact .inl ⟨.integer value, rfl⟩
  | string text =>
    obtain rfl := (begins_cons_iff.1 hbegins).1
    exact .inl ⟨.string text, rfl⟩
  | constant constant =>
    obtain rfl := (begins_cons_iff.1 hbegins).1
    exact .inl ⟨.constant constant, rfl⟩
  | this =>
    obtain rfl := (begins_cons_iff.1 hbegins).1
    exact .inl ⟨.this, rfl⟩
  | «variable» name => exact .inr (.inl ⟨name, (begins_cons_iff.1 hbegins).1.symm⟩)
  | element array index => exact .inr (.inl ⟨array, (begins_cons_iff.1 hbegins).1.symm⟩)
  | call qualifier subroutine arguments =>
    cases qualifier with
    | none => exact .inr (.inl ⟨subroutine, (begins_cons_iff.1 hbegins).1.symm⟩)
    | some qualifier => exact .inr (.inl ⟨qualifier, (begins_cons_iff.1 hbegins).1.symm⟩)
  | group inner =>
    obtain rfl := (begins_cons_iff.1 hbegins).1
    exact .inr (.inr (.inl ⟨rfl, _, Language.append_mem_mul ⟨inner, rfl⟩ rfl, rfl⟩))
  | unary op operand =>
    obtain rfl := (begins_cons_iff.1 hbegins).1
    exact .inr (.inr (.inr ⟨op, rfl, _, ⟨operand, rfl⟩, rfl⟩))

theorem terms_head? {us : List Leaf} (hus : us ∈ terms) (r : List Token) :
    ∃ t, (texts us ++ r).head? = some t ∧ (Literal t ∨ (∃ name, t = .identifier name) ∨
      t = .symbol .openParen ∨ ∃ op : UnaryOperator, t = .symbol op.symbol) := by
  obtain ⟨t, ts, heq⟩ : ∃ t ts, texts us = t :: ts := by
    obtain ⟨term, rfl⟩ := hus
    obtain ⟨t, ts, hts, -⟩ := term.exists_tokens_eq_cons
    exact ⟨t, ts, term.texts_leaves.trans hts⟩
  have hbegins : Begins (texts us ++ r) [t] (ts ++ r).head? := by
    rw [heq]
    exact begins_cons_iff.2 ⟨rfl, rfl⟩
  refine ⟨t, congrArg (fun us => (us ++ r).head?) heq, ?_⟩
  rcases terms_cases hus hbegins with ⟨h, -⟩ | h | ⟨h, -⟩ | ⟨op, h, -⟩
  · exact .inl h
  · exact .inr (.inl h)
  · exact .inr (.inr (.inl h))
  · exact .inr (.inr (.inr ⟨op, h⟩))

theorem literal_predicts (leaf : Leaf) {f : Unit → Parser Term} (hliteral : Literal leaf.token)
    (hmem : [leaf] ∈ terms) (hcurrent : s.current? = some leaf.token)
    (hf : Predicts origin B 1 EndsTerm Unknown (f ()) (h ++ [leaf]) s.tail) :
    Predicts origin B terms EndsTerm Unknown (advance >>= f) h s := by
  refine .advance_bind leaf 1 hcurrent (fun us hus => (Language.mem_one us).1 hus ▸ hmem) ?_ hf
  intro us hus r _ hbegins
  rcases terms_cases hus hbegins with ⟨-, heq⟩ | ⟨name, heq⟩ | ⟨heq, -⟩ | ⟨op, heq, -⟩
  · exact ⟨[], Language.nil_mem_one, heq⟩
  · rw [heq] at hliteral
    cases hliteral
  · rw [heq] at hliteral
    cases hliteral
  · rw [heq] at hliteral
    cases hliteral

theorem unary_predicts (op : UnaryOperator) {f : Unit → Parser Term}
    (hcurrent : s.current? = some (.symbol op.symbol))
    (hf : Predicts origin B terms EndsTerm Unknown (f ()) (h ++ [.symbol op.symbol]) s.tail) :
    Predicts origin B terms EndsTerm Unknown (advance >>= f) h s := by
  refine .advance_bind (.symbol op.symbol) terms hcurrent ?_ ?_ hf
  · rintro _ ⟨operand, rfl⟩
    exact ⟨.unary op operand, rfl⟩
  · intro us hus r _ hbegins
    rcases terms_cases hus hbegins with ⟨hliteral, -⟩ | ⟨name, heq⟩ | ⟨heq, -⟩ | ⟨op, -, h⟩
    · cases hliteral
    · cases heq
    · cases op <;> cases heq
    · exact h

theorem group_predicts {f : Unit → Parser Term} (hcurrent : s.current? = some (.symbol .openParen))
    (hf : Predicts origin B (expressions * word [.symbol .closeParen]) EndsTerm Unknown (f ())
      (h ++ [.symbol .openParen]) s.tail) :
    Predicts origin B terms EndsTerm Unknown (advance >>= f) h s := by
  refine .advance_bind (.symbol .openParen) _ hcurrent ?_ ?_ hf
  · intro us hus
    obtain ⟨_, ⟨inner, rfl⟩, _, rfl, rfl⟩ := Language.mem_mul.1 hus
    exact ⟨.group inner, rfl⟩
  · intro us hus r _ hbegins
    rcases terms_cases hus hbegins with ⟨hliteral, -⟩ | ⟨name, heq⟩ | ⟨-, h⟩ | ⟨op, heq, -⟩
    · cases hliteral
    · cases heq
    · exact h
    · cases op <;> cases heq

theorem term_predicts (levels : Nat) : ∀ h s,
    Predicts origin (Misuse origin cx) terms EndsTerm Unknown (term cx levels) h s := by
  induction levels with
  | zero => exact fun h s => .of_at fun hat => .blame rfl ⟨_, .this, rfl⟩ (.nested hat)
  | succ levels ih =>
    intro h s
    have hinner {h : List Leaf} {s : TokenStream} :=
      expressionOf_predicts (h := h) (s := s) ih
    refine .of_at fun hat => .look span_run (.look current_run ?_)
    split
    · next value hvalue =>
      split
      · have hmem := List.mem_of_getElem? (getElem?_of_at hat hvalue)
        exact .blame rfl ⟨_, .this, rfl⟩ (.lexical (.integerTooLarge _ value) hmem rfl)
      · exact literal_predicts ⟨.integer value, .plain⟩ (.integer value)
          ⟨.integer value, rfl⟩ hvalue (.pure trivial)
    · next text htext =>
      refine literal_predicts ⟨.string text, .plain⟩ (.string text) ⟨.string text, rfl⟩
        htext ?_
      have hmem := List.mem_of_getElem? (getElem?_of_at hat htext)
      exact .checkString_bind ⟨[], Language.nil_mem_one⟩
        (fun _ hlexical hspan => .lexical hlexical hmem hspan) (.pure trivial)
    · next hthis =>
      refine literal_predicts (.keyword .this) .this ⟨.this, rfl⟩ hthis ?_
      exact .receiver_bind ⟨[], Language.nil_mem_one⟩ (.this (getElem?_of_at hat hthis)) fun _ =>
        .pure trivial
    · next k hthis hk =>
      cases hconstant : keywordConstant? k with
      | some constant =>
        obtain rfl := keywordConstant?_eq_some_iff.1 hconstant
        exact literal_predicts (.keyword constant.keyword) (.constant constant)
          ⟨.constant constant, rfl⟩ hk (.pure trivial)
      | none =>
        refine .unexpected ⟨_, .this, rfl⟩ nofun fun us hus r _ hstart => ?_
        obtain ⟨t, ht, hcases⟩ := terms_head? hus r
        obtain rfl : .keyword k = t := Option.some.inj (hk.symm.trans (hstart.symm.trans ht))
        rcases hcases with hliteral | ⟨name, heq⟩ | heq | ⟨op, heq⟩
        · cases hliteral with
          | constant constant => cases constant <;> cases hconstant
          | this => exact hthis rfl
        · cases heq
        · cases heq
        · cases heq
    · next hopen =>
      exact group_predicts hopen
        (.closed hinner (endsExpression_of_mem (by simp)) fun _ _ _ _ => trivial)
    · next hminus => exact unary_predicts .negate hminus (.bind_pure (ih _ _) fun _ _ _ _ => trivial)
    · next htilde =>
      exact unary_predicts .complement htilde (.bind_pure (ih _ _) fun _ _ _ _ => trivial)
    · next name hname => exact namedTerm_predicts (fun _ _ => hinner) hname
    · next hinteger hstring _ hkeyword hopen hminus htilde hname =>
      refine .unexpected ⟨_, .this, rfl⟩ nofun fun us hus r _ hstart => ?_
      obtain ⟨t, ht, hcases⟩ := terms_head? hus r
      have hcurrent := hstart.symm.trans ht
      rcases hcases with hliteral | ⟨name, rfl⟩ | rfl | ⟨op, rfl⟩
      · cases hliteral with
        | integer value => exact hinteger value hcurrent
        | string text => exact hstring text hcurrent
        | constant | this => exact hkeyword _ hcurrent
      · exact hname name hcurrent
      · exact hopen hcurrent
      · cases op with
        | negate => exact hminus hcurrent
        | complement => exact htilde hcurrent

end Parser
end JackLang
