import JackLang.Proofs.Prediction.Declaration

/-! Subroutines and classes are parsed predictively, and so is a program, which is one class with
nothing behind it (`program_predicts`). -/

namespace JackLang.Parser

open TokenStream Syntax
open scoped Computability

/-! ### Languages -/

def parameterWords : Language Leaf := wordsOf Parameter.leaves

/-- The parameters of a subroutine, which may have none. -/
def parameterLists : Language Leaf :=
  wordsOf fun ps : List Syntax.Parameter => separated (ps.map Parameter.leaves)

def returnTypes : Language Leaf := types + word [.keyword .void]

/-- The locals and statements of a body. -/
def bodies : Language Leaf := (keywordDeclarations localKind?)∗ * wordsOf Statement.leavesAll

/-- What stands behind the keyword of a subroutine. -/
def subroutineTails : Language Leaf :=
  returnTypes * (names .plain * (between .openParen .closeParen parameterLists *
    between .openBrace .closeBrace bodies))

theorem parameterWords_eq : parameterWords = types * names (.declares .argument) := by
  rw [types, names, wordsOf_mul_wordsOf]
  refine Set.ext fun us => ⟨?_, ?_⟩
  · rintro ⟨⟨type, name⟩, rfl⟩
    exact ⟨(type, name), rfl⟩
  · rintro ⟨⟨type, name⟩, rfl⟩
    exact ⟨⟨type, name⟩, rfl⟩

theorem parameterLists_eq : parameterLists = 1 + listed parameterWords :=
  one_add_listed_wordsOf.symm

theorem keywordDeclarations_local : keywordDeclarations localKind? =
    wordsOf fun d : Syntax.Declaration => .keyword .var :: d.leaves .local := by
  refine Set.ext fun us => ⟨?_, ?_⟩
  · rintro ⟨k, kind, hkind, _, ⟨d, rfl⟩, rfl⟩
    obtain ⟨_, rfl, rfl⟩ := localKind?_eq_some_iff.1 hkind
    exact ⟨d, rfl⟩
  · rintro ⟨d, rfl⟩
    exact ⟨.var, .local, rfl, _, ⟨d, rfl⟩, rfl⟩

theorem keywordDeclarations_classLevel : keywordDeclarations classLevelKind? =
    wordsOf fun d : ClassLevel × Syntax.Declaration =>
      .keyword d.1.keyword :: d.2.leaves d.1.kind := by
  refine Set.ext fun us => ⟨?_, ?_⟩
  · rintro ⟨k, kind, hkind, _, ⟨d, rfl⟩, rfl⟩
    obtain ⟨level, rfl, rfl⟩ := classLevelKind?_eq_some_iff.1 hkind
    exact ⟨(level, d), rfl⟩
  · rintro ⟨⟨level, d⟩, rfl⟩
    exact ⟨level.keyword, level.kind, classLevelKind?_eq_some_iff.2 ⟨level, rfl, rfl⟩, _,
      ⟨d, rfl⟩, rfl⟩

/-- Any keyword of a subroutine may stand before the rest of another. -/
theorem mem_subroutineTails_iff (kind : SubroutineKind) {us : List Leaf} : us ∈ subroutineTails ↔
    ∃ s : Syntax.Subroutine, s.kind = kind ∧ s.leaves = .keyword kind.keyword :: us := by
  rw [subroutineTails, bodies, keywordDeclarations_local, kstar_wordsOf]
  refine ⟨?_, ?_⟩
  · rintro ⟨_, htype, _, ⟨_, ⟨name, rfl⟩, _, ⟨_, hparameters, _, hbody, rfl⟩, rfl⟩, rfl⟩
    obtain ⟨_, ⟨ps, rfl⟩, rfl⟩ := mem_between_iff.1 hparameters
    obtain ⟨_, ⟨_, ⟨ds, rfl⟩, _, ⟨body, rfl⟩, rfl⟩, rfl⟩ := mem_between_iff.1 hbody
    rcases htype with ⟨type, rfl⟩ | rfl
    · exact ⟨⟨kind, some type, name, ps, ds, body⟩, rfl, rfl⟩
    · exact ⟨⟨kind, none, name, ps, ds, body⟩, rfl, rfl⟩
  · rintro ⟨⟨_, returnType, name, ps, ds, body⟩, rfl, heq⟩
    obtain rfl := (List.cons.inj heq).2
    refine ⟨[_], ?_, _, ⟨_, ⟨name, rfl⟩, _, ⟨_, mem_between_iff.2 ⟨_, ⟨ps, rfl⟩, rfl⟩, _,
      mem_between_iff.2 ⟨_, ⟨_, ⟨ds, rfl⟩, _, ⟨body, rfl⟩, rfl⟩, rfl⟩, rfl⟩, rfl⟩, rfl⟩
    cases returnType with
    | none => exact .inr rfl
    | some type => exact .inl ⟨type, rfl⟩

/-! ### Subroutines -/

variable {α : Type} {origin : TokenStream} {B : Blame} {L : Language Leaf}
  {Follow : Option Token → Prop} {Q : α → List Leaf → Prop} {kind? : Option SubroutineKind}
  {scopes : Scopes} {className : String} {kind : SubroutineKind} {h : List Leaf} {s : TokenStream}

theorem parameter_predicts (ht : Tracks kind? scopes (Outline.of h)) :
    Predicts origin (Mistake origin) parameterWords Anything (Tracked kind?) (parameter scopes) h
      s := by
  rw [parameterWords_eq]
  refine .bind ⟨_, "", rfl⟩ (fun _ _ _ _ => trivial) type_predicts fun type ls s₁ hls _ _ => ?_
  rw [← Outline.of_append (quiet_types hls)] at ht
  exact declaredName_predicts type .argument ht

theorem parameters_predicts (ht : Tracks kind? scopes (Outline.of h)) :
    Predicts origin (Mistake origin) parameterLists (· = some (.symbol .closeParen)) (Tracked kind?)
      (parameters scopes) h s := by
  obtain ⟨t?, hrun, ht?⟩ := type?_run (s := s)
  rw [parameterLists_eq, parameters]
  refine .look hrun ?_
  cases t? with
  | none =>
    refine .left (fun us hus r _ hstart => ?_) (.pure ht)
    obtain ⟨_, ⟨p, rfl⟩, us', -, rfl⟩ := Language.mem_mul.1 hus
    cases ht?.2 hstart.symm
  | some t =>
    refine .right (fun us hus r hfollow hstart => ?_) ?_
    · rw [(Language.mem_one us).1 hus, texts_nil, List.nil_append, hfollow, ht?.1 rfl] at hstart
      cases t <;> cases hstart
    · refine .mono (fun _ _ _ _ hB => hB) ?_ (fun _ _ _ hQ => hQ)
        (declaredItems_predicts (fun _ _ _ => parameter_predicts) ht)
      rintro _ rfl ⟨⟩

theorem returnType_predicts {rest : Option VarType → Parser α} (hL : ∃ us, us ∈ L)
    (hrest : ∀ returnType ls s₁, Quiet ls →
      Predicts origin B L Follow Q (rest returnType) (h ++ ls) s₁) :
    Predicts origin B (returnTypes * L) Follow Q
      (if s.keyword? = some Keyword.void then do
        advance
        let returnType ← Pure.pure none
        rest returnType
      else do
        let returnType ← some <$> type
        rest returnType : Parser α) h s := by
  rw [returnTypes, add_mul]
  split
  · next hvoid =>
    refine .right (fun us hus r _ hstart => ?_) (.advance_word_bind (.keyword .void)
      (keyword?_eq_some_iff.1 hvoid) (.look rfl (hrest none _ _ (quiet_keyword (by simp)))))
    obtain ⟨_, ⟨t, rfl⟩, us', -, rfl⟩ := Language.mem_mul.1 hus
    have := hstart.trans (keyword?_eq_some_iff.1 hvoid)
    cases t <;> cases this
  · next hvoid =>
    refine .left (fun us hus r _ hstart => ?_) ?_
    · obtain ⟨vs, -, rfl⟩ := mem_word_mul_iff.1 hus
      exact hvoid (keyword?_eq_some_iff.2 hstart.symm)
    · refine .bind hL (fun _ _ _ _ => trivial)
        (.map (Q := Unknown) type_predicts fun _ _ _ _ => trivial)
        fun returnType ls s₁ hls _ _ => hrest _ _ _ (quiet_types hls)

theorem Predicts.checkFields_bind {f : Unit → Parser α} (hL : ∃ us, us ∈ L)
    (hB : kind = .constructor → maxConstant < scopes.count .field →
      B (.tooManyFields className (scopes.count .field)) h)
    (hf : Predicts origin B L Follow Q (f ()) h s) :
    Predicts origin B L Follow Q (checkFields className kind scopes >>= f) h s := by
  rw [checkFields]
  split
  · next hfields => exact .blame rfl hL (hB hfields.1 hfields.2)
  · exact .look rfl hf

/-- The scopes of a class hold what the leaves before a subroutine declare for it. -/
def TracksClass (scopes : Scopes) (o : Outline) : Prop :=
  ∃ env : Environment, scopes.Holds env ∧ env.Proper ∧
    o.classLevel = env.classLevel.map fun d => (d.name, d.kind)

theorem TracksClass.enter {o : Outline} (ht : TracksClass scopes o) (className : String)
    (kind : SubroutineKind) (place : Span) (s : TokenStream) :
    ∃ scopes', (subroutineScopes className kind place scopes).run s = .ok scopes' s ∧
      Tracks (some kind) scopes' (o.enter kind) := by
  obtain ⟨env, hholds, hproper, hclass⟩ := ht
  obtain ⟨scopes', hrun, hholds', hproper'⟩ :=
    exists_subroutineScopes_ok className kind place hholds hproper
  refine ⟨scopes', hrun, _, hholds', hproper', ?_⟩
  rw [Outline.enter, hclass]
  cases kind <;> rfl

theorem exists_mem_bodies : ∃ us, us ∈ between .openBrace .closeBrace bodies :=
  exists_mem_between (exists_mem_mul (exists_mem_kstar _) ⟨_, [], rfl⟩)

/-- What begins statements, or ends a body, is no further declaration. -/
theorem localKind?_eq_none_of_statements {us : List Leaf} {r : List Token}
    (hus : us ∈ wordsOf Statement.leavesAll * word [.symbol .closeBrace]) (k : Keyword)
    (hk : (texts us ++ r).head? = some (.keyword k)) : localKind? k = none := by
  obtain ⟨_, ⟨statements, rfl⟩, _, rfl, rfl⟩ := Language.mem_mul.1 hus
  cases statements with
  | nil => cases hk
  | cons statement statements =>
    obtain ⟨t, ts, hts, -, ht⟩ := statement.exists_tokens_eq_cons
    rw [texts_append, Statement.texts_leavesAll, Statement.tokensAll, hts] at hk
    obtain rfl := Option.some.inj hk
    cases k with
    | var => exact absurd rfl ht
    | _ => rfl

/-- The body of a subroutine from its opening brace on. -/
theorem body_predicts {f : List Declaration → List Statement → α}
    (hclass : [.keyword .class, .name .plain className] <+: h)
    (ht : Tracks (some kind) scopes (Outline.of h)) :
    Predicts origin (Mistake origin) (between .openBrace .closeBrace bodies) Anything Unknown
      (do
        expectSymbol .openBrace
        let (locals, scopes) ← declarations localKind? scopes
        checkFields className kind scopes
        let body ← statements ⟨className, kind, scopes⟩ maxNesting
        expectSymbol .closeBrace
        return f locals body) h s := by
  have hempty : ∃ us, us ∈ wordsOf Statement.leavesAll * word [.symbol .closeBrace] :=
    exists_mem_mul ⟨_, [], rfl⟩ (exists_mem_word _)
  have hquiet : ∀ k, (localKind? k).isSome → k ∉ [.constructor, .function, .method] := by
    intro k hk
    cases k <;> simp_all [localKind?]
  rw [between, bodies, mul_assoc]
  refine .expectSymbol_bind (exists_mem_mul (exists_mem_kstar _) hempty) fun s₁ _ => ?_
  rw [← Outline.of_append (quiet_symbol .openBrace)] at ht
  refine .bind hempty (fun us hus r _ k => localKind?_eq_none_of_statements hus k)
    (declarations_predicts hquiet ht) fun p ls s₂ hls _ ht' => ?_
  obtain ⟨locals, scopes'⟩ := p
  refine .checkFields_bind hempty (fun hkind hfields => ?_) ?_
  · refine .tooManyFields ?_ (ht'.kind?_eq.trans (congrArg some hkind)) ht'.count_eq.symm hfields
    rw [List.append_assoc]
    exact hclass.trans (List.prefix_append ..)
  · refine .closed ((statements_predicts maxNesting _ _).mono ?_ (fun _ ht => ht)
      fun _ _ _ hQ => hQ) rfl fun _ _ _ _ => trivial
    intro fault ls' us hus hmisuse
    refine hmisuse.mistake ht' (Outline.of_append ?_)
    obtain ⟨statements, heq⟩ := hus
    have := Statement.quiet_leavesAll statements
    rw [heq, quiet_append_iff] at this
    exact this.1

theorem subroutine_predicts (hclass : [.keyword .class, .name .plain className] <+: h)
    (ht : TracksClass scopes (Outline.of h))
    (hkeyword : s.current? = some (.keyword kind.keyword)) :
    Predicts origin (Mistake origin) (wordsOf Subroutine.leaves) Anything Unknown
      (subroutine className kind scopes) h s := by
  have hparameters : ∃ us, us ∈ parameterLists := ⟨[], [], rfl⟩
  have hbrackets : ∃ us, us ∈ between .openParen .closeParen parameterLists :=
    exists_mem_between hparameters
  have hsignature := exists_mem_mul hbrackets exists_mem_bodies
  refine .look span_run (.advance_bind (.keyword kind.keyword) subroutineTails hkeyword ?_ ?_ ?_)
  · intro us hus
    obtain ⟨s, -, heq⟩ := (mem_subroutineTails_iff kind).1 hus
    exact ⟨s, heq⟩
  · rintro _ ⟨s, rfl⟩ r _ hbegins
    have hleaves : s.leaves = .keyword s.kind.keyword :: s.leaves.tail := rfl
    rw [hleaves] at hbegins ⊢
    exact ⟨_, (mem_subroutineTails_iff _).2 ⟨s, rfl, hleaves⟩,
      congrArg (· :: _) (begins_cons_iff.1 hbegins).1⟩
  obtain ⟨scopes₁, hscopes, ht₁⟩ := ht.enter className kind s.span s.tail
  rw [← Outline.read_subroutine, ← Outline.of_concat] at ht₁
  refine .look hscopes (.look currentKeyword_run ?_)
  refine returnType_predicts (exists_mem_mul (exists_mem_names .plain) hsignature)
    fun returnType ls s₁ hls => ?_
  refine .bind hsignature (fun _ _ _ _ => trivial) (.identifier .plain)
    fun (name, _) ls' s₂ hls' _ _ => ?_
  have hquiet : Quiet ls' := by
    obtain ⟨name, rfl⟩ := hls'
    exact quiet_name (by simp) name
  rw [between_mul]
  have hbody := exists_mem_mul (exists_mem_word [.symbol .closeParen]) exists_mem_bodies
  refine .expectSymbol_bind (exists_mem_mul hparameters hbody) fun s₃ _ => ?_
  rw [← Outline.of_append hls, ← Outline.of_append hquiet,
    ← Outline.of_append (quiet_symbol .openParen)] at ht₁
  refine .closed_bind exists_mem_bodies (parameters_predicts ht₁) rfl
    fun (ps, scopes₂) ls'' s₄ hls'' ht₂ => ?_
  refine body_predicts (f := Subroutine.mk kind returnType name ps) ?_ ?_
  · simp only [List.append_assoc]
    exact hclass.trans (List.prefix_append ..)
  · rw [Outline.of_append (quiet_symbol .closeParen)]
    exact ht₂

/-! ### Classes -/

def classes : Language Leaf := wordsOf Class.leaves

theorem classes_eq : classes = word [.keyword .class] * (names .plain *
    between .openBrace .closeBrace
      ((keywordDeclarations classLevelKind?)∗ * (wordsOf Subroutine.leaves)∗)) := by
  rw [keywordDeclarations_classLevel, kstar_wordsOf, kstar_wordsOf]
  refine Set.ext fun us => ⟨?_, ?_⟩
  · rintro ⟨⟨name, ds, subroutines⟩, rfl⟩
    exact mem_word_mul_iff.2 ⟨_, mem_names_mul_iff.2 ⟨name, _, mem_between_iff.2
      ⟨_, ⟨_, ⟨ds, rfl⟩, _, ⟨subroutines, rfl⟩, rfl⟩, rfl⟩, rfl⟩, rfl⟩
  · intro hus
    obtain ⟨_, hname, rfl⟩ := mem_word_mul_iff.1 hus
    obtain ⟨name, _, hbody, rfl⟩ := mem_names_mul_iff.1 hname
    obtain ⟨_, ⟨_, ⟨ds, rfl⟩, _, ⟨subroutines, rfl⟩, rfl⟩, rfl⟩ := mem_between_iff.1 hbody
    exact ⟨⟨name, ds, subroutines⟩, rfl⟩

/-- What begins a subroutine, or ends a class, is no further declaration. -/
theorem classLevelKind?_eq_none_of_subroutines {us : List Leaf} {r : List Token}
    (hus : us ∈ (wordsOf Subroutine.leaves)∗ * word [.symbol .closeBrace]) (k : Keyword)
    (hk : (texts us ++ r).head? = some (.keyword k)) : classLevelKind? k = none := by
  rw [kstar_wordsOf] at hus
  obtain ⟨_, ⟨subroutines, rfl⟩, _, rfl, rfl⟩ := Language.mem_mul.1 hus
  cases subroutines with
  | nil => cases hk
  | cons s subroutines =>
    obtain rfl : s.kind.keyword = k := Token.keyword.inj (Option.some.inj hk)
    cases s.kind <;> rfl

/-- One subroutine after the other, from the leaves that the class begins with on. -/
theorem subroutines_predicts {name : String} (hclass : [.keyword .class, .name .plain name] <+: h)
    (ht : TracksClass scopes (Outline.of h)) :
    Predicts origin (Mistake origin) (wordsOf Subroutine.leaves)∗ (· = some (.symbol .closeBrace))
      Unknown (many do
        match (← currentKeyword).bind subroutineKind? with
        | some kind => return some (← subroutine name kind scopes)
        | none => return none) h s := by
  have hseparates :
      Separates (wordsOf Subroutine.leaves) (· = some (.symbol .closeBrace)) Anything := by
    refine ⟨?_, fun _ _ => trivial⟩
    rintro _ ⟨s, rfl⟩
    exact ⟨_, _, rfl, trivial⟩
  refine .mono (fun _ _ _ _ hB => hB) (fun _ ht => ht) (fun _ _ _ _ => trivial)
    (.many (P := fun h => [.keyword .class, .name .plain name] <+: h ∧
      TracksClass scopes (Outline.of h)) hseparates (fun h s hP => ?_) ⟨hclass, ht⟩)
  obtain ⟨hclass, ht⟩ := hP
  cases hkind : s.keyword?.bind subroutineKind? with
  | some kind =>
    obtain ⟨k, hk, hkind'⟩ := Option.bind_eq_some_iff.1 hkind
    obtain rfl := subroutineKind?_eq_some_iff.1 hkind'
    have hcurrent := keyword?_eq_some_iff.1 hk
    refine .inl ⟨fun hend => ?_, .look currentKeyword_run ?_⟩
    · cases hcurrent.symm.trans hend
    rw [hkind]
    refine .bind_pure (subroutine_predicts hclass ht hcurrent) fun t ls hls _ => ⟨t, rfl, ?_, ?_⟩
    · exact hclass.trans (List.prefix_append ..)
    · obtain ⟨s, rfl⟩ := hls
      obtain ⟨env, hholds, hproper, heq⟩ := ht
      exact ⟨env, hholds, hproper, (Outline.classLevel_of_append s.classQuiet_leaves).trans heq⟩
  | none =>
    refine .inr ⟨?_, ?_⟩
    · rintro ⟨_, ⟨s', rfl⟩, hstart⟩
      have hk : s.keyword? = some s'.kind.keyword := keyword?_eq_some_iff.2 hstart.symm
      rw [hk, Option.bind_some, subroutineKind?_eq_some_iff.2 rfl] at hkind
      cases hkind
    · rw [bind_of_ok currentKeyword_run, hkind]
      rfl

theorem classDeclaration_predicts :
    Predicts origin (Mistake origin) classes Anything Unknown classDeclaration [] s := by
  have hquiet : ∀ k, (classLevelKind? k).isSome → k ∉ [.constructor, .function, .method] := by
    intro k hk
    cases k <;> simp_all [classLevelKind?]
  have hend := exists_mem_mul (exists_mem_kstar (wordsOf Subroutine.leaves))
    (exists_mem_word [.symbol .closeBrace])
  have hdeclarations := exists_mem_mul (exists_mem_kstar (keywordDeclarations classLevelKind?)) hend
  have hbraces := exists_mem_mul (exists_mem_word [.symbol .openBrace]) hdeclarations
  have hname := exists_mem_mul (exists_mem_names .plain) hbraces
  rw [classes_eq, between, mul_assoc]
  refine .bind hname (fun _ _ _ _ => trivial) (.expectKeyword .class) fun _ ls s₁ hls _ _ => ?_
  obtain rfl := mem_word_iff.1 hls
  refine .bind hbraces (fun _ _ _ _ => trivial) (.identifier .plain)
    fun p ls' s₂ _ _ hname => ?_
  obtain ⟨name, _⟩ := p
  rw [hname.1]
  refine .expectSymbol_bind hdeclarations fun s₃ _ => ?_
  have ht : Tracks none {} (Outline.of [.keyword .class, .name .plain name, .symbol .openBrace]) :=
    ⟨{}, Scopes.holds_empty, Environment.proper_empty, rfl⟩
  refine .bind hend (fun us hus r _ k => classLevelKind?_eq_none_of_subroutines hus k)
    (declarations_predicts hquiet ht) fun p ls'' s₄ _ _ ht' => ?_
  obtain ⟨ds, scopes⟩ := p
  obtain ⟨env, hholds, hproper, heq⟩ := ht'
  refine .closed (subroutines_predicts ?_ ?_) rfl fun _ _ _ _ => trivial
  · exact ⟨.symbol .openBrace :: ls'', rfl⟩
  · exact ⟨env, hholds, hproper, congrArg Outline.classLevel heq⟩

/-- To look at the first token is to read nothing. -/
theorem Predicts.start_bind {f : Unit → Parser α} (hf : Predicts origin B L Follow Q (f ()) h s) :
    Predicts origin B L Follow Q (start >>= f) h s := by
  cases hstart : start.run s with
  | ok _ s' =>
    obtain ⟨-, rfl⟩ := start_eq_ok.1 hstart
    exact .look hstart hf
  | error fault s' =>
    have hrun : (start >>= f).run s = .error fault s' := by
      rw [EStateM.run_bind, hstart]
    refine ⟨fun a s₁ _ h => ?_, fun fault' s₁ _ h => ?_⟩
    · cases hrun.symm.trans h
    · cases hrun.symm.trans h
      exact .stream (fault?_of_start_eq_error hstart)

/-- A program is parsed predictively. -/
theorem program_predicts (s : TokenStream) :
    Predicts s (Mistake s) classes (· = none) Unknown program [] s := by
  refine .start_bind (.bind_one classDeclaration_predicts.followed
    fun c ls s₁ _ _ _ => .look current_run ?_)
  split
  · next hsome =>
    refine .congr (q := unexpected .endOfInput) rfl (.unexpected ⟨[], Language.nil_mem_one⟩ nofun
      fun us hus r hfollow hstart => ?_)
    rw [(Language.mem_one us).1 hus, texts_nil, List.nil_append, hfollow] at hstart
    rw [← hstart] at hsome
    cases hsome
  · exact .pure trivial

end JackLang.Parser
