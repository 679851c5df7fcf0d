import JackLang.Proofs.Parser.Completeness
import JackLang.Proofs.Parser.Declarations

/-! The parsers of subroutines and classes. A program parses just if its tokens, all of them without
a fault, are those of a tree that fits the capacities and scopes (`program_sound`,
`program_complete`); the class found is the resolution of the tree. -/

namespace JackLang

namespace Syntax

/-- What the parser asks of a subroutine, with the current object as a name in its scope. -/
structure Subroutine.Fits (c : Class) (s : Subroutine) : Prop where
  proper : (c.site s).environment.Proper
  fields_le : s.kind = .constructor → Declared.count .field c.declared ≤ maxConstant
  body : Statement.BlockFits (c.site s) maxNesting s.body

structure Class.Fits (c : Class) : Prop where
  proper : (⟨c.declared, []⟩ : Environment).Proper
  subroutines : ∀ s ∈ c.subroutines, s.Fits c

theorem Subroutine.resolveAll?_of_forall₂ {c : Class} {subroutines : List Subroutine}
    {ts : List JackLang.Subroutine}
    (h : List.Forall₂ (fun raw t => raw.resolve? c = some t ∧ raw.Fits c) subroutines ts) :
    Subroutine.resolveAll? c subroutines = some ts ∧ ∀ s ∈ subroutines, s.Fits c := by
  induction h with
  | nil => exact ⟨rfl, by simp⟩
  | cons h _ ih =>
    refine ⟨?_, List.forall_mem_cons.2 ⟨h.2, ih.2⟩⟩
    simp [Subroutine.resolveAll?, h.1, ih.1]

end Syntax

namespace Environment

variable {env : Environment}

/-- The scope of the class stays in order when a subroutine starts. -/
theorem Proper.enterSubroutine (h : env.Proper) : ({ env with subroutineLevel := [] } : Environment).Proper where
  nodup kind := by
    have := h.nodup kind
    rw [level] at this ⊢
    split
    · next hk => rwa [if_pos hk] at this
    · exact List.nodup_nil
  count_le kind := by
    have := h.count_le kind
    rw [count, level] at this ⊢
    split
    · next hk => rwa [if_pos hk] at this
    · exact Nat.zero_le _

end Environment

theorem Scopes.Holds.context_at {scopes : Scopes} {site : Syntax.Site}
    (h : scopes.Holds site.environment) :
    (⟨site.className, site.kind, scopes⟩ : Context).At site :=
  ⟨rfl, rfl, h.find?_eq⟩

namespace Parser

open TokenStream

variable {s s' : TokenStream} {scopes scopes' : Scopes} {env : Environment} {className : String}
  {kind : SubroutineKind} {place : Span}

/-! ### Subroutines -/

theorem parameters_sound (hholds : scopes.Holds env) (hproper : env.Proper)
    {vars : List Variable} (h : (parameters scopes).run s = .ok (vars, scopes') s') :
    ∃ ps : List Syntax.Parameter,
      s.Reads (Syntax.withCommas (ps.map Syntax.Parameter.tokens)) s' ∧
      Makes env (ps.map fun p => ⟨p.name, p.type, .argument⟩) vars scopes' := by
  obtain ⟨type, hrun, -⟩ := type?_run (s := s)
  rw [parameters, bind_of_ok hrun] at h
  split at h
  · obtain ⟨p, ps, hr, hmakes⟩ := declaredItems_sound parameter_declares hholds hproper h
    exact ⟨p :: ps, hr, hmakes⟩
  · obtain ⟨heq, rfl⟩ := pure_eq_ok.1 h
    cases heq
    exact ⟨[], .nil, makes_nil hholds hproper⟩

theorem parameters_complete (hholds : scopes.Holds env) (hproper : env.Proper)
    {ps : List Syntax.Parameter}
    (hr : s.Reads (Syntax.withCommas (ps.map Syntax.Parameter.tokens)) s')
    (hend : s'.current? = some (.symbol .closeParen))
    (hproper' : (env.declareAll (ps.map fun p => ⟨p.name, p.type, .argument⟩)).Proper) :
    ∃ result, (parameters scopes).run s = .ok result s' ∧
      Makes env (ps.map fun p => ⟨p.name, p.type, .argument⟩) result.1 result.2 := by
  obtain ⟨type, hrun, htype⟩ := type?_run (s := s)
  rw [parameters, bind_of_ok hrun]
  cases ps with
  | nil =>
    obtain rfl := reads_nil_iff.1 hr
    have hnone : type = none := by
      rw [Option.eq_none_iff_forall_ne_some]
      intro t ht
      have := hend.symm.trans (htype.1 ht)
      cases t <;> cases this
    subst hnone
    exact ⟨([], scopes), rfl, makes_nil hholds hproper⟩
  | cons p ps =>
    have hfirst : s.current? = some p.type.token := hr.current?_eq
    rw [htype.2 hfirst]
    refine declaredItems_complete parameter_declares hholds hproper hr ?_ hproper'
    rw [hend]
    simp

theorem exists_subroutineScopes_ok (className : String) (kind : SubroutineKind) (place : Span)
    (hholds : scopes.Holds env) (hproper : env.Proper) :
    ∃ scopes', (subroutineScopes className kind place scopes).run s = .ok scopes' s ∧
      scopes'.Holds ⟨env.classLevel, Syntax.Subroutine.receiver className kind⟩ ∧
      (⟨env.classLevel, Syntax.Subroutine.receiver className kind⟩ : Environment).Proper := by
  have hholds' := hholds.enterSubroutine
  have hproper' := hproper.enterSubroutine
  cases kind with
  | constructor | function => exact ⟨_, rfl, hholds', hproper'⟩
  | method =>
    let env' : Environment := { env with subroutineLevel := [] }
    let receiver : Declared := ⟨"this", .object className, .argument⟩
    have hdeclare : (env'.declare receiver).Proper :=
      (Environment.proper_declare_iff hproper').2 ⟨List.not_mem_nil, Nat.zero_lt_succ _⟩
    refine ⟨_, ?_, hholds'.insert_next hproper' hdeclare, hdeclare⟩
    rw [subroutineScopes, (hholds'.declare_eq_ok_iff hproper').2 ⟨hdeclare, rfl, rfl⟩]
    rfl

theorem checkFields_eq_ok (hholds : scopes.Holds env) {u : Unit} :
    (checkFields className kind scopes).run s = .ok u s' ↔
      (kind = .constructor → Declared.count .field env.classLevel ≤ maxConstant) ∧ s' = s := by
  have hcount : scopes.count .field = Declared.count .field env.classLevel := hholds.count .field
  rw [checkFields, hcount]
  split
  · next h => exact iff_of_false throw_ne_ok fun ⟨h', _⟩ => absurd (h' h.1) (Nat.not_le.2 h.2)
  · next h =>
    rw [pure_eq_ok]
    exact and_congr_left' ⟨fun _ hk => Nat.not_lt.1 fun hlt => h ⟨hk, hlt⟩, fun _ => rfl⟩

/-- The return type comes before the rest of a subroutine. -/
theorem returnType_eq_ok {α : Type} {a : α} {rest : Option VarType → Parser α} :
    (if s.keyword? = some Keyword.void then do
        advance
        let returnType ← pure none
        rest returnType
      else do
        let returnType ← some <$> type
        rest returnType : Parser α).run s = .ok a s' ↔
      ∃ (returnType : Option VarType) (s₁ : TokenStream),
        s.Reads [(returnType.map VarType.token).getD (.keyword .void)] s₁ ∧
        (rest returnType).run s₁ = .ok a s' := by
  split
  · next hvoid =>
    rw [keyword?_eq_some_iff] at hvoid
    simp only [bind_eq_ok, pure_eq_ok, advance_eq_ok_iff hvoid]
    refine ⟨?_, ?_⟩
    · rintro ⟨_, _, hr, _, s₁, ⟨rfl, rfl⟩, h⟩
      exact ⟨none, s₁, hr, h⟩
    · rintro ⟨returnType, s₁, hr, h⟩
      cases returnType with
      | none => exact ⟨(), s₁, hr, none, s₁, ⟨rfl, rfl⟩, h⟩
      | some type =>
        have := hvoid.symm.trans hr.current?_eq
        cases type <;> cases this
  · next hvoid =>
    rw [keyword?_eq_some_iff] at hvoid
    simp only [bind_eq_ok, map_eq_ok, type_eq_ok]
    refine ⟨?_, ?_⟩
    · rintro ⟨_, s₁, ⟨type, hr, rfl⟩, h⟩
      exact ⟨some type, s₁, hr, h⟩
    · rintro ⟨returnType, s₁, hr, h⟩
      cases returnType with
      | none => exact absurd hr.current?_eq hvoid
      | some type => exact ⟨some type, s₁, ⟨type, hr, rfl⟩, h⟩

variable {c : Syntax.Class}

theorem subroutine_sound (hholds : scopes.Holds env) (hproper : env.Proper)
    (hc : env.classLevel = c.declared) (hkeyword : s.current? = some (.keyword kind.keyword))
    {t : Subroutine} (h : (subroutine c.name kind scopes).run s = .ok t s') :
    ∃ raw : Syntax.Subroutine, s.Reads raw.tokens s' ∧ raw.resolve? c = some t ∧ raw.Fits c := by
  obtain ⟨_, _, hspan, h₁⟩ := bind_eq_ok.1 h
  rw [span_run] at hspan
  cases hspan
  obtain ⟨_, s₁, hadvance, h₂⟩ := bind_eq_ok.1 h₁
  obtain ⟨scopes₁, hscopes, hholds₁, hproper₁⟩ :=
    exists_subroutineScopes_ok c.name kind s.span (s := s₁) hholds hproper
  rw [bind_of_ok hscopes, bind_of_ok currentKeyword_run] at h₂
  obtain ⟨returnType, s₂, htype, h₃⟩ := returnType_eq_ok.1 h₂
  simp only [bind_eq_ok, pure_eq_ok, identifier_eq_ok, expectSymbol_eq_ok] at h₃
  obtain ⟨⟨name, _⟩, s₃, ⟨hname, -⟩, _, s₄, hopen, ⟨vars, scopes₂⟩, s₅, hparameters, _, s₆, hclose,
    _, s₇, hbrace, ⟨locals, scopes₃⟩, s₈, hlocals, _, s₉, hfields, body, s₁₀, hbody, _, _, hend,
    rfl, rfl⟩ := h₃
  obtain ⟨ps, hps, hmakes⟩ := parameters_sound hholds₁ hproper₁ hparameters
  obtain ⟨ds, hds, hmakesAll⟩ := declarations_sound (fun _ : Unit => .var) (fun _ => .local)
    localKind?_eq_some_iff hmakes.holds hmakes.proper hlocals
  rw [hc] at hmakes hmakesAll
  let header : Syntax.Subroutine := ⟨kind, returnType, name, ps, ds.map (·.2), []⟩
  have henv := Syntax.declareAll_parameters_locals c header
  rw [List.map_map] at henv
  have hholds₃ : scopes₃.Holds (c.site header).environment := henv ▸ hmakesAll.holds
  obtain ⟨hfields_le, rfl⟩ := (checkFields_eq_ok hholds₃).1 hfields
  obtain ⟨statements, hr, hmeans⟩ := statements_sound hholds₃.context_at maxNesting hbody
  have hresolves : Syntax.Statement.resolveAll? (c.site { header with body := statements })
      statements = some body := hmeans.resolves
  refine ⟨{ header with body := statements }, ?_, ?_, henv ▸ hmakesAll.proper, hfields_le,
    hmeans.allowed, hmeans.depth_le⟩
  · have hhead := ((advance_eq_ok_iff hkeyword).1 hadvance).append (htype.append hname)
    have hparens : s₃.Reads (Syntax.inParens _) s₆ := hopen.cons_of (hps.concat hclose)
    have hbraces : s₆.Reads (Syntax.inBraces _) s' := hbrace.cons_of ((hds.append hr).concat hend)
    have := hhead.append (hparens.append hbraces)
    simpa [Syntax.Subroutine.tokens, Syntax.Subroutine.bodyTokens, List.flatMap_map, header] using this
  · rw [Syntax.Subroutine.resolve?, hresolves, hmakes.vars, hmakesAll.declarations]
    simp [header, Syntax.Subroutine.declaredParameters, Function.comp_def]

/-- A first token of statements does not begin another declaration. -/
theorem keyword?_bind_localKind?_eq_none {t : Token} (h : s.current? = some t)
    (ht : t ≠ .keyword .var) : s.keyword?.bind localKind? = none := by
  rw [Option.bind_eq_none_iff]
  intro k hk
  rw [Option.eq_none_iff_forall_ne_some]
  intro kind hkind
  obtain ⟨_, rfl, -⟩ := localKind?_eq_some_iff.1 hkind
  rw [keyword?_eq_some_iff, h] at hk
  exact ht (Option.some.inj hk)

theorem subroutine_complete (hholds : scopes.Holds env) (hproper : env.Proper)
    (hc : env.classLevel = c.declared) {raw : Syntax.Subroutine} (hfits : raw.Fits c)
    (hr : s.Reads raw.tokens s') : ∃ t, (subroutine c.name raw.kind scopes).run s = .ok t s' := by
  obtain ⟨s₁, hkeyword, hr⟩ := reads_cons_iff_exists.1 hr
  obtain ⟨s₂, htype, hr⟩ := reads_cons_iff_exists.1 hr
  obtain ⟨s₃, hname, hr⟩ := reads_cons_iff_exists.1 hr
  obtain ⟨s₆, hparens, hbraces⟩ := reads_append_iff.1 hr
  obtain ⟨s₄, s₅, hopen, hparameters, hclose⟩ := reads_between_iff.1 hparens
  obtain ⟨s₇, s₉, hbrace, hbody, hend⟩ := reads_between_iff.1 hbraces
  obtain ⟨s₈, hlocals, hbody⟩ := reads_append_iff.1 hbody
  obtain ⟨scopes₁, hscopes, hholds₁, hproper₁⟩ :=
    exists_subroutineScopes_ok c.name raw.kind s.span (s := s₁) hholds hproper
  rw [hc] at hholds₁ hproper₁
  have henv := Syntax.declareAll_parameters_locals c raw
  have hproper₃ := hfits.proper
  rw [← henv] at hproper₃
  obtain ⟨⟨vars, scopes₂⟩, hvars, hmakes⟩ :=
    parameters_complete hholds₁ hproper₁ hparameters hclose.current?_eq hproper₃.of_declareAll
  have hfirst : s₈.keyword?.bind localKind? = none := by
    cases hraw : raw.body with
    | nil =>
      rw [hraw] at hbody
      obtain rfl := reads_nil_iff.1 hbody
      exact keyword?_bind_localKind?_eq_none hend.current?_eq (by simp)
    | cons statement statements =>
      obtain ⟨t, ts, hts, -, ht⟩ := statement.exists_tokens_eq_cons
      rw [hraw, Syntax.Statement.tokensAll, hts, List.cons_append] at hbody
      exact keyword?_bind_localKind?_eq_none hbody.current?_eq ht
  have hds : s₇.Reads ((raw.locals.map fun d => ((), d)).flatMap fun d => .keyword .var :: d.2.tokens)
      s₈ := by
    rwa [List.flatMap_map]
  obtain ⟨⟨locals, scopes₃⟩, hlocals, hmakesAll⟩ := declarations_complete (fun _ => .var)
    (fun _ => .local) localKind?_eq_some_iff hmakes.holds hmakes.proper hds hfirst
    (by rwa [List.map_map])
  have hholds₃ := hmakesAll.holds
  rw [List.map_map] at hholds₃
  replace hholds₃ : scopes₃.Holds (c.site raw).environment := henv ▸ hholds₃
  have hcx : (⟨c.name, raw.kind, scopes₃⟩ : Context).At (c.site raw) := hholds₃.context_at
  obtain ⟨body, hbody⟩ := statements_complete hcx maxNesting raw.body hfits.body hbody
    hend.current?_eq
  have hfields : (checkFields c.name raw.kind scopes₃).run s₈ = .ok () s₈ :=
    (checkFields_eq_ok hholds₃).2 ⟨hfits.fields_le, rfl⟩
  rw [subroutine, bind_of_ok span_run, bind_of_ok (advance_of_reads hkeyword), bind_of_ok hscopes,
    bind_of_ok currentKeyword_run]
  refine ⟨⟨raw.kind, raw.returnType, raw.name, vars, locals, body⟩,
    returnType_eq_ok.2 ⟨raw.returnType, s₂, htype, ?_⟩⟩
  rw [bind_of_ok (identifier_of_reads hname)]
  dsimp only
  rw [bind_of_ok (expectSymbol_of_reads hopen), bind_of_ok hvars]
  dsimp only
  rw [bind_of_ok (expectSymbol_of_reads hclose), bind_of_ok (expectSymbol_of_reads hbrace),
    bind_of_ok hlocals]
  dsimp only
  rw [bind_of_ok hfields, bind_of_ok hbody, bind_of_ok (expectSymbol_of_reads hend)]
  rfl

/-! ### Classes -/

theorem subroutineKind?_eq_some_iff {k : Keyword} :
    subroutineKind? k = some kind ↔ k = kind.keyword := by
  cases k <;> cases kind <;> decide

theorem classDeclaration_sound {t : Class} (h : classDeclaration.run s = .ok t s') :
    ∃ c : Syntax.Class, s.Reads c.tokens s' ∧ c.resolve? = some t ∧ c.Fits := by
  simp only [classDeclaration, bind_eq_ok, pure_eq_ok, expectKeyword_eq_ok, identifier_eq_ok,
    expectSymbol_eq_ok] at h
  obtain ⟨_, s₁, hclass, ⟨name, _⟩, s₂, ⟨hname, -⟩, _, s₃, hopen, ⟨declared, scopes⟩, s₄,
    hdeclarations, subroutines, s₅, hsubroutines, _, _, hclose, rfl, rfl⟩ := h
  obtain ⟨ds, hds, hmakes⟩ := declarations_sound Syntax.ClassLevel.keyword Syntax.ClassLevel.kind classLevelKind?_eq_some_iff Scopes.holds_empty
    Environment.proper_empty hdeclarations
  let header : Syntax.Class := ⟨name, ds, []⟩
  have henv := Syntax.declareAll_declared header
  have hholds : scopes.Holds ⟨header.declared, []⟩ := henv ▸ hmakes.holds
  have hproper : (⟨header.declared, []⟩ : Environment).Proper := henv ▸ hmakes.proper
  suffices ∃ raws : List Syntax.Subroutine, s₄.Reads (raws.flatMap Syntax.Subroutine.tokens) s₅ ∧
      List.Forall₂ (fun raw t => raw.resolve? header = some t ∧ raw.Fits header) raws subroutines by
    obtain ⟨raws, hr, hall⟩ := this
    -- The place of a subroutine does not depend on the subroutines of the class.
    obtain ⟨hresolves, hfits⟩ := Syntax.Subroutine.resolveAll?_of_forall₂ (c := ⟨name, ds, raws⟩)
      (hall.imp fun _ _ h => ⟨h.1, h.2.proper, h.2.fields_le, h.2.body⟩)
    refine ⟨⟨name, ds, raws⟩, ?_, ?_, hproper, hfits⟩
    · have hbraces : s₂.Reads (Syntax.inBraces _) s' :=
        hopen.cons_of ((hds.append hr).concat hclose)
      exact hclass.append (hname.append hbraces)
    · rw [Syntax.Class.resolve?, hresolves, hmakes.declarations]
      rfl
  refine many_sound ?_ ?_ hsubroutines
  · intro s t s' h
    obtain ⟨_, _, hkeyword, hrest⟩ := bind_eq_ok.1 h
    rw [currentKeyword_run] at hkeyword
    cases hkeyword
    split at hrest
    · next kind hkind =>
      obtain ⟨k, hk, hkind⟩ := Option.bind_eq_some_iff.1 hkind
      obtain rfl := subroutineKind?_eq_some_iff.1 hkind
      obtain ⟨_, _, hsubroutine, hdone⟩ := bind_eq_ok.1 hrest
      obtain ⟨heq, rfl⟩ := pure_eq_ok.1 hdone
      cases heq
      exact subroutine_sound hholds hproper rfl (keyword?_eq_some_iff.1 hk) hsubroutine
    · cases (pure_eq_ok.1 hrest).1
  · intro s s' h
    obtain ⟨_, _, hkeyword, hrest⟩ := bind_eq_ok.1 h
    rw [currentKeyword_run] at hkeyword
    cases hkeyword
    split at hrest
    · obtain ⟨_, _, -, hdone⟩ := bind_eq_ok.1 hrest
      cases (pure_eq_ok.1 hdone).1
    · exact (pure_eq_ok.1 hrest).2

theorem classDeclaration_complete (hfits : c.Fits) (hr : s.Reads c.tokens s') :
    ∃ t, classDeclaration.run s = .ok t s' := by
  obtain ⟨s₁, hclass, hr⟩ := reads_cons_iff_exists.1 hr
  obtain ⟨s₂, hname, hr⟩ := reads_cons_iff_exists.1 hr
  obtain ⟨s₃, s₅, hopen, hr, hclose⟩ := reads_between_iff.1 hr
  obtain ⟨s₄, hdeclarations, hsubroutines⟩ := reads_append_iff.1 hr
  have henv := Syntax.declareAll_declared c
  have hfirst : s₄.keyword?.bind classLevelKind? = none := by
    cases hc : c.subroutines with
    | nil =>
      rw [hc] at hsubroutines
      obtain rfl := reads_nil_iff.1 hsubroutines
      rw [TokenStream.keyword?, hclose.current?_eq]
      rfl
    | cons raw raws =>
      rw [hc, List.flatMap_cons, Syntax.Subroutine.tokens, List.cons_append] at hsubroutines
      rw [keyword?_eq_some_iff.2 hsubroutines.current?_eq]
      cases raw.kind <;> rfl
  obtain ⟨⟨declared, scopes⟩, hdeclarations, hmakes⟩ := declarations_complete
    Syntax.ClassLevel.keyword Syntax.ClassLevel.kind classLevelKind?_eq_some_iff Scopes.holds_empty Environment.proper_empty hdeclarations hfirst
    (henv ▸ hfits.proper)
  have hholds : scopes.Holds ⟨c.declared, []⟩ := henv ▸ hmakes.holds
  rw [classDeclaration, bind_of_ok (expectKeyword_of_reads hclass),
    bind_of_ok (identifier_of_reads hname)]
  dsimp only
  rw [bind_of_ok (expectSymbol_of_reads hopen), bind_of_ok hdeclarations]
  dsimp only
  suffices ∃ ts, (many _).run s₄ = .ok ts s₅ by
    obtain ⟨ts, hts⟩ := this
    exact ⟨⟨c.name, declared, ts⟩, (bind_of_ok hts).trans (bind_of_ok (expectSymbol_of_reads hclose))⟩
  refine exists_many_ok (fun _ => True) ?_ (fun _ _ => ⟨_, _, rfl, trivial⟩) trivial ?_
    hsubroutines
  · intro raw hraw s s' hr _
    have hkeyword : s.current? = some (.keyword raw.kind.keyword) := hr.current?_eq
    obtain ⟨t, ht⟩ := subroutine_complete hholds hfits.proper rfl (hfits.subroutines raw hraw) hr
    refine ⟨t, ?_⟩
    rw [bind_of_ok currentKeyword_run, keyword?_eq_some_iff.2 hkeyword, Option.bind_some,
      subroutineKind?_eq_some_iff.2 rfl]
    exact bind_of_ok ht
  · have hnone : s₅.keyword? = none := by
      rw [TokenStream.keyword?, hclose.current?_eq]
    rw [bind_of_ok currentKeyword_run, hnone]
    rfl

/-- A program is a class with nothing behind it. -/
theorem program_eq_ok {t : Class} : program.run s = .ok t s' ↔
    s.Live ∧ classDeclaration.run s = .ok t s' ∧ s'.tokens = [] := by
  constructor
  · intro h
    obtain ⟨_, _, hstart, h₁⟩ := bind_eq_ok.1 h
    obtain ⟨hlive, rfl⟩ := start_eq_ok.1 hstart
    obtain ⟨_, s₁, hclass, h₂⟩ := bind_eq_ok.1 h₁
    rw [bind_of_ok current_run] at h₂
    split at h₂
    · obtain ⟨_, _, hunexpected, -⟩ := bind_eq_ok.1 h₂
      exact absurd hunexpected unexpected_ne_ok
    · next hnone =>
      obtain ⟨rfl, rfl⟩ := pure_eq_ok.1 h₂
      rw [Option.not_isSome_iff_eq_none, current?_eq_none_iff] at hnone
      exact ⟨hlive, hclass, hnone⟩
  · rintro ⟨hlive, hclass, hnil⟩
    have hstart : start.run s = .ok () s := start_eq_ok.2 ⟨hlive, rfl⟩
    rw [program, bind_of_ok hstart, bind_of_ok hclass, bind_of_ok current_run,
      current?_eq_none_iff.2 hnil]
    rfl

theorem program_sound {t : Class} (h : program.run s = .ok t s') :
    s.fault? = none ∧
      ∃ c : Syntax.Class, s.tokens.map (·.token) = c.tokens ∧ c.resolve? = some t ∧ c.Fits := by
  obtain ⟨hlive, hclass, hnil⟩ := program_eq_ok.1 h
  obtain ⟨c, hr, hresolves, hfits⟩ := classDeclaration_sound hclass
  refine ⟨?_, c, ?_, hresolves, hfits⟩
  · rw [← hr.fault?_eq]
    exact hr.live hlive hnil
  · rw [hr.map_token, hnil, List.map_nil, List.append_nil]

theorem program_complete (hs : s.fault? = none) (hc : s.tokens.map (·.token) = c.tokens)
    (hfits : c.Fits) : ∃ t s', program.run s = .ok t s' := by
  obtain ⟨s', hr, hnil⟩ := exists_reads hs
  rw [hc] at hr
  obtain ⟨t, ht⟩ := classDeclaration_complete hfits hr
  exact ⟨t, s', program_eq_ok.2 ⟨fun _ => hs, ht, hnil⟩⟩

end Parser
end JackLang
