import JackLang.Parser.Class
import JackLang.Proofs.Environment.Scopes
import JackLang.Proofs.Parser.Reading
import JackLang.Proofs.Syntax.Resolution

/-! The parsers of declarations. They keep the scopes to the declarations read so far
(`Scopes.Holds`), succeed just as long as these are in order (`Environment.Proper`), and answer with
the variables that the declarations make. -/

namespace JackLang.Parser

open TokenStream

variable {s s' : TokenStream} {scopes scopes' : Scopes} {env : Environment}

/-! ### Types -/

theorem type?_run : ∃ type, type?.run s = .ok type s ∧
    ∀ {t : VarType}, type = some t ↔ s.current? = some t.token := by
  rw [type?, bind_of_ok current_run]
  split
  case h_5 h₁ h₂ h₃ h₄ =>
    refine ⟨none, rfl, fun {t} => iff_of_false nofun fun ht => ?_⟩
    cases t with
    | int => exact h₁ ht
    | char => exact h₂ ht
    | boolean => exact h₃ ht
    | object name => exact h₄ _ ht
  all_goals
    refine ⟨some _, rfl, fun {t} => ?_⟩
    cases t <;> simp_all [VarType.token]

theorem type_eq_ok {t : VarType} : type.run s = .ok t s' ↔ s.Reads [t.token] s' := by
  obtain ⟨t?, hrun, ht?⟩ := type?_run (s := s)
  rw [type, bind_of_ok hrun]
  cases t? with
  | none =>
    refine iff_of_false unexpected_ne_ok fun hr => ?_
    cases ht?.2 hr.current?_eq
  | some t' =>
    have ht' := ht?.1 rfl
    rw [bind_eq_ok]
    refine ⟨?_, fun hr => ?_⟩
    · rintro ⟨_, _, hadvance, h⟩
      obtain ⟨rfl, rfl⟩ := pure_eq_ok.1 h
      exact (advance_eq_ok_iff ht').1 hadvance
    · cases ht?.2 hr.current?_eq
      exact ⟨(), s', advance_of_reads hr, rfl⟩

/-! ### Items -/

/-- Variables and scopes as some declarations make them. -/
structure Makes (env : Environment) (ds : List Declared) (vars : List Variable) (scopes : Scopes) :
    Prop where
  proper : (env.declareAll ds).Proper
  holds : scopes.Holds (env.declareAll ds)
  vars : vars = env.nextAll ds

theorem makes_nil (hholds : scopes.Holds env) (hproper : env.Proper) : Makes env [] [] scopes :=
  ⟨hproper, hholds, rfl⟩

theorem Makes.concat {ds : List Declared} {d : Declared} {vars : List Variable}
    (h : Makes env ds vars scopes) (hd : ((env.declareAll ds).declare d).Proper) :
    Makes env (ds ++ [d]) (vars ++ [(env.declareAll ds).next d])
      (scopes.insert ((env.declareAll ds).next d)) := by
  refine ⟨?_, ?_, ?_⟩
  · rwa [Environment.declareAll_append]
  · rw [Environment.declareAll_append]
    exact h.holds.insert_next h.proper hd
  · rw [Environment.nextAll_append, ← h.vars]
    rfl

/-- A parser that declares one variable, which the tokens of an item tell. -/
def DeclaresItem {β : Type} (item : Scopes → Parser (Variable × Scopes)) (tokens : β → List Token)
    (declared : β → Declared) : Prop :=
  ∀ ⦃env scopes⦄, scopes.Holds env → env.Proper → ∀ ⦃s result s'⦄,
    (item scopes).run s = .ok result s' ↔ ∃ b, s.Reads (tokens b) s' ∧
      (env.declare (declared b)).Proper ∧
      result = (env.next (declared b), scopes.insert (env.next (declared b)))

theorem declare_eq_ok_iff (hholds : scopes.Holds env) (hproper : env.Proper) {name : String}
    {type : VarType} {kind : VarKind} {place : Span} {result : Variable × Scopes} :
    (match Scopes.declare name type kind place scopes with
      | .ok v scopes => return (v, scopes)
      | .error fault _ => throw fault : Parser (Variable × Scopes)).run s = .ok result s' ↔
      (env.declare ⟨name, type, kind⟩).Proper ∧
        result = (env.next ⟨name, type, kind⟩, scopes.insert (env.next ⟨name, type, kind⟩)) ∧
        s' = s := by
  split
  · next v scopes' hdeclare =>
    obtain ⟨hproper, rfl, rfl⟩ := (hholds.declare_eq_ok_iff hproper).1 hdeclare
    rw [pure_eq_ok]
    exact (and_iff_right hproper).symm
  · next fault _ hdeclare =>
    refine iff_of_false throw_ne_ok fun ⟨hproper', _⟩ => ?_
    cases hdeclare.symm.trans ((hholds.declare_eq_ok_iff hproper).2 ⟨hproper', rfl, rfl⟩)

theorem declaredName_declares (type : VarType) (kind : VarKind) :
    DeclaresItem (declaredName · type kind) (fun name => [.identifier name]) (⟨·, type, kind⟩) := by
  intro env scopes hholds hproper s result s'
  change (declaredName scopes type kind).run s = _ ↔ _
  rw [declaredName, bind_eq_ok]
  refine ⟨?_, ?_⟩
  · rintro ⟨⟨name, place⟩, s₁, hname, h⟩
    obtain ⟨hr, -⟩ := identifier_eq_ok.1 hname
    obtain ⟨hd, hresult, rfl⟩ := (declare_eq_ok_iff hholds hproper).1 h
    exact ⟨name, hr, hd, hresult⟩
  · rintro ⟨name, hr, hd, hresult⟩
    exact ⟨(name, s.span), s', identifier_of_reads hr,
      (declare_eq_ok_iff hholds hproper).2 ⟨hd, hresult, rfl⟩⟩

theorem parameter_declares :
    DeclaresItem parameter Syntax.Parameter.tokens (fun p => ⟨p.name, p.type, .argument⟩) := by
  intro env scopes hholds hproper s result s'
  simp only [parameter, bind_eq_ok, type_eq_ok, declaredName_declares _ _ hholds hproper]
  refine ⟨?_, ?_⟩
  · rintro ⟨type, s₁, hr, name, hr', hd, hresult⟩
    exact ⟨⟨type, name⟩, hr.append hr', hd, hresult⟩
  · rintro ⟨p, hr, hd, hresult⟩
    obtain ⟨s₁, hr, hr'⟩ := reads_cons_iff_exists.1 hr
    exact ⟨p.type, s₁, hr, p.name, hr', hd, hresult⟩

section declaredItems

variable {β : Type} {item : Scopes → Parser (Variable × Scopes)} {tokens : β → List Token}
  {declared : β → Declared} (hitem : DeclaresItem item tokens declared)

include hitem

theorem declaredItems_sound (hholds : scopes.Holds env) (hproper : env.Proper)
    {vars : List Variable} (h : (declaredItems item scopes).run s = .ok (vars, scopes') s') :
    ∃ b bs, s.Reads (Syntax.withCommas ((b :: bs).map tokens)) s' ∧
      Makes env ((b :: bs).map declared) vars scopes' := by
  simp only [declaredItems, bind_eq_ok] at h
  obtain ⟨⟨first, scopes₁⟩, s₁, hfirst, ⟨vars', scopes₂⟩, _, hiterate, h⟩ := h
  obtain ⟨heq, rfl⟩ := pure_eq_ok.1 h
  cases heq
  obtain ⟨b, hr, hd, hresult⟩ := (hitem hholds hproper).1 hfirst
  cases hresult
  suffices ∃ bs, s.Reads (tokens b ++ bs.flatMap fun b => .symbol .comma :: tokens b) s' ∧
      Makes env ((b :: bs).map declared) vars'.reverse scopes₂ by
    obtain ⟨bs, hr, hmakes⟩ := this
    refine ⟨b, bs, ?_, hmakes⟩
    rwa [List.map_cons, Syntax.withCommas, List.flatMap_map]
  refine iterate_sound (I := fun state s₁ => ∃ bs,
    s.Reads (tokens b ++ bs.flatMap fun b => .symbol .comma :: tokens b) s₁ ∧
      Makes env ((b :: bs).map declared) state.1.reverse state.2) ?_ ?_ hiterate
  · rintro ⟨vars, scopes⟩ s₁ r s₂ ⟨bs, hr, hmakes⟩ hstep
    obtain ⟨_, s₃, hcomma, hrest⟩ := bind_eq_ok.1 hstep
    obtain ⟨rfl, hr'⟩ | ⟨rfl, -, rfl⟩ := comma_eq_ok.1 hcomma
    · obtain ⟨_, s₄, hv, hdone⟩ := bind_eq_ok.1 hrest
      obtain ⟨rfl, rfl⟩ := pure_eq_ok.1 hdone
      obtain ⟨b', hr'', hd', rfl⟩ := (hitem hmakes.holds hmakes.proper).1 hv
      refine ⟨bs ++ [b'], ?_, ?_⟩
      · have := hr.append (hr'.cons_of hr'')
        simpa using this
      · have := hmakes.concat hd'
        simpa [ForInStep.value] using this
    · obtain ⟨rfl, rfl⟩ := pure_eq_ok.1 hrest
      exact ⟨bs, hr, hmakes⟩
  · exact ⟨[], by simpa using hr, (makes_nil hholds hproper).concat hd⟩

theorem declaredItems_complete (hholds : scopes.Holds env) (hproper : env.Proper) {b : β}
    {bs : List β} (hr : s.Reads (Syntax.withCommas ((b :: bs).map tokens)) s')
    (hend : s'.current? ≠ some (.symbol .comma))
    (hproper' : (env.declareAll ((b :: bs).map declared)).Proper) :
    ∃ result, (declaredItems item scopes).run s = .ok result s' ∧
      Makes env ((b :: bs).map declared) result.1 result.2 := by
  rw [List.map_cons, Syntax.withCommas, List.flatMap_map, reads_append_iff] at hr
  obtain ⟨s₁, hfirst, hrest⟩ := hr
  rw [List.map_cons, Environment.declareAll_cons] at hproper'
  have hd := hproper'.of_declareAll
  have hrun := (hitem hholds hproper).2 ⟨b, hfirst, hd, rfl⟩
  rw [declaredItems, bind_of_ok hrun]
  let I (cs : List β) (state : List Variable × Scopes) (s₁ : TokenStream) : Prop :=
    ∃ done, done ++ cs = bs ∧ s₁.Reads (cs.flatMap fun b => .symbol .comma :: tokens b) s' ∧
      Makes env ((b :: done).map declared) state.1.reverse state.2
  refine exists_bind_ok
    (P := fun state => Makes env ((b :: bs).map declared) state.1.reverse state.2)
    (exists_iterate_ok (I := I) ?_ ?_ ⟨[], rfl, hrest, (makes_nil hholds hproper).concat hd⟩)
    fun state hmakes => ⟨(state.1.reverse, state.2), rfl, hmakes⟩
  · rintro ⟨vars, scopes⟩ s₁ ⟨done, hdone, hr, hmakes⟩
    rw [List.append_nil] at hdone
    refine ⟨(reads_nil_iff.1 hr).symm, hdone ▸ hmakes, ?_⟩
    exact bind_of_ok (comma_eq_ok.2 (.inr ⟨rfl, hend, rfl⟩))
  · rintro c cs ⟨vars, scopes⟩ s₁ ⟨done, hdone, hr, hmakes⟩
    obtain ⟨s₂, hr, hcs⟩ := reads_append_iff.1 hr
    obtain ⟨s₃, hcomma, hc⟩ := reads_cons_iff_exists.1 hr
    have hdeclared : (b :: bs).map declared =
        (b :: done).map declared ++ (declared c :: cs.map declared) := by
      rw [← hdone]
      simp
    have hdc : ((env.declareAll ((b :: done).map declared)).declare (declared c)).Proper := by
      rw [← Environment.declareAll_cons, ← List.map_cons, hdeclared, Environment.declareAll_append,
        Environment.declareAll_cons] at hproper'
      exact hproper'.of_declareAll
    have hrun := (hitem hmakes.holds hmakes.proper).2 ⟨c, hc, hdc, rfl⟩
    let v := (env.declareAll ((b :: done).map declared)).next (declared c)
    refine ⟨(v :: vars, scopes.insert v), s₂, ?_, ?_, ?_⟩
    · rw [bind_of_ok (comma_eq_ok.2 (.inl ⟨rfl, hcomma⟩)), if_pos rfl]
      exact bind_of_ok hrun
    · refine ⟨done ++ [c], by simpa using hdone, hcs, ?_⟩
      have := hmakes.concat hdc
      simpa [v] using this
    · have := hr.length_le
      rw [List.length_cons] at this
      omega

end declaredItems

/-! ### Declarations -/

/-- Declarations and scopes as those of some kinds make them. -/
structure MakesAll (env : Environment) (ds : List (VarKind × Syntax.Declaration))
    (declarations : List Declaration) (scopes : Scopes) : Prop where
  proper : (env.declareAll (Syntax.Declaration.declaredAll ds)).Proper
  holds : scopes.Holds (env.declareAll (Syntax.Declaration.declaredAll ds))
  declarations : declarations = Syntax.Declaration.resolveAll env ds

theorem makesAll_nil (hholds : scopes.Holds env) (hproper : env.Proper) : MakesAll env [] [] scopes :=
  ⟨hproper, hholds, rfl⟩

theorem MakesAll.concat {ds : List (VarKind × Syntax.Declaration)} {d : VarKind × Syntax.Declaration}
    {declarations : List Declaration} {vars : List Variable} (h : MakesAll env ds declarations scopes)
    (hd : Makes (env.declareAll (Syntax.Declaration.declaredAll ds)) (d.2.declared d.1) vars scopes') :
    MakesAll env (ds ++ [d]) (declarations ++ [⟨d.1, d.2.type, vars⟩]) scopes' := by
  have hdeclared : env.declareAll (Syntax.Declaration.declaredAll (ds ++ [d])) =
      (env.declareAll (Syntax.Declaration.declaredAll ds)).declareAll (d.2.declared d.1) := by
    rw [Syntax.Declaration.declaredAll, List.flatMap_append, Environment.declareAll_append]
    simp [Syntax.Declaration.declaredAll]
  refine ⟨?_, ?_, ?_⟩
  · rw [hdeclared]
    exact hd.proper
  · rw [hdeclared]
    exact hd.holds
  · rw [Syntax.Declaration.resolveAll_append, ← h.declarations, hd.vars]
    rfl

theorem declaration_sound (hholds : scopes.Holds env) (hproper : env.Proper) {kind : VarKind}
    {d : Declaration} (h : (declaration kind scopes).run s = .ok (d, scopes') s') :
    ∃ (raw : Syntax.Declaration) (vars : List Variable), s.Reads raw.tokens s' ∧
      Makes env (raw.declared kind) vars scopes' ∧ d = ⟨kind, raw.type, vars⟩ := by
  simp only [declaration, bind_eq_ok, pure_eq_ok, type_eq_ok, expectSymbol_eq_ok] at h
  obtain ⟨type, s₁, htype, ⟨vars, scopes₁⟩, s₂, hvars, _, _, hsemicolon, heq, rfl⟩ := h
  cases heq
  obtain ⟨first, rest, hr, hmakes⟩ :=
    declaredItems_sound (declaredName_declares type kind) hholds hproper hvars
  exact ⟨⟨type, first, rest⟩, vars, htype.cons_of (hr.concat hsemicolon), hmakes, rfl⟩

theorem declaration_complete (hholds : scopes.Holds env) (hproper : env.Proper) {kind : VarKind}
    {raw : Syntax.Declaration} (hr : s.Reads raw.tokens s')
    (hproper' : (env.declareAll (raw.declared kind)).Proper) :
    ∃ result, (declaration kind scopes).run s = .ok result s' ∧
      ∃ vars, Makes env (raw.declared kind) vars result.2 ∧ result.1 = ⟨kind, raw.type, vars⟩ := by
  obtain ⟨s₁, htype, hr⟩ := reads_cons_iff_exists.1 hr
  obtain ⟨s₂, hr, hsemicolon⟩ := reads_append_iff.1 hr
  rw [declaration, bind_of_ok (type_eq_ok.2 htype)]
  refine exists_bind_ok (declaredItems_complete (declaredName_declares raw.type kind) hholds hproper
    hr ?_ hproper') ?_
  · rw [hsemicolon.current?_eq]
    simp
  · rintro ⟨vars, scopes'⟩ hmakes
    exact ⟨_, bind_of_ok (expectSymbol_of_reads hsemicolon), vars, hmakes, rfl⟩

section declarations

variable {κ : Type} {kind? : Keyword → Option VarKind} (keyword : κ → Keyword) (kind : κ → VarKind)

theorem declarations_sound
    (hkind? : ∀ {k v}, kind? k = some v ↔ ∃ x, keyword x = k ∧ kind x = v)
    (hholds : scopes.Holds env) (hproper : env.Proper) {declared : List Declaration}
    (h : (declarations kind? scopes).run s = .ok (declared, scopes') s') :
    ∃ ds : List (κ × Syntax.Declaration),
      s.Reads (ds.flatMap fun d => .keyword (keyword d.1) :: d.2.tokens) s' ∧
      MakesAll env (ds.map fun d => (kind d.1, d.2)) declared scopes' := by
  obtain ⟨⟨done, scopes₁⟩, _, hiterate, h⟩ := bind_eq_ok.1 h
  obtain ⟨heq, rfl⟩ := pure_eq_ok.1 h
  cases heq
  refine iterate_sound (I := fun state s₁ => ∃ ds : List (κ × Syntax.Declaration),
    s.Reads (ds.flatMap fun d => .keyword (keyword d.1) :: d.2.tokens) s₁ ∧
      MakesAll env (ds.map fun d => (kind d.1, d.2)) state.1.reverse state.2) ?_ ?_ hiterate
  · rintro ⟨done, scopes⟩ s₁ r s₂ ⟨ds, hr, hmakes⟩ hstep
    obtain ⟨_, _, hkeyword, hrest⟩ := bind_eq_ok.1 hstep
    rw [currentKeyword_run] at hkeyword
    cases hkeyword
    split at hrest
    · next kind hkind =>
      obtain ⟨k, hk, hkind⟩ := Option.bind_eq_some_iff.1 hkind
      obtain ⟨x, rfl, rfl⟩ := hkind?.1 hkind
      rw [keyword?_eq_some_iff] at hk
      obtain ⟨_, s₃, hadvance, hrest⟩ := bind_eq_ok.1 hrest
      obtain ⟨⟨d, scopes'⟩, _, hd, hdone⟩ := bind_eq_ok.1 hrest
      obtain ⟨rfl, rfl⟩ := pure_eq_ok.1 hdone
      obtain ⟨raw, vars, hr', hmakes', rfl⟩ := declaration_sound hmakes.holds hmakes.proper hd
      refine ⟨ds ++ [(x, raw)], ?_, ?_⟩
      · have := hr.append (((advance_eq_ok_iff hk).1 hadvance).cons_of hr')
        simpa using this
      · have := hmakes.concat (d := (kind x, raw)) hmakes'
        simpa [ForInStep.value] using this
    · obtain ⟨rfl, rfl⟩ := pure_eq_ok.1 hrest
      exact ⟨ds, hr, hmakes⟩
  · exact ⟨[], .nil, makesAll_nil hholds hproper⟩

theorem declarations_complete
    (hkind? : ∀ {k v}, kind? k = some v ↔ ∃ x, keyword x = k ∧ kind x = v)
    (hholds : scopes.Holds env) (hproper : env.Proper) {ds : List (κ × Syntax.Declaration)}
    (hr : s.Reads (ds.flatMap fun d => .keyword (keyword d.1) :: d.2.tokens) s')
    (hend : s'.keyword?.bind kind? = none)
    (hproper' : (env.declareAll
      (Syntax.Declaration.declaredAll (ds.map fun d => (kind d.1, d.2)))).Proper) :
    ∃ result, (declarations kind? scopes).run s = .ok result s' ∧
      MakesAll env (ds.map fun d => (kind d.1, d.2)) result.1 result.2 := by
  let I (cs : List (κ × Syntax.Declaration)) (state : List Declaration × Scopes)
      (s₁ : TokenStream) : Prop :=
    ∃ done, done ++ cs = ds ∧
      s₁.Reads (cs.flatMap fun d => .keyword (keyword d.1) :: d.2.tokens) s' ∧
      MakesAll env (done.map fun d => (kind d.1, d.2)) state.1.reverse state.2
  refine exists_bind_ok
    (P := fun state => MakesAll env (ds.map fun d => (kind d.1, d.2)) state.1.reverse state.2)
    (exists_iterate_ok (I := I) ?_ ?_ ⟨[], rfl, hr, makesAll_nil hholds hproper⟩)
    fun state hmakes => ⟨(state.1.reverse, state.2), rfl, hmakes⟩
  · rintro ⟨done', scopes⟩ s₁ ⟨done, hdone, hr, hmakes⟩
    rw [List.append_nil] at hdone
    refine ⟨(reads_nil_iff.1 hr).symm, hdone ▸ hmakes, ?_⟩
    rw [bind_of_ok currentKeyword_run, hend]
    rfl
  · rintro ⟨x, raw⟩ cs ⟨done', scopes⟩ s₁ ⟨done, hdone, hr, hmakes⟩
    obtain ⟨s₂, hr, hcs⟩ := reads_append_iff.1 hr
    obtain ⟨s₃, hkeyword, hraw⟩ := reads_cons_iff_exists.1 hr
    have hproper'' : ((env.declareAll (Syntax.Declaration.declaredAll
        (done.map fun d => (kind d.1, d.2)))).declareAll (raw.declared (kind x))).Proper := by
      rw [← hdone, List.map_append, Syntax.Declaration.declaredAll, List.flatMap_append,
        Environment.declareAll_append, List.map_cons, List.flatMap_cons,
        Environment.declareAll_append] at hproper'
      exact hproper'.of_declareAll
    obtain ⟨⟨d, scopes'⟩, hrun, vars, hmakes', rfl⟩ :=
      declaration_complete hmakes.holds hmakes.proper hraw hproper''
    refine ⟨(⟨kind x, raw.type, vars⟩ :: done', scopes'), s₂, ?_, ?_, ?_⟩
    · rw [bind_of_ok currentKeyword_run, keyword?_eq_some_iff.2 hkeyword.current?_eq,
        Option.bind_some, hkind?.2 ⟨x, rfl, rfl⟩]
      dsimp only
      rw [bind_of_ok (advance_of_reads hkeyword)]
      exact bind_of_ok hrun
    · refine ⟨done ++ [(x, raw)], by simpa using hdone, hcs, ?_⟩
      have := hmakes.concat (d := (kind x, raw)) hmakes'
      simpa using this
    · have := hr.length_le
      rw [List.length_cons] at this
      omega

end declarations

theorem classLevelKind?_eq_some_iff {k : Keyword} {kind : VarKind} :
    classLevelKind? k = some kind ↔ ∃ level : Syntax.ClassLevel, level.keyword = k ∧ level.kind = kind := by
  refine ⟨fun h => ?_, ?_⟩
  · cases k <;> cases h
    · exact ⟨.field, rfl, rfl⟩
    · exact ⟨.static, rfl, rfl⟩
  · rintro ⟨level, rfl, rfl⟩
    cases level <;> rfl

theorem localKind?_eq_some_iff {k : Keyword} {kind : VarKind} :
    localKind? k = some kind ↔ ∃ _ : Unit, Keyword.var = k ∧ VarKind.local = kind := by
  refine ⟨fun h => ?_, ?_⟩
  · cases k <;> cases h
    exact ⟨(), rfl, rfl⟩
  · rintro ⟨_, rfl, rfl⟩
    rfl

end JackLang.Parser
