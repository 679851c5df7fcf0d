import JackLang.Proofs.Engine.Statement
import JackLang.Proofs.Parser.Class

/-! Declarations. The engine declares what the parser declares (`Engine.Follows.declarations`,
`Engine.Follows.parameters`), so that names stand for the same variables to both. -/

namespace JackLang

/-! ### Declaring -/

namespace Scopes

variable {s : Scopes} {v : Variable} {vars : List Variable}

theorem named_empty : ({} : Scopes).Named where
  classLevel h := by simp at h
  subroutineLevel h := by simp at h

theorem Named.enterSubroutine (h : s.Named) : s.enterSubroutine.Named where
  classLevel := h.classLevel
  subroutineLevel h' := by simp [Scopes.enterSubroutine] at h'

theorem name_of_getElem?_insert {m : Std.HashMap String Variable}
    (h : ∀ {name : String} {v : Variable}, m[name]? = some v → v.name = name) {name : String}
    {v' : Variable} (h' : (m.insert v.name v)[name]? = some v') : v'.name = name := by
  rw [Std.HashMap.getElem?_insert] at h'
  split at h'
  · next hname =>
    cases h'
    exact eq_of_beq hname
  · exact h h'

theorem Named.insert (h : s.Named) : (s.insert v).Named := by
  rw [Scopes.insert]
  split
  · exact ⟨name_of_getElem?_insert h.classLevel, h.subroutineLevel⟩
  · exact ⟨h.classLevel, name_of_getElem?_insert h.subroutineLevel⟩

/-- No name of a subroutine hides one of the class. -/
def Bare (s : Scopes) : Prop := ∀ name : String, s.subroutineLevel[name]? = none

theorem Bare.insert (h : s.Bare) (hv : v.kind.isClassLevel) : (s.insert v).Bare := by
  rw [Scopes.insert, if_pos hv]
  exact h

/-- A declared name stands for its variable. -/
theorem find?_insert_self (h : v.kind.isClassLevel → s.Bare) :
    (s.insert v).find? v.name = some v := by
  rw [Scopes.insert]
  split
  · next hv => simp [find?, h hv v.name]
  · simp [find?]

theorem count_insert (kind : VarKind) :
    (s.insert v).count kind = s.count kind + if v.kind = kind then 1 else 0 := by
  rw [Scopes.insert]
  split <;> exact Counts.get_increase ..

/-- The scopes with some variables declared one after the other. -/
def insertAll (s : Scopes) (vars : List Variable) : Scopes := vars.foldl insert s

theorem insertAll_append (s : Scopes) (vars vars' : List Variable) :
    s.insertAll (vars ++ vars') = (s.insertAll vars).insertAll vars' := List.foldl_append

theorem Named.insertAll (h : s.Named) : (s.insertAll vars).Named := by
  induction vars generalizing s with
  | nil => exact h
  | cons v vars ih => exact ih h.insert

theorem Bare.insertAll (h : s.Bare) (hvars : ∀ v ∈ vars, v.kind.isClassLevel) :
    (s.insertAll vars).Bare := by
  induction vars generalizing s with
  | nil => exact h
  | cons v vars ih =>
    obtain ⟨hv, hvars⟩ := List.forall_mem_cons.1 hvars
    exact ih (h.insert hv) hvars

theorem count_insertAll (kind : VarKind) :
    (s.insertAll vars).count kind = s.count kind + vars.countP (·.kind = kind) := by
  induction vars generalizing s with
  | nil => rfl
  | cons v vars ih =>
    rw [insertAll, List.foldl_cons, ← insertAll, ih, count_insert, List.countP_cons]
    simp only [decide_eq_true_eq]
    omega

/-- Entering a subroutine forgets the names of the one before. -/
theorem enterSubroutine_insertAll (hvars : ∀ v ∈ vars, ¬ v.kind.isClassLevel) :
    (s.insertAll vars).enterSubroutine = s.enterSubroutine := by
  induction vars generalizing s with
  | nil => rfl
  | cons v vars ih =>
    obtain ⟨hv, hvars⟩ := List.forall_mem_cons.1 hvars
    rw [insertAll, List.foldl_cons, ← insertAll, ih hvars, insert, if_neg hv]
    cases hkind : v.kind with
    | static | field => rw [hkind] at hv; exact absurd rfl hv
    | argument | «local» => rfl

end Scopes

namespace Ledger

variable (l : Ledger)

/-- Other names in scope. -/
def within (s : Scopes) : Ledger := { l with scopes := s }

@[simp] theorem within_traced (s : Scopes) (f : Trace.Events → Trace.Events) :
    (l.traced f).within s = (l.within s).traced f := rfl

@[simp] theorem within_emitted (s : Scopes) (f : Emission → Emission) :
    (l.emitted f).within s = (l.within s).emitted f := rfl

@[simp] theorem within_within (s s' : Scopes) : (l.within s).within s' = l.within s' := rfl

end Ledger

/-- The trace of variables being declared, with commas between them. -/
def Declaration.traceItems (trace : Variable → Trace.Events → Trace.Events) :
    List Variable → Trace.Events → Trace.Events
  | [], events => events
  | v :: rest, events =>
    rest.foldl (fun events v => trace v (events.symbol .comma)) (trace v events)

theorem Declaration.traceItems_concat (trace : Variable → Trace.Events → Trace.Events)
    {vars : List Variable} (hvars : vars ≠ []) (v : Variable) : traceItems trace (vars ++ [v]) =
      fun events => trace v ((traceItems trace vars events).symbol .comma) := by
  funext events
  cases vars with
  | nil => exact absurd rfl hvars
  | cons first rest => exact List.foldl_append

/-- Variables are counted where they are declared. -/
theorem Declaration.countP_vars {ds : List Declaration}
    (hkinds : ∀ d ∈ ds, ∀ v ∈ d.vars, v.kind = d.kind) (kind : VarKind) :
    (ds.flatMap (·.vars)).countP (·.kind = kind) = Declaration.count kind ds := by
  rw [Declaration.count]
  induction ds with
  | nil => rfl
  | cons d ds ih =>
    obtain ⟨hd, hds⟩ := List.forall_mem_cons.1 hkinds
    rw [List.flatMap_cons, List.countP_append, ih hds, List.filter_cons]
    by_cases hkind : d.kind = kind
    · rw [if_pos (decide_eq_true hkind), List.flatMap_cons, List.length_append,
        List.countP_eq_length.2]
      intro v hv
      rw [hd v hv]
      exact decide_eq_true hkind
    · rw [if_neg (by simpa using hkind), List.countP_eq_zero.2, Nat.zero_add]
      intro v hv
      rw [hd v hv]
      simpa using hkind

/-! ### Declared variables -/

/-- Some variables of a kind are declared and noted. -/
structure Ledger.Declares (l : Ledger) (kind : VarKind)
    (trace : Variable → Trace.Events → Trace.Events) (vars : List Variable) (scopes : Scopes)
    (l' : Ledger) : Prop where
  kinds : ∀ v ∈ vars, v.kind = kind
  scopes_eq : scopes = l.scopes.insertAll vars
  ledger_eq : l' = (l.within scopes).traced (Declaration.traceItems trace vars)

namespace Ledger.Declares

variable {l l₁ l₂ : Ledger} {kind : VarKind} {trace : Variable → Trace.Events → Trace.Events}
  {vars : List Variable} {v : Variable} {scopes scopes' : Scopes}

theorem scopes_ledger (h : l.Declares kind trace vars scopes l₁) : l₁.scopes = scopes := by
  rw [h.ledger_eq]
  rfl

theorem bare (h : l.Declares kind trace vars scopes l₁) (hl : kind.isClassLevel → l.scopes.Bare)
    (hkind : kind.isClassLevel) : scopes.Bare :=
  h.scopes_eq ▸ (hl hkind).insertAll fun v hv => h.kinds v hv ▸ hkind

/-- One more variable, behind a comma. -/
theorem concat (h : l.Declares kind trace vars scopes l₁) (hvars : vars ≠ [])
    (hnext : (l₁.traced (·.symbol .comma)).Declares kind trace [v] scopes' l₂) :
    l.Declares kind trace (vars ++ [v]) scopes' l₂ where
  kinds := List.forall_mem_append.2 ⟨h.kinds, hnext.kinds⟩
  scopes_eq := by
    rw [hnext.scopes_eq, h.ledger_eq, Scopes.insertAll_append, ← h.scopes_eq]
    rfl
  ledger_eq := by
    rw [hnext.ledger_eq, h.ledger_eq, Declaration.traceItems_concat trace hvars]
    simp only [traced_traced, within_traced, within_within]
    rfl

end Ledger.Declares

/-- Some declarations, each of a kind that `kind?` gives, are made and noted. -/
structure Ledger.DeclaresAll (l : Ledger) (kind? : Keyword → Option VarKind)
    (ds : List Declaration) (scopes : Scopes) (l' : Ledger) : Prop where
  kinds : ∀ d ∈ ds, (∃ k, kind? k = some d.kind) ∧ ∀ v ∈ d.vars, v.kind = d.kind
  scopes_eq : scopes = l.scopes.insertAll (ds.flatMap (·.vars))
  ledger_eq : l' =
    (l.within scopes).traced fun events => ds.foldl (fun events d => d.trace events) events

namespace Ledger.DeclaresAll

variable {l l₁ l₂ : Ledger} {kind? : Keyword → Option VarKind} {ds : List Declaration}
  {scopes scopes' : Scopes} {level : Bool}

theorem nil : l.DeclaresAll kind? [] l.scopes l := ⟨by simp, rfl, l.traced_id.symm⟩

theorem scopes_ledger (h : l.DeclaresAll kind? ds scopes l₁) : l₁.scopes = scopes := by
  rw [h.ledger_eq]
  rfl

theorem isClassLevel_eq (h : l.DeclaresAll kind? ds scopes l₁)
    (hlevel : ∀ {k kind}, kind? k = some kind → kind.isClassLevel = level) :
    ∀ v ∈ ds.flatMap (·.vars), v.kind.isClassLevel = level := by
  intro v hv
  obtain ⟨d, hd, hv⟩ := List.mem_flatMap.1 hv
  obtain ⟨⟨k, hk⟩, hvars⟩ := h.kinds d hd
  rw [hvars v hv]
  exact hlevel hk

theorem bare (h : l.DeclaresAll kind? ds scopes l₁)
    (hlevel : ∀ {k kind}, kind? k = some kind → kind.isClassLevel = level)
    (hl : level = true → l.scopes.Bare) (hclass : level = true) : scopes.Bare :=
  h.scopes_eq ▸ (hl hclass).insertAll fun v hv => (h.isClassLevel_eq hlevel v hv).trans hclass

/-- One more declaration. -/
theorem concat (h : l.DeclaresAll kind? ds scopes l₁) {d : Declaration}
    (hnext : l₁.DeclaresAll kind? [d] scopes' l₂) : l.DeclaresAll kind? (ds ++ [d]) scopes' l₂ where
  kinds := List.forall_mem_append.2 ⟨h.kinds, hnext.kinds⟩
  scopes_eq := by
    rw [hnext.scopes_eq, h.scopes_ledger, h.scopes_eq, List.flatMap_append, Scopes.insertAll_append]
  ledger_eq := by
    rw [hnext.ledger_eq, h.ledger_eq]
    simp

/-- The variables of a kind are as many as their scope counts more. -/
theorem count_eq (h : l.DeclaresAll kind? ds scopes l₁) (kind : VarKind) :
    scopes.count kind = l.scopes.count kind + Declaration.count kind ds := by
  rw [h.scopes_eq, Scopes.count_insertAll, Declaration.countP_vars fun d hd => (h.kinds d hd).2]

end Ledger.DeclaresAll

namespace Engine.Follows

variable {stream : TokenStream} {l : Ledger}

/-! ### Types and names -/

theorem type :
    Follows ⟨stream, l⟩ Engine.type Parser.type fun t t' l' => t' = t ∧ l' = l.traced t.trace := by
  obtain ⟨t?, hrun, ht?⟩ := Parser.type?_run (s := stream)
  rw [Engine.type, Parser.type]
  refine peek hrun ?_
  cases t? with
  | none => exact unexpected _
  | some t =>
    have hadvance {l} := advance (l := l) (ht?.1 rfl)
    cases t with
    | int | char | boolean => exact hadvance.next fun _ _ _ => pure ⟨rfl, rfl⟩
    | object name => exact noteName (by simp) (hadvance.next fun _ _ _ => pure ⟨rfl, rfl⟩)

/-- Both declare a name, or meet the same fault of the declaration. -/
theorem declare {α β : Type} {post : α → β → Ledger → Prop} {name : String} {type : VarType}
    {kind : VarKind} {span : Span} {f : Unit → Engine β} {g : Variable → Scopes → Parser α}
    (hf : ∀ v : Variable, v.name = name → v.type = type → v.kind = kind →
      Follows ⟨stream, l.within (l.scopes.insert v)⟩ (f ()) (g v (l.scopes.insert v)) post) :
    Follows ⟨stream, l⟩ (Engine.declare name type kind span >>= f)
      (match Scopes.declare name type kind span l.scopes with
        | .ok v scopes => g v scopes
        | .error fault _ => MonadExcept.throw fault) post := by
  intro hs
  rw [EStateM.run_bind]
  simp only [EStateM.run, Engine.declare, Scopes.declare]
  by_cases hdeclared : l.scopes.declares kind name = true
  · simp only [if_pos hdeclared]
    exact .error
  · by_cases hroom : maxCount ≤ l.scopes.count kind
    · simp only [if_neg hdeclared, if_pos hroom]
      exact .error
    · simp only [if_neg hdeclared, if_neg hroom]
      exact hf _ rfl rfl rfl hs

/-- A name is declared, which nothing hides. -/
theorem declaredName {type : VarType} {kind : VarKind} (hbare : kind.isClassLevel → l.scopes.Bare) :
    Follows ⟨stream, l⟩ (Engine.declaredName type kind) (Parser.declaredName l.scopes type kind)
      fun declared _ l' => declared.1.type = type ∧
        l.Declares kind (fun v events => events.varName v true) [declared.1] declared.2 l' := by
  rw [Engine.declaredName, Parser.declaredName]
  refine .bind identifier ?_
  rintro ⟨name, span⟩ _ stream l ⟨rfl, -, rfl⟩
  refine declare fun v hname htype hkind => ?_
  rw [← bind_pure (Engine.noteName _ _ _)]
  have hfind := Scopes.find?_insert_self (v := v) (hkind ▸ hbare)
  exact noteVariable hname (hname ▸ hfind)
    (pure ⟨htype, List.forall_mem_singleton.2 hkind, rfl, rfl⟩)

/-! ### Declarations -/

theorem declaredItems {item : Engine Unit} {item' : Scopes → Parser (Variable × Scopes)}
    {kind : VarKind} {trace : Variable → Trace.Events → Trace.Events}
    (hitem : ∀ {stream l}, (kind.isClassLevel → l.scopes.Bare) →
      Follows ⟨stream, l⟩ item (item' l.scopes) fun declared _ l' =>
        l.Declares kind trace [declared.1] declared.2 l')
    (hbare : kind.isClassLevel → l.scopes.Bare) :
    Follows ⟨stream, l⟩ (commaSeparated item) (Parser.declaredItems item' l.scopes)
      fun declared _ l' => l.Declares kind trace declared.1 declared.2 l' := by
  rw [commaSeparated, Parser.declaredItems]
  refine .bind (hitem hbare) ?_
  rintro ⟨first, scopes⟩ _ stream l₁ hfirst
  rw [← bind_pure (repeatWhile _), repeatWhile]
  refine .bind (iterate (fun (state : List Variable × Scopes) (_ : Unit) stream l₁
    (h : state.1 ≠ [] ∧ l.Declares kind trace state.1.reverse state.2 l₁) => ?_) ?_) ?_
  · obtain ⟨vars, scopes⟩ := state
    obtain ⟨hvars, h⟩ := h
    rw [bind_assoc]
    refine .bind comma ?_
    rintro _ more stream l₂ ⟨rfl, rfl⟩
    cases more with
    | false => exact pure ⟨hvars, h⟩
    | true =>
      obtain rfl := h.scopes_ledger
      rw [if_pos rfl, if_pos rfl, bind_assoc]
      refine .bind (hitem (h.bare hbare)) ?_
      rintro ⟨v, scopes⟩ _ stream l₂ hnext
      exact pure ⟨List.cons_ne_nil _ _, List.reverse_cons ▸ h.concat (by simpa using hvars) hnext⟩
  · exact ⟨List.cons_ne_nil _ _, hfirst⟩
  · rintro ⟨vars, scopes⟩ _ stream l₁ ⟨-, h⟩
    exact pure h

/-- A declaration behind its keyword. -/
theorem declaration {kind : VarKind} (hbare : kind.isClassLevel → l.scopes.Bare) :
    Follows ⟨stream, l⟩ (Engine.declaredNames kind) (Parser.declaration kind l.scopes)
      fun declared _ l' => declared.1.kind = kind ∧ (∀ v ∈ declared.1.vars, v.kind = kind) ∧
        declared.2 = l.scopes.insertAll declared.1.vars ∧
        l' = (l.within declared.2).traced fun events =>
          (Declaration.traceNames declared.1.vars (declared.1.type.trace events)).symbol
            .semicolon := by
  rw [Engine.declaredNames, Parser.declaration]
  refine .bind type ?_
  rintro _ type stream _ ⟨rfl, rfl⟩
  have hname {stream : TokenStream} {l : Ledger} (hbare : kind.isClassLevel → l.scopes.Bare) :
      Follows ⟨stream, l⟩ (Engine.declaredName type kind) (Parser.declaredName l.scopes type kind)
        fun declared _ l' => l.Declares kind (fun v events => events.varName v true) [declared.1]
          declared.2 l' :=
    (declaredName hbare).mono fun _ _ _ => And.right
  refine .bind (declaredItems hname hbare) ?_
  rintro ⟨vars, scopes⟩ _ stream _ ⟨hkinds, hscopes, rfl⟩
  rw [← bind_pure (Engine.expectSymbol _)]
  refine .next (expectSymbol _) fun _ _ _ => pure ⟨rfl, hkinds, hscopes, ?_⟩
  cases vars with
  | nil | cons =>
    simp only [Ledger.within_traced, Ledger.traced_traced]
    rfl

theorem declarations {kind? : Keyword → Option VarKind} {level : Bool}
    (hkeyword : ∀ {k kind}, kind? k = some kind → (Declaration.heading kind).2 = k)
    (hlevel : ∀ {k kind}, kind? k = some kind → kind.isClassLevel = level)
    (hbare : level = true → l.scopes.Bare) :
    Follows ⟨stream, l⟩ (Engine.declarations kind?) (Parser.declarations kind? l.scopes)
      fun declared _ l' => l.DeclaresAll kind? declared.1 declared.2 l' := by
  rw [Engine.declarations, Parser.declarations, ← bind_pure (repeatWhile _), repeatWhile]
  refine .bind (iterate (fun (state : List Declaration × Scopes) (_ : Unit) stream l₁
    (h : l.DeclaresAll kind? state.1.reverse state.2 l₁) => ?_) .nil) ?_
  · obtain ⟨done, scopes⟩ := state
    obtain rfl := h.scopes_ledger
    rw [bind_assoc]
    refine peek Parser.currentKeyword_run ?_
    cases hkind : stream.keyword?.bind kind? with
    | none => exact pure h
    | some kind =>
      obtain ⟨k, hk, hkind⟩ := Option.bind_eq_some_iff.1 hkind
      obtain rfl := hkeyword hkind
      dsimp only
      rw [bind_assoc]
      refine note ?_
      rw [bind_assoc]
      refine .next (advanceKeyword hk) fun _ _ stream => ?_
      rw [bind_assoc]
      refine .bind (declaration fun hclass => h.bare hlevel hbare (hlevel hkind ▸ hclass)) ?_
      rintro ⟨d, scopes⟩ _ stream _ ⟨rfl, hkinds, hscopes, rfl⟩
      rw [bind_assoc]
      refine note (pure ?_)
      rw [BothStep, List.reverse_cons]
      refine h.concat ⟨List.forall_mem_singleton.2 ⟨⟨_, hkind⟩, hkinds⟩, ?_, ?_⟩
      · rw [List.flatMap_singleton]
        exact hscopes
      · simp only [Ledger.traced_traced, Ledger.within_traced, List.foldl_cons, List.foldl_nil]
        rfl
  · rintro ⟨done, scopes⟩ _ stream l₁ h
    exact pure h

/-! ### Subroutines -/

theorem parameter :
    Follows ⟨stream, l⟩ Engine.parameter (Parser.parameter l.scopes) fun declared _ l' =>
      l.Declares .argument Subroutine.traceParameter [declared.1] declared.2 l' := by
  rw [Engine.parameter, Parser.parameter]
  refine .bind type ?_
  rintro _ type stream _ ⟨rfl, rfl⟩
  have hbare : VarKind.argument.isClassLevel → (l.traced type.trace).scopes.Bare := by
    simp [VarKind.isClassLevel]
  refine (declaredName hbare).mono ?_
  rintro ⟨v, scopes⟩ _ _ ⟨rfl, hkinds, hscopes, rfl⟩
  refine ⟨hkinds, hscopes, ?_⟩
  simp only [Ledger.within_traced, Ledger.traced_traced]
  rfl

theorem parameters :
    Follows ⟨stream, l⟩ Engine.parameterList (Parser.parameters l.scopes) fun declared _ l' =>
      (∀ v ∈ declared.1, v.kind = .argument) ∧ declared.2 = l.scopes.insertAll declared.1 ∧
        l' = (l.within declared.2).traced fun events =>
          (Subroutine.traceParameters declared.1 (events.open "parameterList")).close
            "parameterList" := by
  obtain ⟨type?, hrun, -⟩ := Parser.type?_run (s := stream)
  rw [Engine.parameterList, Parser.parameters]
  refine note (peek hrun ?_)
  dsimp only
  split
  · have hbare : VarKind.argument.isClassLevel →
        (l.traced (·.add (.open "parameterList"))).scopes.Bare := by
      simp [VarKind.isClassLevel]
    refine .seq (declaredItems (fun _ => parameter) hbare) ?_
    rintro ⟨vars, scopes⟩ _ stream _ ⟨hkinds, hscopes, rfl⟩
    refine note_pure ⟨hkinds, hscopes, ?_⟩
    cases vars with
    | nil | cons =>
      simp only [Ledger.within_traced, Ledger.traced_traced]
      rfl
  · exact note_pure ⟨by simp, rfl, Ledger.traced_traced ..⟩

end Engine.Follows
end JackLang
