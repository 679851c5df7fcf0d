import JackLang.Proofs.Parser.Class
import JackLang.Proofs.Trace.Leaves

/-! What the productions trace: each of them shows the leaves of its tree, in tags of its own
(`Syntax.Class.written_trace`). The steps of a production nest to the right, for one leaf in front of
others unfolds to the leaves of the tree, and one behind them does not. -/

namespace JackLang

open Trace (Events Shown)

namespace Trace.Shown

open Syntax (enclosed Leaf Outline)

variable {o o' : Outline} {xs : List Leaf} {e e' : Events} {opening closing : Symbol}

theorem enclosed (h : Shown o xs o' (e.symbol opening) e') :
    Shown o (enclosed opening closing xs) o' e (e'.symbol closing) :=
  (symbol opening).trans (h.trans (symbol closing))

theorem block (h : Shown o xs o' e.openBlock e') :
    Shown o (Syntax.enclosed .openBrace .closeBrace xs) o' e e'.closeBlock :=
  .enclosed (.tagged (by decide) h)

end Trace.Shown

namespace Syntax

variable {site : Site}

/-- The names in force in the statements of a subroutine. -/
def Site.outline (site : Site) : Outline := site.environment.outline (some site.kind)

theorem Site.shown_varName {role : Role} {name : String} {v : Variable} {e : Events}
    (hrole : role ∈ [.assigned, .read, .called]) (h : site.find? name = some v) :
    Shown site.outline [.name role name] site.outline e (e.varName v false) := by
  obtain rfl := Environment.name_of_find? h
  refine .varName hrole ?_
  rw [outline, Environment.resolve?_outline]
  exact congrArg _ h

/-! ### Expressions -/

theorem Site.shown_callee {qualifier : Option String} {callee : Callee} (subroutine : String)
    (h : site.callee? qualifier = some callee) (e : Events) :
    Shown site.outline (callLeaves subroutine qualifier) site.outline e
      (callee.trace subroutine e) := by
  cases qualifier with
  | none =>
    obtain ⟨r, -, rfl⟩ := Option.map_eq_some_iff.1 h
    exact .event (.subroutineName (by simp))
  | some qualifier =>
    rw [callee?] at h
    split at h
    · next v hv =>
      cases h
      exact (site.shown_varName (by simp) hv).trans
        ((Shown.symbol .dot).trans (.subroutineName subroutine false))
    · next hnone =>
      cases h
      have hclass : (Trace.Event.identifier qualifier .className none false).Shows site.outline
          (.name .called qualifier) := by
        refine .qualifier ?_
        rw [outline, Environment.resolve?_outline]
        exact congrArg _ hnone
      exact (Shown.event hclass).trans
        ((Shown.symbol .dot).trans (.subroutineName subroutine false))

theorem shown_constant (constant : Constant) (o : Outline) (e : Events) :
    Shown o [.keyword constant.keyword] o e (e.keyword constant.keyword) :=
  .keyword (by cases constant <;> simp [Constant.keyword])

mutual

theorem Term.shown_trace : ∀ (term : Term) {t : JackLang.Term} (e : Events),
    term.resolve? site = some t → Shown site.outline term.leaves site.outline e (t.trace e)
  | .integer value, _, e, h => by
    cases h
    exact .tagged (by decide) (.event (.token nofun))
  | .string text, _, e, h => by
    cases h
    exact .tagged (by decide) (.event (.token nofun))
  | .constant constant, _, e, h => by
    cases h
    exact .tagged (by decide) (shown_constant constant _ _)
  | .this, _, e, h => by
    obtain ⟨r, -, rfl⟩ := Option.map_eq_some_iff.1 h
    exact .tagged (by decide) (.keyword (by simp))
  | .variable name, _, e, h => by
    obtain ⟨v, hv, rfl⟩ := Option.map_eq_some_iff.1 h
    exact .tagged (by decide) (site.shown_varName (by simp) hv)
  | .element array index, _, e, h => by
    simp [Term.resolve?, Option.bind_eq_some_iff] at h
    obtain ⟨v, hv, index', hindex, rfl⟩ := h
    exact .tagged (by decide)
      ((site.shown_varName (by simp) hv).trans (Expression.shown_trace index _ hindex).enclosed)
  | .call qualifier subroutine arguments, _, e, h => by
    simp [Term.resolve?, Option.bind_eq_some_iff] at h
    obtain ⟨callee, hcallee, arguments', harguments, rfl⟩ := h
    exact .tagged (by decide) ((site.shown_callee subroutine hcallee _).trans
      (Expression.shown_traceArguments arguments _ harguments))
  | .group inner, _, e, h => by
    simp [Term.resolve?, Option.bind_eq_some_iff] at h
    obtain ⟨inner', hinner, rfl⟩ := h
    exact .tagged (by decide) (Expression.shown_trace inner _ hinner).enclosed
  | .unary op operand, _, e, h => by
    simp [Term.resolve?, Option.bind_eq_some_iff] at h
    obtain ⟨operand', hoperand, rfl⟩ := h
    exact .tagged (by decide) ((Shown.symbol op.symbol).trans (Term.shown_trace operand _ hoperand))
termination_by structural term => term

theorem Expression.shown_trace : ∀ (expression : Expression) {t : JackLang.Expression} (e : Events),
    expression.resolve? site = some t →
      Shown site.outline expression.leaves site.outline e (t.trace e)
  | .mk first rest, _, e, h => by
    simp [Expression.resolve?, Option.bind_eq_some_iff] at h
    obtain ⟨first', hfirst, rest', hrest, rfl⟩ := h
    exact .tagged (by decide)
      ((Term.shown_trace first _ hfirst).trans (Expression.shown_traceRest rest _ hrest))
termination_by structural expression => expression

theorem Expression.shown_traceRest : ∀ (rest : List (Operator × Term))
    {ts : List (Operator × JackLang.Term)} (e : Events), Expression.resolveRest? site rest = some ts →
      Shown site.outline (Expression.leavesRest rest) site.outline e
        (JackLang.Expression.traceRest ts e)
  | [], _, e, h => by
    cases h
    exact .refl _ _
  | (op, operand) :: rest, _, e, h => by
    simp [Expression.resolveRest?, Option.bind_eq_some_iff] at h
    obtain ⟨operand', hoperand, rest', hrest, rfl⟩ := h
    exact (Shown.symbol op.symbol).trans
      ((Term.shown_trace operand _ hoperand).trans (Expression.shown_traceRest rest _ hrest))
termination_by structural rest => rest

theorem Expression.shown_traceArguments : ∀ (expressions : List Expression)
    {ts : List JackLang.Expression} (e : Events), Expression.resolveAll? site expressions = some ts →
      Shown site.outline (enclosed .openParen .closeParen (Expression.leavesAll expressions))
        site.outline e (JackLang.Expression.traceArguments ts e)
  | [], _, e, h => by
    cases h
    exact .enclosed (.tagged (by decide) (.refl _ _))
  | expression :: rest, _, e, h => by
    simp [Expression.resolveAll?, Option.bind_eq_some_iff] at h
    obtain ⟨t, ht, ts, hts, rfl⟩ := h
    exact .enclosed (.tagged (by decide)
      ((Expression.shown_trace expression _ ht).trans (Expression.shown_traceMore rest _ hts)))
termination_by structural expressions => expressions

theorem Expression.shown_traceMore : ∀ (expressions : List Expression)
    {ts : List JackLang.Expression} (e : Events), Expression.resolveAll? site expressions = some ts →
      Shown site.outline (Expression.leavesMore expressions) site.outline e
        (JackLang.Expression.traceMore ts e)
  | [], _, e, h => by
    cases h
    exact .refl _ _
  | expression :: rest, _, e, h => by
    simp [Expression.resolveAll?, Option.bind_eq_some_iff] at h
    obtain ⟨t, ht, ts, hts, rfl⟩ := h
    exact (Shown.symbol .comma).trans
      ((Expression.shown_trace expression _ ht).trans (Expression.shown_traceMore rest _ hts))
termination_by structural expressions => expressions

end

/-! ### Statements -/

theorem Expression.shown_traceCondition {condition : Expression} {t : JackLang.Expression}
    (h : condition.resolve? site = some t) (e : Events) :
    Shown site.outline (enclosed .openParen .closeParen condition.leaves) site.outline e
      (t.traceCondition e) :=
  (Expression.shown_trace condition _ h).enclosed

mutual

theorem Statement.shown_trace : ∀ (statement : Statement) {t : JackLang.Statement} (e : Events),
    statement.resolve? site = some t →
      Shown site.outline statement.leaves site.outline e (t.trace e)
  | .assign target value, _, e, h => by
    simp [Statement.resolve?, Option.bind_eq_some_iff] at h
    obtain ⟨v, hv, value', hvalue, rfl⟩ := h
    exact .tagged (by decide) ((Shown.keyword (by simp)).trans
      ((site.shown_varName (by simp) hv).trans ((Shown.symbol .equal).trans
        ((Expression.shown_trace value _ hvalue).trans (.symbol .semicolon)))))
  | .assignElement array index value, _, e, h => by
    simp [Statement.resolve?, Option.bind_eq_some_iff] at h
    obtain ⟨v, hv, index', hindex, value', hvalue, rfl⟩ := h
    exact .tagged (by decide) ((Shown.keyword (by simp)).trans
      ((site.shown_varName (by simp) hv).trans
        ((Expression.shown_trace index _ hindex).enclosed.trans ((Shown.symbol .equal).trans
          ((Expression.shown_trace value _ hvalue).trans (.symbol .semicolon))))))
  | .ifThen condition body, _, e, h => by
    simp [Statement.resolve?, Option.bind_eq_some_iff] at h
    obtain ⟨condition', hcondition, body', hbody, rfl⟩ := h
    exact .tagged (by decide) ((Shown.keyword (by simp)).trans
      ((Expression.shown_traceCondition hcondition _).trans
        (Statement.shown_traceAll body _ hbody).block))
  | .ifElse condition body alternative, _, e, h => by
    simp [Statement.resolve?, Option.bind_eq_some_iff] at h
    obtain ⟨condition', hcondition, body', hbody, alternative', halternative, rfl⟩ := h
    exact .tagged (by decide) ((Shown.keyword (by simp)).trans
      ((Expression.shown_traceCondition hcondition _).trans
        ((Statement.shown_traceAll body _ hbody).block.trans ((Shown.keyword (by simp)).trans
          (Statement.shown_traceAll alternative _ halternative).block))))
  | .while condition body, _, e, h => by
    simp [Statement.resolve?, Option.bind_eq_some_iff] at h
    obtain ⟨condition', hcondition, body', hbody, rfl⟩ := h
    exact .tagged (by decide) ((Shown.keyword (by simp)).trans
      ((Expression.shown_traceCondition hcondition _).trans
        (Statement.shown_traceAll body _ hbody).block))
  | .call qualifier subroutine arguments, _, e, h => by
    simp [Statement.resolve?, Option.bind_eq_some_iff] at h
    obtain ⟨callee, hcallee, arguments', harguments, rfl⟩ := h
    exact .tagged (by decide) ((Shown.keyword (by simp)).trans
      ((site.shown_callee subroutine hcallee _).trans
        ((Expression.shown_traceArguments arguments _ harguments).trans (.symbol .semicolon))))
  | .return none, _, e, h => by
    cases h
    exact .tagged (by decide) ((Shown.keyword (by simp)).trans (.symbol .semicolon))
  | .return (some value), _, e, h => by
    simp [Statement.resolve?, Option.bind_eq_some_iff] at h
    obtain ⟨value', hvalue, rfl⟩ := h
    exact .tagged (by decide) ((Shown.keyword (by simp)).trans
      ((Expression.shown_trace value _ hvalue).trans (.symbol .semicolon)))
termination_by structural statement => statement

theorem Statement.shown_traceAll : ∀ (statements : List Statement) {ts : List JackLang.Statement}
    (e : Events), Statement.resolveAll? site statements = some ts →
      Shown site.outline (Statement.leavesAll statements) site.outline e
        (JackLang.Statement.traceAll ts e)
  | [], _, e, h => by
    cases h
    exact .refl _ _
  | statement :: rest, _, e, h => by
    simp [Statement.resolveAll?, Option.bind_eq_some_iff] at h
    obtain ⟨t, ht, ts, hts, rfl⟩ := h
    exact (Statement.shown_trace statement _ ht).trans (Statement.shown_traceAll rest _ hts)
termination_by structural statements => statements

end

end Syntax

/-! ### Declarations -/

namespace Environment

/-- Further declarations that are in order: right behind each of them its name stands for it. -/
def Admits (env : Environment) : List Declared → Prop
  | [] => True
  | d :: ds => (env.declare d).find? d.name = some (env.next d) ∧ (env.declare d).Admits ds

variable {env : Environment} {ds es : List Declared}

theorem admits_append_iff :
    env.Admits (ds ++ es) ↔ env.Admits ds ∧ (env.declareAll ds).Admits es := by
  induction ds generalizing env with
  | nil => exact (iff_of_eq (true_and _)).symm
  | cons d ds ih => rw [List.cons_append, Admits, Admits, ih, and_assoc, declareAll_cons]

/-- The names of a class are declared before those of any subroutine. -/
theorem admits_of_proper (h : (env.declareAll ds).Proper)
    (hlevel : (∀ d ∈ ds, ¬ d.kind.isClassLevel) ∨
      env.subroutineLevel = [] ∧ ∀ d ∈ ds, d.kind.isClassLevel) : env.Admits ds := by
  induction ds generalizing env with
  | nil => trivial
  | cons d ds ih =>
    have hproper : (env.declare d).Proper :=
      Proper.of_declareAll (show ((env.declare d).declareAll ds).Proper from h)
    simp only [List.forall_mem_cons] at hlevel
    refine ⟨find?_declare hproper fun hkind => ?_, ih h ?_⟩
    · exact (hlevel.resolve_left fun hlocal => hlocal.1 hkind).1
    · refine hlevel.imp (·.2) fun ⟨hnil, hkind, hkinds⟩ => ⟨?_, hkinds⟩
      rwa [declare, if_pos hkind]

end Environment

namespace Trace.Shown

open Syntax (Leaf Outline separated)

variable {env : Environment} {kind? : Option SubroutineKind} {e : Events}

theorem type (type : VarType) (o : Outline) (e : Events) :
    Shown o [Syntax.typeLeaf type] o e (type.trace e) := by
  cases type with
  | int | char | boolean => exact .keyword (by simp)
  | object name => exact .className name false

/-- A name at its declaration. -/
theorem declared {d : Declared} (h : (env.declare d).find? d.name = some (env.next d)) (e : Events) :
    Shown (env.outline kind?) [.name (.declares d.kind) d.name] ((env.declare d).outline kind?) e
      (e.varName (env.next d) true) := by
  have houtline : (env.outline kind?).declare d.name d.kind = (env.declare d).outline kind? :=
    Environment.outline_declare.symm
  have hcount : (env.next d).index = (env.outline kind?).count d.kind :=
    Environment.count_outline.symm
  have hevent : (Event.identifier d.name .varName
      (some (d.kind, (env.outline kind?).count d.kind)) true).Shows (env.outline kind?)
      (.name (.declares d.kind) d.name) := by
    refine .declared ?_
    rw [houtline, Environment.resolve?_outline, h, ← hcount]
    rfl
  have hshown := Shown.event (e := e) hevent
  rwa [Syntax.Outline.read_declares, houtline, ← hcount] at hshown

/-- Phrases with commas between them, each of which declares one name. -/
theorem separated {α : Type} (leaves : α → List Leaf) (declared : α → Declared)
    (trace : Variable → Events → Events) (kind? : Option SubroutineKind)
    (hphrase : ∀ (env : Environment) (a : α) (e : Events),
      (env.declare (declared a)).find? (declared a).name = some (env.next (declared a)) →
        Shown (env.outline kind?) (leaves a) ((env.declare (declared a)).outline kind?) e
          (trace (env.next (declared a)) e))
    {a : α} {as : List α} (h : env.Admits ((a :: as).map declared)) (e : Events) :
    Shown (env.outline kind?) (Syntax.separated ((a :: as).map leaves))
      ((env.declareAll ((a :: as).map declared)).outline kind?) e
      (((env.declare (declared a)).nextAll (as.map declared)).foldl
        (fun e v => trace v (e.symbol .comma)) (trace (env.next (declared a)) e)) := by
  have hmore (as : List α) : ∀ (env : Environment) (e : Events), env.Admits (as.map declared) →
      Shown (env.outline kind?) ((as.map leaves).flatMap (.symbol .comma :: ·))
        ((env.declareAll (as.map declared)).outline kind?) e
        ((env.nextAll (as.map declared)).foldl (fun e v => trace v (e.symbol .comma)) e) := by
    induction as with
    | nil => exact fun env e _ => .refl _ _
    | cons a as ih =>
      intro env e hadmits
      exact ((Shown.symbol .comma).trans (hphrase env a _ hadmits.1)).trans (ih _ _ hadmits.2)
  exact (hphrase env a e h.1).trans (hmore as _ _ h.2)

end Trace.Shown

namespace Syntax

variable {env : Environment} {kind? : Option SubroutineKind}

theorem Declaration.shown_trace (kind : VarKind) (d : Declaration)
    (h : env.Admits (d.declared kind)) (e : Events) :
    Shown (env.outline kind?) (.keyword (JackLang.Declaration.heading kind).2 :: d.leaves kind)
      ((env.declareAll (d.declared kind)).outline kind?) e
      ((⟨kind, d.type, env.nextAll (d.declared kind)⟩ : JackLang.Declaration).trace e) := by
  have htag : Trace.Event.IsTag (JackLang.Declaration.heading kind).1 := by cases kind <;> decide
  have hkeyword : (JackLang.Declaration.heading kind).2 ∉ [.constructor, .function, .method] := by
    cases kind <;> decide
  have hnames (e : Events) := Shown.separated ([.name (.declares kind) ·]) (⟨·, d.type, kind⟩)
    (fun v e => e.varName v true) kind? (fun _ _ e hfind => Shown.declared hfind e) h e
  exact .tagged htag ((Shown.keyword hkeyword).trans ((Shown.type d.type _ _).trans
    ((hnames _).trans (.symbol .semicolon))))

theorem Declaration.shown_traceAll (kind? : Option SubroutineKind)
    (ds : List (VarKind × Declaration)) (h : env.Admits (Declaration.declaredAll ds)) (e : Events) :
    Shown (env.outline kind?)
      (ds.flatMap fun d => .keyword (JackLang.Declaration.heading d.1).2 :: d.2.leaves d.1)
      ((env.declareAll (Declaration.declaredAll ds)).outline kind?) e
      ((Declaration.resolveAll env ds).foldl (fun e d => d.trace e) e) := by
  induction ds generalizing env e with
  | nil => exact .refl _ _
  | cons d ds ih =>
    have hdeclared : Declaration.declaredAll (d :: ds) =
        d.2.declared d.1 ++ Declaration.declaredAll ds := rfl
    rw [hdeclared, Environment.admits_append_iff] at h
    rw [hdeclared, Environment.declareAll_append]
    exact (Declaration.shown_trace d.1 d.2 h.1 e).trans (ih h.2 _)

/-! ### Subroutines and classes -/

theorem Parameter.shown_trace (p : Parameter) (e : Events)
    (h : (env.declare ⟨p.name, p.type, .argument⟩).find? p.name =
      some (env.next ⟨p.name, p.type, .argument⟩)) :
    Shown (env.outline kind?) p.leaves ((env.declare ⟨p.name, p.type, .argument⟩).outline kind?) e
      (JackLang.Subroutine.traceParameter (env.next ⟨p.name, p.type, .argument⟩) e) :=
  (Shown.type p.type _ e).trans (.declared h _)

theorem Parameter.shown_traceAll (ps : List Parameter) (e : Events)
    (h : env.Admits (ps.map fun p => ⟨p.name, p.type, .argument⟩)) :
    Shown (env.outline kind?) (separated (ps.map Parameter.leaves))
      ((env.declareAll (ps.map fun p => ⟨p.name, p.type, .argument⟩)).outline kind?) e
      (JackLang.Subroutine.traceParameters
        (env.nextAll (ps.map fun p => ⟨p.name, p.type, .argument⟩)) e) := by
  cases ps with
  | nil => exact .refl _ _
  | cons p ps =>
    exact Shown.separated Parameter.leaves (fun p => ⟨p.name, p.type, .argument⟩)
      JackLang.Subroutine.traceParameter kind? (fun _ p e hfind => p.shown_trace e hfind) h e

theorem Subroutine.shown_return (s : Subroutine) (o : Outline) (e : Events) :
    Shown o [s.returnLeaf] o e
      (match s.returnType with
        | none => e.keyword .void
        | some type => type.trace e) := by
  rw [returnLeaf]
  cases s.returnType with
  | none => exact .keyword (by simp)
  | some type => exact .type type o e

variable {c : Class}

theorem Subroutine.shown_body {s : Subroutine} {t : JackLang.Subroutine}
    (hlocals : t.locals = Declaration.resolveAll env (s.locals.map fun d => (.local, d)))
    (hbody : Statement.resolveAll? (c.site s) s.body = some t.body)
    (hadmits : env.Admits (Declaration.declaredAll (s.locals.map fun d => (.local, d))))
    (henv : env.declareAll (Declaration.declaredAll (s.locals.map fun d => (.local, d))) =
      (c.site s).environment) (e : Events) :
    Shown (env.outline (some s.kind)) s.bodyLeaves (c.site s).outline e (t.traceBody e) := by
  have hshown (e : Events) : Shown (env.outline (some s.kind))
      (s.locals.flatMap fun d => .keyword .var :: d.leaves .local) (c.site s).outline e
      (t.locals.foldl (fun e d => d.trace e) e) := by
    have h := Declaration.shown_traceAll (some s.kind) _ hadmits e
    rw [henv, List.flatMap_map] at h
    rw [hlocals]
    exact h
  refine .tagged (by decide) (.enclosed ((hshown _).trans ?_))
  exact .tagged (by decide) (Statement.shown_traceAll s.body _ hbody)

/-- Behind a subroutine stands the outline of its body. -/
theorem Subroutine.shown_trace {s : Subroutine} {t : JackLang.Subroutine} {o : Outline}
    (ho : o.classLevel = c.declared.map fun d => (d.name, d.kind)) (h : s.resolve? c = some t)
    (hproper : (c.site s).environment.Proper) (e : Events) :
    Shown o s.leaves (c.site s).outline e (t.trace e) := by
  simp only [resolve?, Option.bind_eq_bind, Option.bind_eq_some_iff] at h
  obtain ⟨body, hbody, ⟨⟩⟩ := h
  have henv := declareAll_parameters_locals c s
  generalize henter : (⟨c.declared, receiver c.name s.kind⟩ : Environment) = env at henv ⊢
  have hkeyword (e : Events) : Shown o [.keyword s.kind.keyword] (env.outline (some s.kind)) e
      (e.keyword s.kind.keyword) := by
    rw [← henter, ← c.outline_enter s.kind ho, ← Outline.read_subroutine]
    exact .event (.token (by rintro ⟨⟩))
  have hadmits : env.Admits (s.declaredParameters ++
      Declaration.declaredAll (s.locals.map fun d => (.local, d))) := by
    refine Environment.admits_of_proper ?_ (.inl s.not_isClassLevel_declarations)
    rwa [Environment.declareAll_append, henv]
  rw [Environment.admits_append_iff] at hadmits
  have hparameters (e : Events) : Shown (env.outline (some s.kind))
      (enclosed .openParen .closeParen (separated (s.parameters.map Parameter.leaves)))
      ((env.declareAll s.declaredParameters).outline (some s.kind)) e
      (((JackLang.Subroutine.traceParameters (env.nextAll s.declaredParameters)
        ((e.symbol .openParen).open "parameterList")).close "parameterList").symbol .closeParen) :=
    .enclosed (.tagged (by decide) (Parameter.shown_traceAll s.parameters _ hadmits.1))
  exact .tagged (by decide) ((hkeyword _).trans ((s.shown_return _ _).trans
    ((Shown.subroutineName s.name true).trans
      ((hparameters _).trans (shown_body rfl hbody hadmits.2 henv _)))))

theorem Subroutine.shown_traceAll (ss : List Subroutine) {ts : List JackLang.Subroutine}
    {o : Outline} (ho : o.classLevel = c.declared.map fun d => (d.name, d.kind))
    (h : Subroutine.resolveAll? c ss = some ts)
    (hproper : ∀ s ∈ ss, (c.site s).environment.Proper) :
    ∃ o', ∀ e, Shown o (ss.flatMap Subroutine.leaves) o' e (ts.foldl (fun e s => s.trace e) e) := by
  induction ss generalizing ts o with
  | nil =>
    cases h
    exact ⟨o, .refl o⟩
  | cons s ss ih =>
    simp only [resolveAll?, Option.bind_eq_bind, Option.bind_eq_some_iff] at h
    obtain ⟨t, ht, ts, hts, ⟨⟩⟩ := h
    rw [List.forall_mem_cons] at hproper
    obtain ⟨o', hss⟩ := ih (o := (c.site s).outline) rfl hts hproper.2
    exact ⟨o', fun e => (s.shown_trace ho ht hproper.1 e).trans (hss _)⟩

theorem Class.shown_declarations (hproper : (⟨c.declared, []⟩ : Environment).Proper) (e : Events) :
    Shown {} (c.declarations.flatMap fun d => .keyword d.1.keyword :: d.2.leaves d.1.kind)
      ((⟨c.declared, []⟩ : Environment).outline none) e
      ((Declaration.resolveAll {} (c.declarations.map fun d => (d.1.kind, d.2))).foldl
        (fun e d => d.trace e) e) := by
  have henv := declareAll_declared c
  have hadmits : ({} : Environment).Admits
      (Declaration.declaredAll (c.declarations.map fun d => (d.1.kind, d.2))) :=
    Environment.admits_of_proper (henv ▸ hproper) (.inr ⟨rfl, c.isClassLevel_declarations⟩)
  have hshown := Declaration.shown_traceAll none _ hadmits e
  have hheading (level : ClassLevel) :
      (JackLang.Declaration.heading level.kind).2 = level.keyword := by
    cases level <;> rfl
  rw [henv, List.flatMap_map] at hshown
  simp only [hheading] at hshown
  exact hshown

/-- The trace of a class shows its leaves, in a tag of its own. -/
theorem Class.written_trace {t : JackLang.Class} (h : c.resolve? = some t) (hfits : c.Fits) :
    ∃ inside, t.trace.toList = .open "class" :: (inside ++ [.close "class"]) ∧
      Trace.Written {} c.leaves inside := by
  simp only [resolve?, Option.bind_eq_bind, Option.bind_eq_some_iff] at h
  obtain ⟨subroutines, hsubroutines, ⟨⟩⟩ := h
  have hproper : ∀ s ∈ c.subroutines, (c.site s).environment.Proper := fun s hs =>
    (hfits.subroutines s hs).proper
  obtain ⟨o, hshown⟩ := Subroutine.shown_traceAll c.subroutines
    (o := (⟨c.declared, []⟩ : Environment).outline none) rfl hsubroutines hproper
  have hclass : Shown {} c.leaves o (Trace.Events.open #[] "class") _ :=
    (Shown.keyword (by simp)).trans ((Shown.className c.name true).trans
      ((Class.shown_declarations hfits.proper _).trans (hshown _)).enclosed)
  obtain ⟨-, inside, hinside, hwritten⟩ := hclass
  refine ⟨inside, ?_, hwritten⟩
  calc
    _ = _ ++ [.close "class"] := Array.toList_push ..
    _ = .open "class" :: (inside ++ [.close "class"]) := by
      rw [hinside]
      rfl

end Syntax
end JackLang
