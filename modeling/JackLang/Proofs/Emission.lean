import JackLang.Emission
import JackLang.Proofs.Syntax.Capacity
import JackLang.Proofs.Syntax.Resolution
import Mathlib.Logic.Function.Basic

/-! The code that a resolved tree emits is its translation, but for the counts of calls, which end
at `maxCount` (`Class.toList_emit_capped`). Where the instructions can count the arguments of every
call they do not end early (`Class.CallsFit.map_capped_translate`). -/

namespace JackLang

namespace Syntax

variable {site : Site}

/-! ### Names -/

@[simp] theorem capped_pushInstr (v : Variable) : capped v.pushInstr = v.pushInstr := rfl

@[simp] theorem capped_popInstr (v : Variable) : capped v.popInstr = v.popInstr := rfl

@[simp] theorem capped_receiver (r : Receiver) : capped r.instr = r.instr := by cases r <;> rfl

theorem pushInstr_eq (v : Variable) : v.pushInstr = .push (cell v).1 (cell v).2 := by
  cases v with | mk name type kind index => cases kind <;> rfl

theorem popInstr_eq (v : Variable) : v.popInstr = .pop (cell v).1 (cell v).2 := by
  cases v with | mk name type kind index => cases kind <;> rfl

theorem Site.pushVariable_eq {name : String} {v : Variable} (h : site.find? name = some v) :
    site.pushVariable name = [v.pushInstr] := by
  rw [pushVariable, h, pushInstr_eq]; rfl

theorem Site.popVariable_eq {name : String} {v : Variable} (h : site.find? name = some v) :
    site.popVariable name = [v.popInstr] := by
  rw [popVariable, h, popInstr_eq]; rfl

theorem Site.pushThis_eq {r : Receiver} (h : site.receiver? = some r) :
    site.pushThis = [r.instr] := by
  rw [receiver?] at h
  rw [pushThis]
  cases hk : site.kind <;> rw [hk] at h <;> cases h <;> rfl

theorem Site.toList_emit_callee {callee : Callee} {code : Code} {qualifier : Option String}
    (h : site.callee? qualifier = some callee) :
    (callee.emit code).toList = code.toList ++ site.pushObject qualifier := by
  cases qualifier with
  | none =>
    obtain ⟨r, hr, rfl⟩ := Option.map_eq_some_iff.1 h
    simp [Callee.emit, pushObject, pushThis_eq hr]
  | some qualifier =>
    rw [callee?] at h
    split at h
    · next v hv => cases h; simp [Callee.emit, pushObject, pushVariable_eq hv]
    · next hv => cases h; simp [Callee.emit, pushObject, pushVariable, hv]

theorem Site.callInstr_eq {callee : Callee} {qualifier : Option String} (subroutine : String)
    (arguments : Nat) (h : site.callee? qualifier = some callee) :
    callee.callInstr subroutine arguments =
      capped (site.callInstr subroutine arguments qualifier) := by
  cases qualifier with
  | none =>
    obtain ⟨r, hr, rfl⟩ := Option.map_eq_some_iff.1 h
    rfl
  | some qualifier =>
    rw [callee?] at h
    split at h
    · next v hv =>
      cases h
      rw [callInstr, hv]
      rfl
    · next hv =>
      cases h
      rw [callInstr, hv]
      rfl

/-! ### Expressions -/

theorem operatorInstr_eq (op : Operator) : op.instr = operatorInstr op := by cases op <;> rfl

theorem unaryInstr_eq (op : UnaryOperator) : op.instr = unaryInstr op := by cases op <;> rfl

theorem toList_emit_constant (constant : Constant) (code : Code) :
    (constant.emit code).toList = code.toList ++ constantCode constant := by
  cases constant <;> simp [Constant.emit, constantCode]

theorem toList_emitString (text : String) (code : Code) :
    (emitString text code).toList = code.toList ++ stringCode text := by
  have hchars : ∀ (cs : List Char) (code : Code), (cs.foldl (fun code c =>
      (code.push (.push .constant c.toNat)).push (.call "String.appendChar" 2)) code).toList =
      code.toList ++ cs.flatMap fun c =>
        [.push .constant c.toNat, .call "String.appendChar" 2] := by
    intro cs
    induction cs with
    | nil => simp
    | cons c cs ih => intro code; simp [ih]
  simp [emitString, stringCode, hchars]

theorem Expression.length_of_resolveAll? {es : List Expression} {es' : List JackLang.Expression}
    (h : Expression.resolveAll? site es = some es') : es.length = es'.length := by
  induction es generalizing es' with
  | nil => cases h; rfl
  | cons e es ih =>
    simp [Expression.resolveAll?, Option.bind_eq_some_iff] at h
    obtain ⟨e', -, es', hes, rfl⟩ := h
    simp [ih hes]

mutual

theorem Term.toList_emit : ∀ (t : Term) {t' : JackLang.Term} (code : Code),
    t.resolve? site = some t' →
      (t'.emit code).toList = code.toList ++ (t.translate site).map capped
  | .integer value, _, code, h => by cases h; simp [JackLang.Term.emit, Term.translate]
  | .string text, _, code, h => by
    cases h; simp [JackLang.Term.emit, Term.translate, toList_emitString]
  | .constant constant, _, code, h => by
    cases h; simp [JackLang.Term.emit, Term.translate, toList_emit_constant]
  | .this, _, code, h => by
    obtain ⟨r, hr, rfl⟩ := Option.map_eq_some_iff.1 h
    simp [JackLang.Term.emit, Term.translate, Site.pushThis_eq hr]
  | .variable name, _, code, h => by
    obtain ⟨v, hv, rfl⟩ := Option.map_eq_some_iff.1 h
    simp [JackLang.Term.emit, Term.translate, Site.pushVariable_eq hv]
  | .element array index, _, code, h => by
    simp [Term.resolve?, Option.bind_eq_some_iff] at h
    obtain ⟨v, hv, index', hindex, rfl⟩ := h
    simp [JackLang.Term.emit, Term.translate, Site.pushVariable_eq hv,
      Expression.toList_emit index _ hindex]
  | .call qualifier subroutine arguments, _, code, h => by
    simp [Term.resolve?, Option.bind_eq_some_iff] at h
    obtain ⟨callee, hcallee, arguments', harguments, rfl⟩ := h
    have hlength := Expression.length_of_resolveAll? harguments
    simp [JackLang.Term.emit, Term.translate, Site.toList_emit_callee hcallee,
      Expression.toList_emitAll arguments _ harguments, ← hlength,
      Site.callInstr_eq subroutine _ hcallee]
  | .group inner, _, code, h => by
    simp [Term.resolve?, Option.bind_eq_some_iff] at h
    obtain ⟨inner', hinner, rfl⟩ := h
    simp [JackLang.Term.emit, Term.translate, Expression.toList_emit inner _ hinner]
  | .unary op operand, _, code, h => by
    simp [Term.resolve?, Option.bind_eq_some_iff] at h
    obtain ⟨operand', hoperand, rfl⟩ := h
    simp [JackLang.Term.emit, Term.translate, Term.toList_emit operand _ hoperand, unaryInstr_eq]
termination_by structural t => t

theorem Expression.toList_emit : ∀ (e : Expression) {e' : JackLang.Expression} (code : Code),
    e.resolve? site = some e' →
      (e'.emit code).toList = code.toList ++ (e.translate site).map capped
  | .mk first rest, _, code, h => by
    simp [Expression.resolve?, Option.bind_eq_some_iff] at h
    obtain ⟨first', hfirst, rest', hrest, rfl⟩ := h
    simp [JackLang.Expression.emit, Expression.translate, Expression.toList_emitRest rest _ hrest,
      Term.toList_emit first _ hfirst]
termination_by structural e => e

theorem Expression.toList_emitRest : ∀ (rest : List (Operator × Term))
    {rest' : List (Operator × JackLang.Term)} (code : Code),
    Expression.resolveRest? site rest = some rest' →
      (JackLang.Expression.emitRest rest' code).toList =
        code.toList ++ (Expression.translateRest site rest).map capped
  | [], _, code, h => by cases h; simp [JackLang.Expression.emitRest, Expression.translateRest]
  | (op, operand) :: rest, _, code, h => by
    simp [Expression.resolveRest?, Option.bind_eq_some_iff] at h
    obtain ⟨operand', hoperand, rest', hrest, rfl⟩ := h
    simp [JackLang.Expression.emitRest, Expression.translateRest, Term.toList_emit operand _ hoperand,
      Expression.toList_emitRest rest _ hrest, operatorInstr_eq]
termination_by structural rest => rest

theorem Expression.toList_emitAll : ∀ (es : List Expression)
    {es' : List JackLang.Expression} (code : Code),
    Expression.resolveAll? site es = some es' →
      (JackLang.Expression.emitAll es' code).toList =
        code.toList ++ (Expression.translateAll site es).map capped
  | [], _, code, h => by cases h; simp [JackLang.Expression.emitAll, Expression.translateAll]
  | e :: es, _, code, h => by
    simp [Expression.resolveAll?, Option.bind_eq_some_iff] at h
    obtain ⟨e', he, es', hes, rfl⟩ := h
    simp [JackLang.Expression.emitAll, Expression.translateAll, Expression.toList_emit e _ he,
      Expression.toList_emitAll es _ hes]
termination_by structural es => es

end

/-! ### Labels -/

/-- Each subroutine of a class has taken as many pairs as it is numbered to, as far as words of 32
bits count. -/
def Tracks (className : String) (labels : Labels) (n : String → Numbering) : Prop :=
  ∀ subroutine construct, labels.taken[(className, subroutine, construct)]?.getD 0 =
    UInt32.ofNat (n subroutine construct)

theorem tracks_empty (className : String) : Tracks className {} fun _ _ => 0 := by
  intro subroutine construct
  simp

section draw

variable {className subroutine : String} {labels : Labels} {n : String → Numbering}
  (construct : Construct)

theorem Tracks.draw (h : Tracks className labels n) :
    Tracks className (labels.draw className subroutine construct).2
      (Function.update n subroutine ((n subroutine).succ construct)) := by
  intro name construct'
  have hname := h name construct'
  simp only [Labels.draw, Std.HashMap.getElem?_insert, beq_iff_eq, Prod.mk.injEq, true_and]
  by_cases heq : subroutine = name
  · subst heq
    by_cases hconstruct : construct = construct'
    · subst hconstruct
      simp [Numbering.succ, hname]
    · simp [Numbering.succ, hconstruct, Ne.symm hconstruct, hname]
  · simp [heq, Function.update_of_ne (Ne.symm heq), hname]

theorem Tracks.draw_fst (h : Tracks site.className labels n) :
    (labels.draw site.className subroutine construct).1 =
      ⟨site.label subroutine construct.firstBase (n subroutine construct),
        site.label subroutine construct.secondBase (n subroutine construct)⟩ := by
  rw [Labels.draw, h subroutine construct, UInt32.toNat_ofNat']
  rfl

end draw

/-! ### Statements -/

/-- Behind `e` stands the code of some statements of a subroutine, with the labels they take. -/
structure Extends (site : Site) (subroutine : String) (n : String → Numbering) (e : Emission)
    (ss : List Statement) (e' : Emission) : Prop where
  code : e'.code.toList = e.code.toList ++
    (Statement.translateAll site subroutine (n subroutine) ss).map capped
  labels : Tracks site.className e'.labels
    (Function.update n subroutine ((n subroutine).behind ss))

variable {subroutine : String} {n : String → Numbering}

theorem Extends.nil {e : Emission} (h : Tracks site.className e.labels n) :
    Extends site subroutine n e [] e where
  code := by simp [Statement.translateAll]
  labels := by rwa [Numbering.behind_nil, Function.update_eq_self]

theorem Extends.cons {e e₁ e₂ : Emission} {s : Statement} {ss : List Statement}
    (h : Extends site subroutine n e [s] e₁)
    (h' : Extends site subroutine (Function.update n subroutine ((n subroutine).behind [s])) e₁ ss
      e₂) : Extends site subroutine n e (s :: ss) e₂ where
  code := by
    rw [h'.code, h.code, Function.update_self]
    simp [Statement.translateAll]
  labels := by
    rw [Numbering.behind_cons]
    simpa using h'.labels

/-- A statement without branches and loops takes no labels. -/
theorem Extends.of_simple {e : Emission} {s : Statement} {code : Code}
    (h : Tracks site.className e.labels n)
    (hcode : code.toList = e.code.toList ++
      (s.translate site subroutine (n subroutine)).map capped)
    (hcount : ∀ construct, s.count construct = 0) :
    Extends site subroutine n e [s] ⟨code, e.labels⟩ where
  code := by simp [Statement.translateAll, hcode]
  labels := by rwa [Numbering.behind_of_count_eq_zero _ _ hcount, Function.update_eq_self]

mutual

theorem Statement.extends_emit : ∀ (s : Statement) {s' : JackLang.Statement}
    (n : String → Numbering) (e : Emission), Tracks site.className e.labels n →
      s.resolve? site = some s' →
        Extends site subroutine n e [s] (s'.emit site.className subroutine e)
  | .assign target value, _, n, e, htracks, h => by
    simp [Statement.resolve?, Option.bind_eq_some_iff] at h
    obtain ⟨v, hv, value', hvalue, rfl⟩ := h
    refine .of_simple htracks ?_ fun _ => rfl
    simp [Statement.translate, Expression.toList_emit value _ hvalue,
      Site.popVariable_eq hv]
  | .assignElement array index value, _, n, e, htracks, h => by
    simp [Statement.resolve?, Option.bind_eq_some_iff] at h
    obtain ⟨v, hv, index', hindex, value', hvalue, rfl⟩ := h
    refine .of_simple htracks ?_ fun _ => rfl
    simp [Statement.translate, Expression.toList_emit value _ hvalue,
      Expression.toList_emit index _ hindex, Site.pushVariable_eq hv]
  | .ifThen condition body, _, n, e, htracks, h => by
    simp [Statement.resolve?, Option.bind_eq_some_iff] at h
    obtain ⟨condition', hcondition, body', hbody, rfl⟩ := h
    let pair := (e.labels.draw site.className subroutine .if).1
    let e₁ := Emission.pushUnless
      ⟨condition'.emit e.code, (e.labels.draw site.className subroutine .if).2⟩ pair.first
    have hcode : e₁.code.toList = e.code.toList ++
        ((condition.translate site).map capped ++ [.operate .not, .ifGoto pair.first]) := by
      simp [e₁, Emission.pushUnless, Emission.push,
        Expression.toList_emit condition _ hcondition]
    have htracks₁ : Tracks site.className e₁.labels _ := htracks.draw .if
    have hbody := Statement.extends_emitAll body _ e₁ htracks₁ hbody
    constructor
    · change ((JackLang.Statement.emitAll site.className subroutine body' e₁).push
        (.label pair.first)).code.toList = _
      simp [Emission.push, hbody.code, hcode, Statement.translateAll, Statement.translate, pair,
        htracks.draw_fst, Construct.firstBase]
    · change Tracks _ (JackLang.Statement.emitAll site.className subroutine body' e₁).labels _
      rw [Numbering.behind_ifThen]
      simpa using hbody.labels
  | .ifElse condition body alternative, _, n, e, htracks, h => by
    simp [Statement.resolve?, Option.bind_eq_some_iff] at h
    obtain ⟨condition', hcondition, body', hbody, alternative', halternative, rfl⟩ := h
    let pair := (e.labels.draw site.className subroutine .if).1
    let e₁ := Emission.pushUnless
      ⟨condition'.emit e.code, (e.labels.draw site.className subroutine .if).2⟩ pair.first
    let e₂ := ((JackLang.Statement.emitAll site.className subroutine body' e₁).push
      (.goto pair.second)).push (.label pair.first)
    have hcode : e₁.code.toList = e.code.toList ++
        ((condition.translate site).map capped ++ [.operate .not, .ifGoto pair.first]) := by
      simp [e₁, Emission.pushUnless, Emission.push,
        Expression.toList_emit condition _ hcondition]
    have htracks₁ : Tracks site.className e₁.labels _ := htracks.draw .if
    have hbody := Statement.extends_emitAll body _ e₁ htracks₁ hbody
    have halternative := Statement.extends_emitAll alternative _ e₂ hbody.labels halternative
    have hcode' : e₂.code.toList = e₁.code.toList ++
        ((Statement.translateAll site subroutine ((n subroutine).succ .if) body).map capped ++
          [.goto pair.second, .label pair.first]) := by
      simp [e₂, Emission.push, hbody.code]
    constructor
    · change ((JackLang.Statement.emitAll site.className subroutine alternative' e₂).push
        (.label pair.second)).code.toList = _
      simp [Emission.push, halternative.code, hcode', hcode, Statement.translateAll,
        Statement.translate, pair, htracks.draw_fst, Construct.firstBase, Construct.secondBase]
    · change Tracks _ (JackLang.Statement.emitAll site.className subroutine alternative' e₂).labels
        _
      rw [Numbering.behind_ifElse]
      simpa using halternative.labels
  | .while condition body, _, n, e, htracks, h => by
    simp [Statement.resolve?, Option.bind_eq_some_iff] at h
    obtain ⟨condition', hcondition, body', hbody, rfl⟩ := h
    let pair := (e.labels.draw site.className subroutine .while).1
    let e₁ := Emission.pushUnless ⟨condition'.emit (e.code.push (.label pair.first)),
      (e.labels.draw site.className subroutine .while).2⟩ pair.second
    have hcode : e₁.code.toList = e.code.toList ++
        (.label pair.first :: ((condition.translate site).map capped ++
          [.operate .not, .ifGoto pair.second])) := by
      simp [e₁, Emission.pushUnless, Emission.push,
        Expression.toList_emit condition _ hcondition]
    have htracks₁ : Tracks site.className e₁.labels _ := htracks.draw .while
    have hbody := Statement.extends_emitAll body _ e₁ htracks₁ hbody
    constructor
    · change (((JackLang.Statement.emitAll site.className subroutine body' e₁).push
        (.goto pair.first)).push (.label pair.second)).code.toList = _
      simp [Emission.push, hbody.code, hcode, Statement.translateAll, Statement.translate, pair,
        htracks.draw_fst, Construct.firstBase, Construct.secondBase]
    · change Tracks _ (JackLang.Statement.emitAll site.className subroutine body' e₁).labels _
      rw [Numbering.behind_while]
      simpa using hbody.labels
  | .call qualifier subroutine' arguments, _, n, e, htracks, h => by
    simp [Statement.resolve?, Option.bind_eq_some_iff] at h
    obtain ⟨callee, hcallee, arguments', harguments, rfl⟩ := h
    have hcall : (Term.call qualifier subroutine' arguments).resolve? site =
        some (.call callee subroutine' arguments') := by
      simp [Term.resolve?, hcallee, harguments]
    refine .of_simple htracks ?_ fun _ => rfl
    have := Term.toList_emit _ e.code hcall
    simp [Statement.translate, this]
  | .return none, _, n, e, htracks, h => by
    cases h
    refine .of_simple htracks ?_ fun _ => rfl
    simp [Statement.translate]
  | .return (some value), _, n, e, htracks, h => by
    simp [Statement.resolve?, Option.bind_eq_some_iff] at h
    obtain ⟨value', hvalue, rfl⟩ := h
    refine .of_simple htracks ?_ fun _ => rfl
    simp [Statement.translate, Expression.toList_emit value _ hvalue]
termination_by structural s => s

theorem Statement.extends_emitAll : ∀ (ss : List Statement) {ss' : List JackLang.Statement}
    (n : String → Numbering) (e : Emission), Tracks site.className e.labels n →
      Statement.resolveAll? site ss = some ss' →
        Extends site subroutine n e ss (JackLang.Statement.emitAll site.className subroutine ss' e)
  | [], _, n, e, htracks, h => by cases h; exact .nil htracks
  | s :: ss, _, n, e, htracks, h => by
    simp [Statement.resolveAll?, Option.bind_eq_some_iff] at h
    obtain ⟨s', hs, ss', hss, rfl⟩ := h
    have hfirst := Statement.extends_emit s n e htracks hs
    exact hfirst.cons (Statement.extends_emitAll ss _ _ hfirst.labels hss)
termination_by structural ss => ss

end

/-! ### Subroutines and classes -/

theorem length_nextAll (env : Environment) (ds : List Declared) :
    (env.nextAll ds).length = ds.length := by
  induction ds generalizing env with
  | nil => rfl
  | cons d ds ih => simp [Environment.nextAll, ih]

theorem Declaration.length_declared (kind : VarKind) (d : Declaration) :
    (d.declared kind).length = d.names.length :=
  List.length_map ..

theorem count_resolveAll (kind : VarKind) (env : Environment) (ds : List (VarKind × Declaration)) :
    JackLang.Declaration.count kind (Declaration.resolveAll env ds) =
      ((ds.filter (·.1 = kind)).flatMap (·.2.names)).length := by
  induction ds generalizing env with
  | nil => rfl
  | cons d ds ih =>
    obtain ⟨kind', d⟩ := d
    have ih := ih (env.declareAll (d.declared kind'))
    simp only [JackLang.Declaration.count, List.length_flatMap] at ih ⊢
    by_cases h : kind' = kind
    · subst h
      simp [Declaration.resolveAll, ih, length_nextAll, Declaration.length_declared]
    · simp [Declaration.resolveAll, h, ih]

theorem Subroutine.count_locals (s : Subroutine) (env : Environment) :
    JackLang.Declaration.count .local
      (Declaration.resolveAll env (s.locals.map fun d => (.local, d))) = s.localCount := by
  rw [count_resolveAll, localCount, List.filter_eq_self.2 (by simp), List.flatMap_map]

theorem Class.count_fields (c : Class) :
    JackLang.Declaration.count .field
      (Declaration.resolveAll {} (c.declarations.map fun d => (d.1.kind, d.2))) = c.fieldCount := by
  have h : ∀ level : ClassLevel, level.kind = .field ↔ level = .field := by
    intro level; cases level <;> decide
  rw [count_resolveAll, fieldCount, List.filter_map, List.flatMap_map]
  simp [Function.comp_def, h]

theorem Subroutine.toList_emit {c : Class} {s : Subroutine} {s' : JackLang.Subroutine} {k : Nat}
    {e : Emission} (h : s.resolve? c = some s') (htracks : Tracks c.name e.labels (c.numbering k)) :
    (s'.emit c.name c.fieldCount e).code.toList = e.code.toList ++ (c.block k s).map capped ∧
      Tracks c.name (s'.emit c.name c.fieldCount e).labels (Function.update (c.numbering k) s.name
        ((c.numbering k s.name).behind s.body)) := by
  simp [Subroutine.resolve?, Option.bind_eq_some_iff] at h
  obtain ⟨body, hbody, rfl⟩ := h
  let e₁ := (s.kind.prologue c.fieldCount).foldl Emission.push
    (e.push (.function s!"{c.name}.{s.name}" s.localCount))
  have hcode : e₁.code.toList = e.code.toList ++
      .function s!"{c.name}.{s.name}" s.localCount :: s.prologue c.fieldCount := by
    cases hk : s.kind <;>
      simp [e₁, hk, SubroutineKind.prologue, Emission.push, Subroutine.prologue]
  have htracks₁ : Tracks c.name e₁.labels (c.numbering k) := by
    cases hk : s.kind <;> simpa [e₁, hk, SubroutineKind.prologue, Emission.push] using htracks
  have hemit : Extends (c.site s) s.name (c.numbering k) e₁ s.body _ :=
    Statement.extends_emitAll s.body _ e₁ htracks₁ hbody
  simp only [JackLang.Subroutine.emit, Subroutine.count_locals]
  change (JackLang.Statement.emitAll (c.site s).className s.name body e₁).code.toList = _ ∧
    Tracks c.name (JackLang.Statement.emitAll (c.site s).className s.name body e₁).labels _
  refine ⟨?_, hemit.labels⟩
  rw [hemit.code, hcode]
  simp [Class.block]

theorem Class.toList_emitAll {c : Class} : ∀ (rest done : List Subroutine)
    {rest' : List JackLang.Subroutine} (e : Emission), c.subroutines = done ++ rest →
      Subroutine.resolveAll? c rest = some rest' →
        Tracks c.name e.labels (c.numbering done.length) →
        (rest'.foldl (fun e s => s.emit c.name c.fieldCount e) e).code.toList =
          e.code.toList ++ (rest.mapIdx fun i s => c.block (done.length + i) s).flatten.map capped
  | [], _, _, e, _, h, _ => by cases h; simp
  | s :: rest, done, _, e, hc, h, htracks => by
    simp [Subroutine.resolveAll?, Option.bind_eq_some_iff] at h
    obtain ⟨s', hs, rest', hrest, rfl⟩ := h
    have ⟨hcode, hlabels⟩ := Subroutine.toList_emit hs htracks
    have hget : c.subroutines[done.length]? = some s := by simp [hc]
    have ih := Class.toList_emitAll rest (done ++ [s]) (s'.emit c.name c.fieldCount e)
      (by simp [hc]) hrest
      (by rwa [List.length_append, List.length_singleton, Class.numbering_succ hget])
    rw [List.foldl_cons, ih, hcode, List.mapIdx_cons]
    simp [Nat.add_assoc, Nat.add_comm 1]

/-- The code that a resolved class emits is the translation of its tree, as far as calls count. -/
theorem Class.toList_emit_capped {c : Class} {c' : JackLang.Class} (h : c.resolve? = some c') :
    c'.emit.toList = c.translate.map capped := by
  simp [Class.resolve?, Option.bind_eq_some_iff] at h
  obtain ⟨subroutines, hsubroutines, rfl⟩ := h
  have := Class.toList_emitAll c.subroutines [] {} rfl hsubroutines (tracks_empty c.name)
  simpa [JackLang.Class.emit, Class.count_fields, Class.translate] using this

end Syntax
end JackLang
