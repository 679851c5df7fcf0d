import JackLang.Proofs.Syntax.Validity

/-! Resolution: the class of a tree, with every name replaced by the variable it stands for. It
fails at names that nothing declares and at a current object where there is none. -/

namespace JackLang.Syntax

namespace Site

/-- Where a phrase has the current object. -/
def receiver? (site : Site) : Option Receiver := site.kind.receiver?

/-- What stands before the name of a called subroutine. -/
def callee? (site : Site) : Option String → Option Callee
  | none => site.receiver?.map (.own · site.className)
  | some qualifier =>
    match site.find? qualifier with
    | some v => some (.object v)
    | none => some (.ofClass qualifier)

end Site

mutual

def Term.resolve? (site : Site) : Term → Option JackLang.Term
  | .integer value => some (.integer value)
  | .string text => some (.string text)
  | .constant constant => some (.constant constant)
  | .this => site.receiver?.map .this
  | .variable name => (site.find? name).map .variable
  | .element array index => do return .element (← site.find? array) (← index.resolve? site)
  | .call qualifier subroutine arguments => do
    return .call (← site.callee? qualifier) subroutine (← Expression.resolveAll? site arguments)
  | .group inner => do return .group (← inner.resolve? site)
  | .unary op operand => do return .unary op (← operand.resolve? site)
termination_by structural term => term

def Expression.resolve? (site : Site) : Expression → Option JackLang.Expression
  | .mk first rest => do return .mk (← first.resolve? site) (← Expression.resolveRest? site rest)
termination_by structural expression => expression

def Expression.resolveRest? (site : Site) :
    List (Operator × Term) → Option (List (Operator × JackLang.Term))
  | [] => some []
  | (op, operand) :: rest => do
    return (op, ← operand.resolve? site) :: (← Expression.resolveRest? site rest)
termination_by structural rest => rest

def Expression.resolveAll? (site : Site) : List Expression → Option (List JackLang.Expression)
  | [] => some []
  | expression :: rest => do
    return (← expression.resolve? site) :: (← Expression.resolveAll? site rest)
termination_by structural expressions => expressions

end

mutual

def Statement.resolve? (site : Site) : Statement → Option JackLang.Statement
  | .assign target value => do return .assign (← site.find? target) (← value.resolve? site)
  | .assignElement array index value => do
    return .assignElement (← site.find? array) (← index.resolve? site) (← value.resolve? site)
  | .ifThen condition body => do
    return .ifThen (← condition.resolve? site) (← Statement.resolveAll? site body)
  | .ifElse condition body alternative => do
    return .ifElse (← condition.resolve? site) (← Statement.resolveAll? site body)
      (← Statement.resolveAll? site alternative)
  | .while condition body => do
    return .while (← condition.resolve? site) (← Statement.resolveAll? site body)
  | .call qualifier subroutine arguments => do
    return .call (← site.callee? qualifier) subroutine (← Expression.resolveAll? site arguments)
  | .return none => some (.return none)
  | .return (some value) => do return .return (some (← value.resolve? site))
termination_by structural statement => statement

def Statement.resolveAll? (site : Site) : List Statement → Option (List JackLang.Statement)
  | [] => some []
  | statement :: rest => do
    return (← statement.resolve? site) :: (← Statement.resolveAll? site rest)
termination_by structural statements => statements

end

/-- What declarations of some kinds declare together. -/
def Declaration.declaredAll (ds : List (VarKind × Declaration)) : List Declared :=
  ds.flatMap fun d => d.2.declared d.1

/-- The variables of declarations that stand one behind the other. -/
def Declaration.resolveAll (env : Environment) :
    List (VarKind × Declaration) → List JackLang.Declaration
  | [] => []
  | (kind, d) :: rest => ⟨kind, d.type, env.nextAll (d.declared kind)⟩ ::
    Declaration.resolveAll (env.declareAll (d.declared kind)) rest

theorem Declaration.resolveAll_append (env : Environment) (ds es : List (VarKind × Declaration)) :
    Declaration.resolveAll env (ds ++ es) = Declaration.resolveAll env ds ++
      Declaration.resolveAll (env.declareAll (Declaration.declaredAll ds)) es := by
  induction ds generalizing env with
  | nil => rfl
  | cons d ds ih =>
    have hdeclared : Declaration.declaredAll (d :: ds) =
        d.2.declared d.1 ++ Declaration.declaredAll ds := rfl
    rw [hdeclared, Environment.declareAll_append, List.cons_append, Declaration.resolveAll,
      Declaration.resolveAll, ih, List.cons_append]

theorem Class.isClassLevel_declarations (c : Class) :
    ∀ d ∈ Declaration.declaredAll (c.declarations.map fun d => (d.1.kind, d.2)),
      d.kind.isClassLevel := by
  simp only [Declaration.declaredAll, Declaration.declared, List.flatMap_map, List.mem_map,
    List.mem_flatMap]
  rintro _ ⟨⟨level, d⟩, -, name, -, rfl⟩
  cases level <;> rfl

theorem declareAll_declared (c : Class) :
    ({} : Environment).declareAll
      (Declaration.declaredAll (c.declarations.map fun d => (d.1.kind, d.2))) =
      ⟨c.declared, []⟩ := by
  rw [Environment.declareAll_classLevel c.isClassLevel_declarations, Class.declared,
    Declaration.declaredAll, List.flatMap_map, List.nil_append]

theorem Subroutine.not_isClassLevel_declarations (s : Subroutine) :
    ∀ d ∈ s.declaredParameters ++ Declaration.declaredAll (s.locals.map fun d => (.local, d)),
      ¬ d.kind.isClassLevel := by
  simp only [List.mem_append, Subroutine.declaredParameters, Declaration.declaredAll,
    Declaration.declared, List.flatMap_map, List.mem_map, List.mem_flatMap]
  rintro _ (⟨p, -, rfl⟩ | ⟨d, -, name, -, rfl⟩) <;> simp [VarKind.isClassLevel]

theorem declareAll_parameters_locals (c : Class) (s : Subroutine) :
    ((⟨c.declared, Subroutine.receiver c.name s.kind⟩ : Environment).declareAll
        s.declaredParameters).declareAll
        (Declaration.declaredAll (s.locals.map fun d => (.local, d))) =
      (c.site s).environment := by
  rw [← Environment.declareAll_append,
    Environment.declareAll_subroutineLevel s.not_isClassLevel_declarations, Class.site,
    Subroutine.declared, Subroutine.written, Subroutine.declaredLocals, Declaration.declaredAll,
    List.flatMap_map]

namespace Subroutine

def resolve? (c : Class) (s : Subroutine) : Option JackLang.Subroutine := do
  let env : Environment := ⟨c.declared, receiver c.name s.kind⟩
  return {
    kind := s.kind
    returnType := s.returnType
    name := s.name
    parameters := env.nextAll s.declaredParameters
    locals := Declaration.resolveAll (env.declareAll s.declaredParameters) (s.locals.map fun d => (.local, d))
    body := ← Statement.resolveAll? (c.site s) s.body }

def resolveAll? (c : Class) : List Subroutine → Option (List JackLang.Subroutine)
  | [] => some []
  | s :: rest => do return (← s.resolve? c) :: (← resolveAll? c rest)

end Subroutine

namespace Class

def resolve? (c : Class) : Option JackLang.Class := do
  return {
    name := c.name
    declarations := Declaration.resolveAll {} (c.declarations.map fun d => (d.1.kind, d.2))
    subroutines := ← Subroutine.resolveAll? c c.subroutines }

end Class

end JackLang.Syntax
