import JackLang.Proofs.Syntax.Leaves

/-! What the leaves before a place tell of the place, also where no tree has been completed yet: the
names declared there, by their scopes, and the kind of the subroutine that the place belongs to
(`Outline.of`). Statements declare nothing, so the whole of a body has one outline
(`Outline.of_append`). -/

namespace JackLang.Syntax

/-- The names in force at a place, each with its kind, in the order of their declarations. -/
structure Outline where
  /-- The kind of the subroutine, inside one. -/
  kind? : Option SubroutineKind := none
  classLevel : List (String × VarKind) := []
  subroutineLevel : List (String × VarKind) := []
deriving DecidableEq, Repr

namespace Outline

/-- The scope that variables of a kind live in. -/
def level (o : Outline) (kind : VarKind) : List (String × VarKind) :=
  if kind.isClassLevel then o.classLevel else o.subroutineLevel

/-- Whether the scope of a kind has a name. -/
def Has (o : Outline) (kind : VarKind) (name : String) : Prop := name ∈ (o.level kind).map (·.1)

/-- Whether a name is declared in either scope. -/
def Declares (o : Outline) (name : String) : Prop :=
  name ∈ o.subroutineLevel.map (·.1) ∨ name ∈ o.classLevel.map (·.1)

def count (o : Outline) (kind : VarKind) : Nat := (o.level kind).countP (·.2 = kind)

def declare (o : Outline) (name : String) (kind : VarKind) : Outline :=
  if kind.isClassLevel then { o with classLevel := o.classLevel ++ [(name, kind)] }
  else { o with subroutineLevel := o.subroutineLevel ++ [(name, kind)] }

/-- The first argument of a method is its current object. -/
def receiver : SubroutineKind → List (String × VarKind)
  | .constructor | .function => []
  | .method => [("this", .argument)]

def enter (o : Outline) (kind : SubroutineKind) : Outline :=
  { o with kind? := some kind, subroutineLevel := receiver kind }

/-- Names are declared where they play that part, and a subroutine begins with its keyword. -/
def read (o : Outline) (leaf : Leaf) : Outline :=
  match leaf.token, leaf.role with
  | .identifier name, .declares kind => o.declare name kind
  | .keyword .constructor, _ => o.enter .constructor
  | .keyword .function, _ => o.enter .function
  | .keyword .method, _ => o.enter .method
  | _, _ => o

def of (leaves : List Leaf) : Outline := leaves.foldl read {}

@[simp] theorem of_concat (leaves : List Leaf) (leaf : Leaf) :
    of (leaves ++ [leaf]) = (of leaves).read leaf := List.foldl_concat ..

@[simp] theorem read_declares (o : Outline) (name : String) (kind : VarKind) :
    o.read (.name (.declares kind) name) = o.declare name kind := rfl

@[simp] theorem read_subroutine (o : Outline) (kind : SubroutineKind) :
    o.read (.keyword kind.keyword) = o.enter kind := by
  cases kind <;> rfl

@[simp] theorem kind?_declare (o : Outline) (name : String) (kind : VarKind) :
    (o.declare name kind).kind? = o.kind? := by
  rw [declare]
  split <;> rfl

theorem has_declare_iff {o : Outline} {kind kind' : VarKind} {name name' : String} :
    (o.declare name' kind').Has kind name ↔
      o.Has kind name ∨ kind'.isClassLevel = kind.isClassLevel ∧ name' = name := by
  by_cases h : kind.isClassLevel <;> by_cases h' : kind'.isClassLevel <;>
    simp [Has, level, declare, h, h', eq_comm]

theorem Has.of_enter {o : Outline} {kind : VarKind} {kind' : SubroutineKind} {name : String}
    (h : (o.enter kind').Has kind name) : kind.isClassLevel ∧ o.Has kind name ∨ name = "this" := by
  rw [Has, level] at h
  split at h
  · next hclass =>
    refine .inl ⟨hclass, ?_⟩
    rwa [Has, level, if_pos hclass]
  · cases kind' with
    | constructor | function => cases h
    | method => exact .inr (List.mem_singleton.1 h)

theorem read_of_token_eq {leaf : Leaf} {kind : SubroutineKind} (h : leaf.token = .keyword kind.keyword)
    (o : Outline) : o.read leaf = o.enter kind := by
  rw [read, h]
  cases kind <;> rfl

/-- The three ways to read a leaf. -/
theorem read_cases (o : Outline) (leaf : Leaf) :
    (∃ kind name, leaf = .name (.declares kind) name) ∨
      (∃ kind : SubroutineKind, leaf.token = .keyword kind.keyword) ∨
      ((∀ kind : SubroutineKind, leaf.token ≠ .keyword kind.keyword) ∧ o.read leaf = o) := by
  obtain ⟨token, role⟩ := leaf
  cases token with
  | identifier name =>
    cases role with
    | declares kind => exact .inl ⟨kind, name, rfl⟩
    | _ => exact .inr (.inr ⟨nofun, rfl⟩)
  | keyword k =>
    cases k with
    | constructor => exact .inr (.inl ⟨.constructor, rfl⟩)
    | function => exact .inr (.inl ⟨.function, rfl⟩)
    | method => exact .inr (.inl ⟨.method, rfl⟩)
    | _ => exact .inr (.inr ⟨fun kind => by cases kind <;> nofun, rfl⟩)
  | _ => exact .inr (.inr ⟨nofun, rfl⟩)

/-- A place in a subroutine is behind the keyword of the subroutine. -/
theorem exists_of_kind?_eq {leaves : List Leaf} {kind : SubroutineKind}
    (h : (of leaves).kind? = some kind) :
    ∃ before leaf after, leaves = before ++ leaf :: after ∧ leaf.token = .keyword kind.keyword := by
  induction leaves using List.reverseRecOn with
  | nil => cases h
  | append_singleton leaves leaf ih =>
    have hstep (hkind : (of leaves).kind? = some kind) : ∃ before leaf' after,
        leaves ++ [leaf] = before ++ leaf' :: after ∧ leaf'.token = .keyword kind.keyword := by
      obtain ⟨before, leaf', after, rfl, htoken⟩ := ih hkind
      exact ⟨before, leaf', after ++ [leaf], by simp, htoken⟩
    rw [of_concat] at h
    rcases read_cases (of leaves) leaf with ⟨kind', name, rfl⟩ | ⟨kind', htoken⟩ | ⟨-, hread⟩
    · rw [read_declares, kind?_declare] at h
      exact hstep h
    · rw [read_of_token_eq htoken] at h
      cases h
      exact ⟨leaves, leaf, [], rfl, htoken⟩
    · exact hstep (hread ▸ h)

end Outline

/-! ### Declarations before a place -/

/-- Among some leaves a name is declared in the scope of a kind: statics and fields in that of the
class, arguments and locals in that of the subroutine at the end of the leaves. -/
def DeclaredBefore (leaves : List Leaf) (kind : VarKind) (name : String) : Prop :=
  ∃ before kind' after, leaves = before ++ .name (.declares kind') name :: after ∧
    kind'.isClassLevel = kind.isClassLevel ∧
    (kind.isClassLevel ∨ ∀ leaf ∈ after, ∀ kind : SubroutineKind, leaf.token ≠ .keyword kind.keyword)

theorem DeclaredBefore.concat {leaves : List Leaf} {kind : VarKind} {name : String} {leaf : Leaf}
    (h : DeclaredBefore leaves kind name)
    (hleaf : kind.isClassLevel ∨ ∀ kind : SubroutineKind, leaf.token ≠ .keyword kind.keyword) :
    DeclaredBefore (leaves ++ [leaf]) kind name := by
  obtain ⟨before, kind', after, rfl, hlevel, hafter⟩ := h
  refine ⟨before, kind', after ++ [leaf], by simp, hlevel, ?_⟩
  rcases hleaf with hclass | hleaf
  · exact .inl hclass
  · exact hafter.imp_right fun h =>
      List.forall_mem_append.2 ⟨h, List.forall_mem_singleton.2 hleaf⟩

/-- The names of an outline are those declared before the place, and the current object. -/
theorem Outline.Has.declaredBefore {leaves : List Leaf} {kind : VarKind} {name : String}
    (h : (Outline.of leaves).Has kind name) (hname : name ≠ "this") :
    DeclaredBefore leaves kind name := by
  induction leaves using List.reverseRecOn with
  | nil =>
    rw [Has, level] at h
    split at h <;> cases h
  | append_singleton leaves leaf ih =>
    rw [of_concat] at h
    rcases read_cases (of leaves) leaf with ⟨kind', name', rfl⟩ | ⟨kind', htoken⟩ | ⟨hleaf, hread⟩
    · rw [read_declares, has_declare_iff] at h
      rcases h with h | ⟨hlevel, rfl⟩
      · exact (ih h).concat (.inr nofun)
      · exact ⟨leaves, kind', [], rfl, hlevel, .inr (List.forall_mem_nil _)⟩
    · rw [read_of_token_eq htoken] at h
      rcases h.of_enter with ⟨hclass, h⟩ | hthis
      · exact (ih h).concat (.inl hclass)
      · exact absurd hthis hname
    · exact (ih (hread ▸ h)).concat (.inr hleaf)

/-! ### Leaves that declare nothing -/

/-- Leaves that leave every outline as it is. -/
def Quiet (leaves : List Leaf) : Prop := ∀ leaf ∈ leaves, ∀ o : Outline, o.read leaf = o

theorem Outline.foldl_read_eq {leaves : List Leaf} (h : Quiet leaves) {o : Outline} :
    leaves.foldl read o = o := by
  induction leaves with
  | nil => rfl
  | cons leaf leaves ih =>
    rw [List.foldl_cons, h leaf List.mem_cons_self]
    exact ih (List.forall_mem_of_forall_mem_cons h)

theorem Outline.of_append {leaves leaves' : List Leaf} (h : Quiet leaves') :
    Outline.of (leaves ++ leaves') = Outline.of leaves := by
  rw [of, List.foldl_append, foldl_read_eq h, of]

/-- No subroutine begins in leaves that declare nothing. -/
theorem Quiet.token_ne {leaves : List Leaf} (h : Quiet leaves) {leaf : Leaf} (hleaf : leaf ∈ leaves)
    (kind : SubroutineKind) : leaf.token ≠ .keyword kind.keyword := by
  intro htoken
  have hread := h leaf hleaf {}
  rw [Outline.read_of_token_eq htoken] at hread
  cases congrArg Outline.kind? hread

section quiet

variable {leaf : Leaf} {xs ys : List Leaf}

@[simp] theorem quiet_nil : Quiet [] := List.forall_mem_nil _

@[simp] theorem quiet_append_iff : Quiet (xs ++ ys) ↔ Quiet xs ∧ Quiet ys := List.forall_mem_append

@[simp] theorem quiet_cons_iff : Quiet (leaf :: xs) ↔ (∀ o : Outline, o.read leaf = o) ∧ Quiet xs :=
  List.forall_mem_cons

@[simp] theorem read_symbol (o : Outline) (symbol : Symbol) : o.read (.symbol symbol) = o := rfl

theorem read_keyword {k : Keyword} (h : k ∉ [.constructor, .function, .method]) (o : Outline) :
    o.read (.keyword k) = o := by
  cases k with
  | constructor | function | method => simp at h
  | _ => rfl

theorem read_name {role : Role} (h : ∀ kind, role ≠ .declares kind) (o : Outline) (name : String) :
    o.read (.name role name) = o := by
  cases role with
  | declares kind => exact absurd rfl (h kind)
  | _ => rfl

theorem quiet_symbol (symbol : Symbol) : Quiet [.symbol symbol] := by simp

theorem quiet_keyword {k : Keyword} (h : k ∉ [.constructor, .function, .method]) :
    Quiet [.keyword k] := by
  simp [read_keyword h]

theorem quiet_name {role : Role} (h : ∀ kind, role ≠ .declares kind) (name : String) :
    Quiet [.name role name] := by
  simp [read_name h]

@[simp] theorem quiet_enclosed_iff {opening closing : Symbol} :
    Quiet (enclosed opening closing xs) ↔ Quiet xs := by
  simp [enclosed]

theorem quiet_callLeaves (subroutine : String) (qualifier : Option String) :
    Quiet (callLeaves subroutine qualifier) := by
  cases qualifier <;> simp [callLeaves, read_name]

end quiet

mutual

theorem Term.quiet_leaves : ∀ term : Term, Quiet term.leaves
  | .integer _ | .string _ => List.forall_mem_singleton.2 fun _ => rfl
  | .this => by simp [Term.leaves, read_keyword]
  | .constant constant => by
    cases constant <;> simp [Term.leaves, read_keyword, Constant.keyword]
  | .variable _ => by simp [Term.leaves, read_name]
  | .element _ index => by simp [Term.leaves, read_name, Expression.quiet_leaves index]
  | .call qualifier subroutine arguments => by
    simp [Term.leaves, quiet_callLeaves, Expression.quiet_leavesAll arguments]
  | .group inner => by simp [Term.leaves, Expression.quiet_leaves inner]
  | .unary _ operand => by simp [Term.leaves, Term.quiet_leaves operand]
termination_by structural term => term

theorem Expression.quiet_leaves : ∀ expression : Expression, Quiet expression.leaves
  | .mk first rest => by
    simp [Expression.leaves, Term.quiet_leaves first, Expression.quiet_leavesRest rest]
termination_by structural expression => expression

theorem Expression.quiet_leavesRest : ∀ rest : List (Operator × Term),
    Quiet (Expression.leavesRest rest)
  | [] => quiet_nil
  | (_, operand) :: rest => by
    simp [Expression.leavesRest, Term.quiet_leaves operand, Expression.quiet_leavesRest rest]
termination_by structural rest => rest

theorem Expression.quiet_leavesAll : ∀ expressions : List Expression,
    Quiet (Expression.leavesAll expressions)
  | [] => quiet_nil
  | expression :: rest => by
    simp [Expression.leavesAll, Expression.quiet_leaves expression, Expression.quiet_leavesMore rest]
termination_by structural expressions => expressions

theorem Expression.quiet_leavesMore : ∀ expressions : List Expression,
    Quiet (Expression.leavesMore expressions)
  | [] => quiet_nil
  | expression :: rest => by
    simp [Expression.leavesMore, Expression.quiet_leaves expression, Expression.quiet_leavesMore rest]
termination_by structural expressions => expressions

end

mutual

theorem Statement.quiet_leaves : ∀ statement : Statement, Quiet statement.leaves
  | .assign _ value => by
    simp [Statement.leaves, read_name, read_keyword, Expression.quiet_leaves value]
  | .assignElement _ index value => by
    simp [Statement.leaves, read_name, read_keyword, Expression.quiet_leaves index,
      Expression.quiet_leaves value]
  | .ifThen condition body => by
    simp [Statement.leaves, read_keyword, Expression.quiet_leaves condition,
      Statement.quiet_leavesAll body]
  | .ifElse condition body alternative => by
    simp [Statement.leaves, read_keyword, Expression.quiet_leaves condition,
      Statement.quiet_leavesAll body, Statement.quiet_leavesAll alternative]
  | .while condition body => by
    simp [Statement.leaves, read_keyword, Expression.quiet_leaves condition,
      Statement.quiet_leavesAll body]
  | .call qualifier subroutine arguments => by
    simp [Statement.leaves, read_keyword, quiet_callLeaves, Expression.quiet_leavesAll arguments]
  | .return none => by simp [Statement.leaves, read_keyword]
  | .return (some value) => by
    simp [Statement.leaves, read_keyword, Expression.quiet_leaves value]
termination_by structural statement => statement

theorem Statement.quiet_leavesAll : ∀ statements : List Statement,
    Quiet (Statement.leavesAll statements)
  | [] => quiet_nil
  | statement :: rest => by
    simp [Statement.leavesAll, Statement.quiet_leaves statement, Statement.quiet_leavesAll rest]
termination_by structural statements => statements

end

/-! ### Leaves that declare nothing for the class -/

/-- Leaves that leave the scope of the class as it is. -/
def ClassQuiet (leaves : List Leaf) : Prop :=
  ∀ leaf ∈ leaves, ∀ o : Outline, (o.read leaf).classLevel = o.classLevel

theorem Quiet.classQuiet {leaves : List Leaf} (h : Quiet leaves) : ClassQuiet leaves :=
  fun leaf hleaf o => congrArg Outline.classLevel (h leaf hleaf o)

theorem Outline.classLevel_of_append {leaves leaves' : List Leaf} (h : ClassQuiet leaves') :
    (Outline.of (leaves ++ leaves')).classLevel = (Outline.of leaves).classLevel := by
  induction leaves' using List.reverseRecOn with
  | nil => rw [List.append_nil]
  | append_singleton leaves' leaf ih =>
    rw [← List.append_assoc, of_concat, h leaf (by simp)]
    exact ih fun leaf' hleaf => h leaf' (List.mem_append_left _ hleaf)

section classQuiet

variable {leaf : Leaf} {xs ys : List Leaf}

theorem classQuiet_append_iff : ClassQuiet (xs ++ ys) ↔ ClassQuiet xs ∧ ClassQuiet ys :=
  List.forall_mem_append

theorem classQuiet_cons_iff : ClassQuiet (leaf :: xs) ↔
    (∀ o : Outline, (o.read leaf).classLevel = o.classLevel) ∧ ClassQuiet xs :=
  List.forall_mem_cons

theorem classQuiet_enclosed {opening closing : Symbol} (h : ClassQuiet xs) :
    ClassQuiet (enclosed opening closing xs) :=
  classQuiet_cons_iff.2
    ⟨fun _ => rfl, classQuiet_append_iff.2 ⟨h, (quiet_symbol closing).classQuiet⟩⟩

theorem classQuiet_flatMap {β : Type} {f : β → List Leaf} {bs : List β}
    (h : ∀ b ∈ bs, ClassQuiet (f b)) : ClassQuiet (bs.flatMap f) := by
  intro leaf hleaf
  obtain ⟨b, hb, hleaf⟩ := List.mem_flatMap.1 hleaf
  exact h b hb leaf hleaf

theorem classQuiet_separated {β : Type} {f : β → List Leaf} {bs : List β}
    (h : ∀ b ∈ bs, ClassQuiet (f b)) : ClassQuiet (separated (bs.map f)) := by
  cases bs with
  | nil => exact quiet_nil.classQuiet
  | cons b bs =>
    rw [List.map_cons, separated, List.flatMap_map, classQuiet_append_iff]
    refine ⟨h b List.mem_cons_self, classQuiet_flatMap fun b' hb => ?_⟩
    exact classQuiet_cons_iff.2 ⟨fun _ => rfl, h b' (List.mem_cons_of_mem _ hb)⟩

end classQuiet

theorem quiet_typeLeaf (type : VarType) : Quiet [typeLeaf type] := by
  cases type <;> exact List.forall_mem_singleton.2 fun _ => rfl

theorem classQuiet_name {kind : VarKind} (h : kind.isClassLevel = false) (name : String) :
    ClassQuiet [.name (.declares kind) name] := by
  refine List.forall_mem_singleton.2 fun o => ?_
  rw [Outline.read_declares, Outline.declare, h]
  rfl

theorem Declaration.classQuiet_leaves {kind : VarKind} (h : kind.isClassLevel = false)
    (d : Declaration) : ClassQuiet (d.leaves kind) := by
  rw [leaves, ← List.singleton_append, classQuiet_append_iff, classQuiet_append_iff]
  refine ⟨(quiet_typeLeaf d.type).classQuiet, ?_, (quiet_symbol .semicolon).classQuiet⟩
  exact classQuiet_separated fun name _ => classQuiet_name h name

theorem Parameter.classQuiet_leaves (p : Parameter) : ClassQuiet p.leaves :=
  classQuiet_append_iff.2 ⟨(quiet_typeLeaf p.type).classQuiet, classQuiet_name rfl p.name⟩

theorem Subroutine.quiet_returnLeaf (s : Subroutine) : Quiet [s.returnLeaf] := by
  rw [returnLeaf]
  cases s.returnType with
  | none => exact quiet_keyword (by simp)
  | some type => exact quiet_typeLeaf type

/-- A subroutine declares nothing for the class. -/
theorem Subroutine.classQuiet_leaves (s : Subroutine) : ClassQuiet s.leaves := by
  have hlocals : ClassQuiet (s.locals.flatMap fun d => .keyword .var :: d.leaves .local) :=
    classQuiet_flatMap fun d _ =>
      classQuiet_cons_iff.2 ⟨fun _ => rfl, Declaration.classQuiet_leaves rfl d⟩
  have hbody : ClassQuiet s.bodyLeaves :=
    classQuiet_enclosed
      (classQuiet_append_iff.2 ⟨hlocals, (Statement.quiet_leavesAll s.body).classQuiet⟩)
  have hparameters : ClassQuiet (separated (s.parameters.map Parameter.leaves)) :=
    classQuiet_separated fun p _ => p.classQuiet_leaves
  rw [leaves, classQuiet_cons_iff]
  refine ⟨fun o => by rw [Outline.read_subroutine]; rfl, ?_⟩
  refine classQuiet_append_iff.2 ⟨s.quiet_returnLeaf.classQuiet, ?_⟩
  refine classQuiet_cons_iff.2 ⟨fun _ => rfl, ?_⟩
  exact classQuiet_append_iff.2 ⟨classQuiet_enclosed hparameters, hbody⟩

end JackLang.Syntax
