import JackLang.Proofs.Syntax.Outline
import JackLang.Proofs.Syntax.Resolution

/-! Where in a class a leaf stands. What only statements write stands in a subroutine
(`Class.exists_encloses`), and the outline of the leaves before it has just the names that the
subroutine and the class declare (`Class.Encloses.outline_eq`). -/

namespace JackLang

open Syntax (Outline)

/-- The names of an environment with their kinds, at a place in a subroutine or outside of any. -/
def Environment.outline (env : Environment) (kind? : Option SubroutineKind) : Outline :=
  ⟨kind?, env.classLevel.map fun d => (d.name, d.kind),
    env.subroutineLevel.map fun d => (d.name, d.kind)⟩

namespace Environment

variable {env : Environment} {kind? : Option SubroutineKind} {kind : VarKind} {name : String}
  {type : VarType}

theorem has_outline_iff :
    (env.outline kind?).Has kind name ↔ name ∈ (env.level kind).map (·.name) := by
  rw [Outline.Has, Outline.level, level]
  split <;> simp [outline]

theorem count_outline : (env.outline kind?).count kind = env.count kind := by
  rw [Outline.count, Outline.level, count, level, Declared.count]
  split <;> simp only [outline, List.countP_map, Function.comp_def]

theorem declares_outline_iff :
    (env.outline kind?).Declares name ↔ (env.find? name).isSome := by
  rw [isSome_find?_iff, Outline.Declares, outline, List.map_map, List.map_map]
  exact Iff.rfl

theorem outline_declare : (env.declare ⟨name, type, kind⟩).outline kind? =
    (env.outline kind?).declare name kind := by
  rw [declare, Outline.declare]
  split <;> simp [outline]

end Environment

namespace Syntax

/-! ### Parts of a list -/

section split

variable {α β : Type} {xs ys h rest : List α} {x : α}

/-- An element of a concatenation stands in the first part or behind it. -/
theorem split_append (heq : xs ++ ys = h ++ x :: rest) :
    (∃ rest', xs = h ++ x :: rest') ∨ ∃ h', h = xs ++ h' ∧ ys = h' ++ x :: rest := by
  rcases List.append_eq_append_iff.1 heq with ⟨h', hh, hys⟩ | ⟨tail, hxs, hrest⟩
  · exact .inr ⟨h', hh, hys⟩
  · cases tail with
    | nil => exact .inr ⟨[], by simp [hxs], hrest.symm⟩
    | cons y tail =>
      obtain ⟨rfl, -⟩ := List.cons.inj hrest
      exact .inl ⟨tail, hxs⟩

theorem split_flatMap {f : β → List α} {bs : List β} (heq : bs.flatMap f = h ++ x :: rest) :
    ∃ before b after h' rest', bs = before ++ b :: after ∧ h = before.flatMap f ++ h' ∧
      f b = h' ++ x :: rest' := by
  induction bs generalizing h with
  | nil => simp at heq
  | cons b bs ih =>
    rcases split_append heq with ⟨rest', hb⟩ | ⟨h', hh, hbs⟩
    · exact ⟨[], b, bs, h, rest', rfl, rfl, hb⟩
    · obtain ⟨before, b', after, h'', rest', rfl, rfl, hb⟩ := ih hbs
      refine ⟨b :: before, b', after, h'', rest', rfl, ?_, hb⟩
      rw [hh, List.flatMap_cons, List.append_assoc]

end split

/-! ### Headings -/

/-- What a subroutine writes before its statements. -/
def Subroutine.heading (s : Subroutine) : List Leaf :=
  .keyword s.kind.keyword :: s.returnLeaf :: .name .plain s.name ::
    (enclosed .openParen .closeParen (separated (s.parameters.map Parameter.leaves)) ++
      .symbol .openBrace :: s.locals.flatMap fun d => .keyword .var :: d.leaves .local)

/-- What a class writes before its subroutines. -/
def Class.heading (c : Class) : List Leaf :=
  .keyword .class :: .name .plain c.name :: .symbol .openBrace ::
    c.declarations.flatMap fun d => .keyword d.1.keyword :: d.2.leaves d.1.kind

theorem Subroutine.leaves_eq (s : Subroutine) :
    s.leaves = s.heading ++ (Statement.leavesAll s.body ++ [.symbol .closeBrace]) := by
  simp [leaves, heading, bodyLeaves, enclosed]

theorem Class.leaves_eq (c : Class) :
    c.leaves = c.heading ++ (c.subroutines.flatMap Subroutine.leaves ++ [.symbol .closeBrace]) := by
  simp [leaves, heading, enclosed]

/-! ### What headings declare -/

/-- Leaves that add some declarations to those before them. -/
def Adds (leaves : List Leaf) (ds : List Declared) : Prop :=
  ∀ (env : Environment) (kind? : Option SubroutineKind),
    leaves.foldl Outline.read (env.outline kind?) = (env.declareAll ds).outline kind?

section adds

variable {xs ys : List Leaf} {ds es : List Declared}

theorem Quiet.adds (h : Quiet xs) : Adds xs [] := fun _ _ => Outline.foldl_read_eq h

theorem adds_name (name : String) (type : VarType) (kind : VarKind) :
    Adds [.name (.declares kind) name] [⟨name, type, kind⟩] :=
  fun _ _ => Environment.outline_declare.symm

theorem Adds.append (hxs : Adds xs ds) (hys : Adds ys es) : Adds (xs ++ ys) (ds ++ es) := by
  intro env kind?
  rw [List.foldl_append, hxs, hys, Environment.declareAll_append]

theorem Adds.behind (hys : Adds ys ds) (hxs : Quiet xs) : Adds (xs ++ ys) ds :=
  hxs.adds.append hys

theorem Adds.flatMap {β : Type} {f : β → List Leaf} {g : β → List Declared}
    (h : ∀ b, Adds (f b) (g b)) (bs : List β) : Adds (bs.flatMap f) (bs.flatMap g) := by
  induction bs with
  | nil => exact quiet_nil.adds
  | cons b bs ih => exact (h b).append ih

theorem Adds.separated {β : Type} {f : β → List Leaf} {g : β → List Declared}
    (h : ∀ b, Adds (f b) (g b)) (bs : List β) :
    Adds (separated (bs.map f)) (bs.flatMap g) := by
  cases bs with
  | nil => exact quiet_nil.adds
  | cons b bs =>
    rw [List.map_cons, Syntax.separated, List.flatMap_map]
    exact (h b).append (.flatMap (fun b => (quiet_symbol .comma).adds.append (h b)) bs)

end adds

theorem Declaration.adds_leaves (kind : VarKind) (d : Declaration) :
    Adds (d.leaves kind) (d.declared kind) := by
  have hnames := Adds.separated (fun name => adds_name name d.type kind) d.names
  rw [← List.map_eq_flatMap] at hnames
  have := (hnames.append (quiet_symbol .semicolon).adds).behind (quiet_typeLeaf d.type)
  rwa [List.append_nil] at this

theorem Parameter.adds_leaves (p : Parameter) : Adds p.leaves [⟨p.name, p.type, .argument⟩] :=
  (adds_name p.name p.type .argument).behind (quiet_typeLeaf p.type)

/-- Declarations behind their keywords. -/
theorem adds_declarations {β : Type} (keyword : β → Keyword) (kind : β → VarKind)
    (declaration : β → Declaration) (h : ∀ b, keyword b ∉ [.constructor, .function, .method])
    (bs : List β) : Adds (bs.flatMap fun b => .keyword (keyword b) :: (declaration b).leaves (kind b))
      (bs.flatMap fun b => (declaration b).declared (kind b)) :=
  .flatMap (fun b => ((declaration b).adds_leaves (kind b)).behind (quiet_keyword (h b))) bs

theorem Class.outline_heading (c : Class) :
    Outline.of c.heading = (⟨c.declared, []⟩ : Environment).outline none := by
  have hopening : Quiet [.keyword .class, .name .plain c.name, .symbol .openBrace] := by
    simp [read_keyword, read_name]
  have hdeclarations := adds_declarations (·.1.keyword) (·.1.kind) (·.2)
    (fun d => by cases d.1 <;> simp [ClassLevel.keyword]) c.declarations
  have henv := declareAll_declared c
  rw [Declaration.declaredAll, List.flatMap_map] at henv
  exact ((hdeclarations.behind hopening) {} none).trans (congrArg (·.outline none) henv)

/-- A subroutine begins with the names of its class, and the current object. -/
theorem Class.outline_enter (c : Class) (kind : SubroutineKind) {o : Outline}
    (h : o.classLevel = c.declared.map fun d => (d.name, d.kind)) :
    o.enter kind =
      (⟨c.declared, Subroutine.receiver c.name kind⟩ : Environment).outline (some kind) := by
  rw [Outline.enter, h]
  cases kind <;> rfl

/-- Behind the heading of a subroutine are its names and those of its class. -/
theorem Subroutine.outline_heading (c : Class) (s : Subroutine) {o : Outline}
    (h : o.classLevel = c.declared.map fun d => (d.name, d.kind)) :
    s.heading.foldl Outline.read o = (c.site s).environment.outline (some s.kind) := by
  have hsignature : Quiet [s.returnLeaf, .name .plain s.name, .symbol .openParen] := by
    rw [quiet_cons_iff]
    exact ⟨fun o => s.quiet_returnLeaf _ List.mem_cons_self o, by simp [read_name]⟩
  have hbraces : Quiet [.symbol .closeParen, .symbol .openBrace] := by simp
  have hlocals := adds_declarations (fun _ => .var) (fun _ => .local) id (by simp) s.locals
  have hrest := ((Adds.separated Parameter.adds_leaves s.parameters).append
    (hlocals.behind hbraces)).behind hsignature
  have hheading : s.heading = .keyword s.kind.keyword ::
      ([s.returnLeaf, .name .plain s.name, .symbol .openParen] ++
        (separated (s.parameters.map Parameter.leaves) ++
          ([.symbol .closeParen, .symbol .openBrace] ++
            s.locals.flatMap fun d => .keyword .var :: d.leaves .local))) := by
    simp [heading, enclosed]
  have henv := declareAll_parameters_locals c s
  rw [← Environment.declareAll_append, Declaration.declaredAll, List.flatMap_map, declaredParameters,
    List.map_eq_flatMap] at henv
  rw [hheading, List.foldl_cons, Outline.read_subroutine, c.outline_enter s.kind h, ← henv]
  exact hrest _ _

/-! ### What stands in a subroutine -/

/-- What only statements write: names that are used, and the current object. -/
def Leaf.Used (leaf : Leaf) : Prop :=
  leaf.role ∈ [.assigned, .read, .called] ∨ leaf.token = .keyword .this

theorem Leaf.used_name {role : Role} (h : role ∈ [.assigned, .read, .called]) (name : String) :
    (Leaf.name role name).Used := .inl h

/-- What only subroutines write: their first keywords, and what their statements write. -/
def Leaf.Inner (leaf : Leaf) : Prop :=
  leaf.Used ∨ ∃ kind : SubroutineKind, leaf.token = .keyword kind.keyword

theorem Leaf.not_inner_symbol (s : Symbol) : ¬ (Leaf.symbol s).Inner := by
  simp [Inner, Used, symbol]

theorem Leaf.not_inner_name {role : Role} (h : role ∉ [.assigned, .read, .called]) (name : String) :
    ¬ (Leaf.name role name).Inner := by
  rintro ((hrole | htoken) | ⟨kind, htoken⟩)
  · exact h hrole
  · cases htoken
  · cases htoken

theorem Leaf.not_inner_keyword {k : Keyword} (h : k ∉ [.constructor, .function, .method, .this]) :
    ¬ (Leaf.keyword k).Inner := by
  rintro ((hrole | htoken) | ⟨kind, htoken⟩)
  · simp [keyword] at hrole
  · cases htoken
    simp at h
  · cases htoken
    cases kind <;> simp [SubroutineKind.keyword] at h

theorem not_inner_typeLeaf (type : VarType) : ¬ (typeLeaf type).Inner := by
  cases type with
  | int | char | boolean => exact Leaf.not_inner_keyword (by simp)
  | object name => exact Leaf.not_inner_name (by simp) name

theorem not_inner_separated {β : Type} {f : β → List Leaf} (h : ∀ b, ∀ leaf ∈ f b, ¬ leaf.Inner)
    (bs : List β) : ∀ leaf ∈ separated (bs.map f), ¬ leaf.Inner := by
  cases bs with
  | nil => exact List.forall_mem_nil _
  | cons b bs =>
    rw [List.map_cons, separated, List.flatMap_map, List.forall_mem_append]
    refine ⟨h b, fun leaf hleaf => ?_⟩
    obtain ⟨b', -, hleaf⟩ := List.mem_flatMap.1 hleaf
    rcases List.mem_cons.1 hleaf with rfl | hleaf
    · exact Leaf.not_inner_symbol .comma
    · exact h b' leaf hleaf

theorem Declaration.not_inner_leaves (kind : VarKind) (d : Declaration) :
    ∀ leaf ∈ d.leaves kind, ¬ leaf.Inner := by
  rw [leaves, List.forall_mem_cons, List.forall_mem_append, List.forall_mem_singleton]
  refine ⟨not_inner_typeLeaf d.type, ?_, Leaf.not_inner_symbol .semicolon⟩
  exact not_inner_separated (fun name => List.forall_mem_singleton.2
    (Leaf.not_inner_name (by simp) name)) d.names

theorem Class.not_inner_heading (c : Class) : ∀ leaf ∈ c.heading, ¬ leaf.Inner := by
  rw [heading, List.forall_mem_cons, List.forall_mem_cons, List.forall_mem_cons]
  refine ⟨Leaf.not_inner_keyword (by simp), Leaf.not_inner_name (by simp) c.name,
    Leaf.not_inner_symbol .openBrace, fun leaf hleaf => ?_⟩
  obtain ⟨⟨level, d⟩, -, hleaf⟩ := List.mem_flatMap.1 hleaf
  rcases List.mem_cons.1 hleaf with rfl | hleaf
  · exact Leaf.not_inner_keyword (by cases level <;> simp [ClassLevel.keyword])
  · exact d.not_inner_leaves level.kind leaf hleaf

theorem Subroutine.not_inner_heading (s : Subroutine) : ∀ leaf ∈ s.heading.tail, ¬ leaf.Inner := by
  have hbody : ∀ leaf ∈ s.locals.flatMap fun d => .keyword .var :: d.leaves .local, ¬ leaf.Inner := by
    intro leaf hleaf
    obtain ⟨d, -, hleaf⟩ := List.mem_flatMap.1 hleaf
    rcases List.mem_cons.1 hleaf with rfl | hleaf
    · exact Leaf.not_inner_keyword (by simp)
    · exact d.not_inner_leaves .local leaf hleaf
  have hparameter (p : Parameter) : ∀ leaf ∈ p.leaves, ¬ leaf.Inner := List.forall_mem_cons.2
    ⟨not_inner_typeLeaf p.type, List.forall_mem_singleton.2 (Leaf.not_inner_name (by simp) p.name)⟩
  have hreturn : ¬ s.returnLeaf.Inner := by
    rw [returnLeaf]
    cases s.returnType with
    | none => exact Leaf.not_inner_keyword (by simp)
    | some type => exact not_inner_typeLeaf type
  have hname : ¬ (Leaf.name .plain s.name).Inner := Leaf.not_inner_name (by simp) s.name
  simp only [heading, enclosed, List.tail_cons, List.forall_mem_cons, List.forall_mem_append]
  exact ⟨hreturn, hname, ⟨Leaf.not_inner_symbol _, not_inner_separated hparameter s.parameters,
    Leaf.not_inner_symbol _, List.forall_mem_nil _⟩, Leaf.not_inner_symbol _, hbody⟩

theorem Subroutine.not_used_heading (s : Subroutine) : ∀ leaf ∈ s.heading, ¬ leaf.Used := by
  have hheading : s.heading = .keyword s.kind.keyword :: s.heading.tail := rfl
  rw [hheading, List.forall_mem_cons]
  refine ⟨?_, fun leaf hleaf hused => s.not_inner_heading leaf hleaf (.inl hused)⟩
  rintro (hrole | htoken)
  · simp [Leaf.keyword] at hrole
  · cases hkind : s.kind <;> rw [hkind] at htoken <;> cases htoken

/-- The first keyword of a subroutine is the only one of its sort in it. -/
theorem Subroutine.kind_of_mem_leaves {s : Subroutine} {leaf : Leaf} {kind : SubroutineKind}
    (hleaf : leaf ∈ s.leaves) (htoken : leaf.token = .keyword kind.keyword) : s.kind = kind := by
  have hheading : s.heading = .keyword s.kind.keyword :: s.heading.tail := rfl
  rw [leaves_eq, hheading, List.cons_append, List.mem_cons, List.mem_append] at hleaf
  rcases hleaf with rfl | hleaf | hleaf
  · cases hkind : s.kind <;> cases kind <;> rw [hkind] at htoken <;> first | rfl | cases htoken
  · exact absurd (.inr ⟨kind, htoken⟩) (s.not_inner_heading leaf hleaf)
  · have hquiet := quiet_append_iff.2 ⟨Statement.quiet_leavesAll s.body, quiet_symbol .closeBrace⟩
    exact absurd htoken (hquiet.token_ne hleaf kind)

/-! ### Places in a class -/

/-- A subroutine that a place of a class belongs to, where the leaves before the place are known and
the one that stands there. -/
def Class.Encloses (c : Class) (s : Subroutine) (h : List Leaf) (leaf : Leaf) : Prop :=
  ∃ before after pre rest, c.subroutines = before ++ s :: after ∧
    h = c.heading ++ (before.flatMap Subroutine.leaves ++ pre) ∧ s.leaves = pre ++ leaf :: rest

variable {c : Class} {s : Subroutine} {h rest : List Leaf} {leaf : Leaf}

theorem Class.exists_encloses (hc : c.leaves = h ++ leaf :: rest) (hinner : leaf.Inner) :
    ∃ s, c.Encloses s h leaf := by
  rw [leaves_eq] at hc
  rcases split_append hc with ⟨rest', hheading⟩ | ⟨h', rfl, htail⟩
  · exact absurd hinner (c.not_inner_heading leaf (by simp [hheading]))
  rcases split_append htail with ⟨rest', hsubroutines⟩ | ⟨h'', -, hclose⟩
  · obtain ⟨before, s, after, pre, rest'', hs, rfl, hleaves⟩ := split_flatMap hsubroutines
    exact ⟨s, before, after, pre, rest'', hs, rfl, hleaves⟩
  · have hleaf : leaf ∈ [Leaf.symbol .closeBrace] := hclose ▸ by simp
    rw [List.mem_singleton.1 hleaf] at hinner
    exact absurd hinner (Leaf.not_inner_symbol _)

/-- Subroutines add no names to those of the class. -/
theorem Class.classLevel_of_heading (hc : c.leaves = h ++ rest) (hheading : c.heading <+: h) :
    (Outline.of h).classLevel = c.declared.map fun d => (d.name, d.kind) := by
  obtain ⟨x, rfl⟩ := hheading
  rw [leaves_eq, List.append_assoc] at hc
  have hquiet : ClassQuiet (c.subroutines.flatMap Subroutine.leaves ++ [.symbol .closeBrace]) :=
    classQuiet_append_iff.2 ⟨classQuiet_flatMap fun s _ => s.classQuiet_leaves,
      (quiet_symbol .closeBrace).classQuiet⟩
  rw [List.append_cancel_left hc, classQuiet_append_iff] at hquiet
  rw [Outline.classLevel_of_append hquiet.1, outline_heading]
  rfl

namespace Class.Encloses

theorem heading_prefix (hs : c.Encloses s h leaf) : c.heading <+: h := by
  obtain ⟨before, after, pre, rest, -, rfl, -⟩ := hs
  exact ⟨_, rfl⟩

theorem mem (hs : c.Encloses s h leaf) : s ∈ c.subroutines := by
  obtain ⟨before, after, -, -, hsubroutines, -, -⟩ := hs
  simp [hsubroutines]

theorem kind_eq (hs : c.Encloses s h leaf) {kind : SubroutineKind}
    (htoken : leaf.token = .keyword kind.keyword) : s.kind = kind := by
  obtain ⟨before, after, pre, rest, -, rfl, hleaves⟩ := hs
  exact Subroutine.kind_of_mem_leaves (by simp [hleaves]) htoken

/-- In the statements of a subroutine are the names that it and its class declare. -/
theorem outline_eq (hs : c.Encloses s h leaf) (hused : leaf.Used) :
    Outline.of h = (c.site s).environment.outline (some s.kind) := by
  obtain ⟨before, after, pre, rest, hsubroutines, rfl, hleaves⟩ := hs
  rw [Subroutine.leaves_eq] at hleaves
  rcases split_append hleaves with ⟨rest', hheading⟩ | ⟨pre', rfl, hbody⟩
  · exact absurd hused (s.not_used_heading leaf (by simp [hheading]))
  have hquiet : Quiet pre' := by
    have := quiet_append_iff.2 ⟨Statement.quiet_leavesAll s.body, quiet_symbol .closeBrace⟩
    rw [hbody, quiet_append_iff] at this
    exact this.1
  have hbefore : ClassQuiet (before.flatMap Subroutine.leaves) :=
    classQuiet_flatMap fun s _ => s.classQuiet_leaves
  rw [← List.append_assoc, ← List.append_assoc, Outline.of_append hquiet, Outline.of,
    List.foldl_append, ← Outline.of]
  refine s.outline_heading c ?_
  rw [Outline.classLevel_of_append hbefore, outline_heading]
  rfl

/-- A name that is not declared before its use is not declared for it at all. -/
theorem not_declares (hs : c.Encloses s h leaf) (hused : leaf.Used) {name : String}
    (hname : ¬ (Outline.of h).Declares name) : ¬ c.Declares s name := by
  rw [hs.outline_eq hused, Environment.declares_outline_iff, Environment.isSome_find?_iff] at hname
  refine fun hdeclares => hname (hdeclares.imp_left fun hwritten => ?_)
  rw [Class.site, Subroutine.declared, List.map_append]
  exact List.mem_append_right _ hwritten

end Class.Encloses

/-- Where a class begins with leaves that end in a subroutine, it has that subroutine. -/
theorem Class.exists_subroutine_of_kind? {kind : SubroutineKind} (hc : c.leaves = h ++ rest)
    (hkind : (Outline.of h).kind? = some kind) :
    c.heading <+: h ∧ ∃ s ∈ c.subroutines, s.kind = kind := by
  obtain ⟨before, leaf, after, rfl, htoken⟩ := Outline.exists_of_kind?_eq hkind
  rw [List.append_assoc, List.cons_append] at hc
  obtain ⟨s, hs⟩ := exists_encloses hc (.inr ⟨kind, htoken⟩)
  exact ⟨hs.heading_prefix.trans (List.prefix_append _ _), s, hs.mem, hs.kind_eq htoken⟩

theorem Class.count_outline {kind : VarKind} (hc : c.leaves = h ++ rest) (hheading : c.heading <+: h)
    (hkind : kind.isClassLevel) : (Outline.of h).count kind = Declared.count kind c.declared := by
  rw [Outline.count, Outline.level, if_pos hkind, classLevel_of_heading hc hheading, Declared.count,
    List.countP_map]
  rfl

end Syntax
end JackLang
