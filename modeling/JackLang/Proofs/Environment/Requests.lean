import JackLang.Proofs.Environment.Scopes

/-! Any requests to the scopes, in any order, those that fail included. The scopes answer as two
lists of declarations do and then hold what the lists hold (`Scopes.Mirrors`); from the lists it is
plain which names and indices are in use (`Scopes.serves_as_lists`). -/

namespace JackLang

namespace Scopes

inductive Request
  | enterSubroutine
  | declare (name : String) (type : VarType) (kind : VarKind) (span : Span)
deriving DecidableEq, Repr

/-- A declaration is answered with an index or an error, a new subroutine with nothing. -/
abbrev Answer := Option (Except Error Nat)

/-- The answer to a request, and the scopes after it. -/
def serve (s : Scopes) : Request → Answer × Scopes
  | .enterSubroutine => (none, s.enterSubroutine)
  | .declare name type kind span =>
    match Scopes.declare name type kind span s with
    | .ok v s => (some (.ok v.index), s)
    | .error fault s => (some (.error fault.report), s)

/-- The answers to requests in order, and the state after them. -/
def serveAll {σ : Type} (serve : σ → Request → Answer × σ) (s : σ) : List Request → List Answer × σ
  | [] => ([], s)
  | r :: requests =>
    let (answer, s) := serve s r
    let (answers, s) := serveAll serve s requests
    (answer :: answers, s)

end Scopes

open Scopes (Request Answer)

/-! ### Two lists -/

namespace Declared

variable {ds : List Declared} {d : Declared}

/-- The variables of one scope by their names. -/
def entries (ds : List Declared) : List (String × Variable) :=
  (numbered ds).map fun v => (v.name, v)

theorem map_fst_entries (ds : List Declared) : (entries ds).map Prod.fst = ds.map (·.name) := by
  rw [entries, List.map_map, ← map_name_numbered]
  rfl

theorem nodup_entries (h : (ds.map (·.name)).Nodup) : (entries ds).Nodup := by
  rw [← map_fst_entries] at h
  exact h.of_map _

/-- A name that is declared once stands for its variable. -/
theorem find?_eq_some_iff (h : (ds.map (·.name)).Nodup) {name : String} {v : Variable} :
    find? ds name = some v ↔ (name, v) ∈ entries ds := by
  constructor
  · intro hfind
    obtain ⟨hmem, rfl⟩ := mem_numbered_of_find? hfind
    exact List.mem_map_of_mem hmem
  · intro hmem
    obtain ⟨v, hv, ⟨⟩⟩ := List.mem_map.1 hmem
    cases hfind : find? ds v.name with
    | none =>
      have hnone := find?_eq_none_iff.1 hfind
      rw [← map_name_numbered] at hnone
      exact absurd (List.mem_map_of_mem hv) hnone
    | some w =>
      obtain ⟨hw, hname⟩ := mem_numbered_of_find? hfind
      rw [← map_name_numbered] at h
      rw [List.inj_on_of_nodup_map h hw hv hname]

/-- The variables of a kind have the indices from zero on, in the order of their declarations. -/
theorem map_index_numbered (kind : VarKind) (ds : List Declared) :
    ((numbered ds).filter (·.kind = kind)).map (·.index) = List.range (count kind ds) := by
  induction ds using List.reverseRecOn with
  | nil => rfl
  | append_singleton ds d ih =>
    rw [numbered_concat, List.filter_append, List.map_append, ih, count_append]
    by_cases h : d.kind = kind
    · subst h
      simp [count, List.range_succ]
    · simp [count, h]

end Declared

namespace Environment

/-- The answer of two lists to a request. A name that is in the list of the scope already is
refused, whatever its kind there, and so is any name of a kind that has all its variables. -/
def serve (env : Environment) : Request → Answer × Environment
  | .enterSubroutine => (none, { env with subroutineLevel := [] })
  | .declare name type kind span =>
    if name ∈ (env.level kind).map (·.name) then (some (.error (.duplicate name span)), env)
    else if env.count kind = maxCount then
      (some (.error (.operand
        s!"too many {kind.text} variables at {span.text} (limit {maxCount})")), env)
    else (some (.ok (env.count kind)), env.declare ⟨name, type, kind⟩)

variable {env : Environment}

theorem Proper.serve (h : env.Proper) (r : Request) : (env.serve r).2.Proper := by
  cases r with
  | enterSubroutine =>
    rw [proper_iff] at h
    exact proper_iff.2 ⟨h.1, List.nodup_nil, Nat.zero_le _, Nat.zero_le _⟩
  | declare name type kind span =>
    rw [Environment.serve]
    split
    · exact h
    next hname =>
    split
    · exact h
    next hcount =>
    exact (proper_declare_iff h).2 ⟨hname, Nat.lt_of_le_of_ne (h.count_le kind) hcount⟩

end Environment

/-! ### The scopes against the lists -/

namespace Scopes

variable {s : Scopes} {env : Environment}

/-- The scopes answer a request as the lists do, and go on holding what the lists hold. -/
theorem Holds.serve (h : s.Holds env) (hp : env.Proper) (r : Request) :
    (s.serve r).1 = (env.serve r).1 ∧ (s.serve r).2.Holds (env.serve r).2 := by
  cases r with
  | enterSubroutine => exact ⟨rfl, h.enterSubroutine⟩
  | declare name type kind span =>
    rw [Scopes.serve, Environment.serve, Scopes.declare]
    by_cases hname : name ∈ (env.level kind).map (·.name)
    · rw [if_pos (h.declares_iff.2 hname), if_pos hname]
      exact ⟨rfl, h⟩
    rw [if_neg (h.declares_iff.not.2 hname), if_neg hname, h.count]
    by_cases hcount : env.count kind = maxCount
    · rw [if_pos (Nat.le_of_eq hcount.symm), if_pos hcount]
      exact ⟨rfl, h⟩
    · rw [if_neg fun hle => hcount (Nat.le_antisymm (hp.count_le kind) hle), if_neg hcount]
      exact ⟨rfl, h.insert (d := ⟨name, type, kind⟩) hname⟩

theorem Holds.serveAll (h : s.Holds env) (hp : env.Proper) (requests : List Request) :
    (serveAll Scopes.serve s requests).1 = (serveAll Environment.serve env requests).1 ∧
      (serveAll Scopes.serve s requests).2.Holds (serveAll Environment.serve env requests).2 ∧
      (serveAll Environment.serve env requests).2.Proper := by
  induction requests generalizing s env with
  | nil => exact ⟨rfl, h, hp⟩
  | cons r requests ih =>
    obtain ⟨hanswer, hstep⟩ := h.serve hp r
    obtain ⟨hanswers, hlast⟩ := ih hstep (hp.serve r)
    refine ⟨?_, hlast⟩
    simp only [Scopes.serveAll]
    rw [hanswer, hanswers]

/-- A map with the variables of a list has no others. -/
theorem perm_entries {m : Std.HashMap String Variable} {ds : List Declared}
    (h : ∀ name : String, m[name]? = Declared.find? ds name) (hnames : (ds.map (·.name)).Nodup) :
    m.toList.Perm (Declared.entries ds) := by
  have hnodup : m.toList.Nodup := by
    have hkeys := Std.HashMap.nodup_keys (m := m)
    rw [← Std.HashMap.map_fst_toList_eq_keys] at hkeys
    exact hkeys.of_map _
  rw [List.perm_ext_iff_of_nodup hnodup (Declared.nodup_entries hnames)]
  rintro ⟨name, v⟩
  rw [Std.HashMap.mem_toList_iff_getElem?_eq_some, h, Declared.find?_eq_some_iff hnames]

/-- The maps have the variables of the lists and no others, and the counts are theirs. -/
structure Mirrors (s : Scopes) (env : Environment) : Prop where
  classLevel : s.classLevel.toList.Perm (Declared.entries env.classLevel)
  subroutineLevel : s.subroutineLevel.toList.Perm (Declared.entries env.subroutineLevel)
  count : ∀ kind, s.count kind = Declared.count kind (env.level kind)

theorem Holds.mirrors (h : s.Holds env) (hp : env.Proper) : s.Mirrors env where
  classLevel := perm_entries h.classLevel (hp.nodup .static)
  subroutineLevel := perm_entries h.subroutineLevel (hp.nodup .local)
  count := h.count

/-- **The scopes are two lists of declarations.** Whatever is asked of new scopes, the lists answer
the same and hold the same. So a name has one declaration in a scope, the indices of a kind are
those from zero to its count, and a name stands for its declaration in the subroutine before that in
the class. -/
theorem serves_as_lists (requests : List Request) :
    let (answers, s) := serveAll Scopes.serve {} requests
    let (answers', env) := serveAll Environment.serve {} requests
    answers = answers' ∧ s.Mirrors env ∧
      (env.classLevel.map (·.name)).Nodup ∧ (env.subroutineLevel.map (·.name)).Nodup ∧
      (∀ kind, s.count kind ≤ maxCount ∧
        ((Declared.numbered (env.level kind)).filter (·.kind = kind)).map (·.index) =
          List.range (s.count kind)) ∧
      ∀ name,
        let v? := (Declared.find? env.subroutineLevel name).or (Declared.find? env.classLevel name)
        s.find? name = v? ∧ s.kind? name = v?.map (·.kind) ∧ s.type? name = v?.map (·.type) ∧
          s.index? name = v?.map (·.index) ∧ s.isDeclared name = v?.isSome := by
  obtain ⟨hanswers, hholds, hproper⟩ :=
    holds_empty.serveAll Environment.proper_empty requests
  refine ⟨hanswers, hholds.mirrors hproper, hproper.nodup .static, hproper.nodup .local, ?_, ?_⟩
  · intro kind
    rw [hholds.count]
    exact ⟨hproper.count_le kind, Declared.map_index_numbered kind _⟩
  · intro name
    have hfind := hholds.find?_eq name
    rw [Environment.find?, Option.orElse_eq_orElse, Option.orElse_eq_or] at hfind
    refine ⟨hfind, ?_, ?_, ?_, ?_⟩
    · rw [kind?, hfind]
    · rw [type?, hfind]
    · rw [index?, hfind]
    · rw [isDeclared, hfind]

end Scopes
end JackLang
