import JackLang.Limits
import JackLang.Variable
import Mathlib.Data.List.Induction
import Mathlib.Data.List.Nodup

/-! The declarations in force at a place of a class: two lists, one for each scope, in the order of
the source. The index of a variable is the number of earlier declarations of its kind in its scope
(`Declared.numbered`); a name stands for its declaration in the subroutine before that in the class
(`Environment.find?`). -/

namespace JackLang

/-- A name as it is declared. -/
structure Declared where
  name : String
  type : VarType
  kind : VarKind
deriving DecidableEq, Repr

namespace Declared

def count (kind : VarKind) (ds : List Declared) : Nat := ds.countP (·.kind = kind)

/-- The variables that the declarations of one scope declare. -/
def numbered (ds : List Declared) : List Variable :=
  ds.mapIdx fun i d => ⟨d.name, d.type, d.kind, count d.kind (ds.take i)⟩

def find? (ds : List Declared) (name : String) : Option Variable :=
  (numbered ds).find? (·.name = name)

variable {ds es : List Declared} {d : Declared} {name : String}

theorem count_append (kind : VarKind) (ds es : List Declared) :
    count kind (ds ++ es) = count kind ds + count kind es := List.countP_append

/-- Declarations of one kind. -/
theorem count_map {α : Type} {kind kind' : VarKind} {f : α → Declared} (hf : ∀ x, (f x).kind = kind)
    (xs : List α) : count kind' (xs.map f) = if kind = kind' then xs.length else 0 := by
  rw [count, List.countP_map]
  split
  · next h =>
    rw [List.countP_eq_length]
    intro x _
    simp [hf, h]
  · next h =>
    rw [List.countP_eq_zero]
    intro x _
    simp [hf, h]

theorem numbered_concat :
    numbered (ds ++ [d]) = numbered ds ++ [⟨d.name, d.type, d.kind, count d.kind ds⟩] := by
  rw [numbered, List.mapIdx_concat, numbered]
  congr 1
  · refine List.mapIdx_eq_mapIdx_iff.2 fun i h => ?_
    rw [List.take_append_of_le_length (Nat.le_of_lt h)]
  · simp

theorem map_name_numbered (ds : List Declared) :
    (numbered ds).map (·.name) = ds.map (·.name) := by
  induction ds using List.reverseRecOn with
  | nil => rfl
  | append_singleton ds d ih => simp [numbered_concat, ih]

theorem mem_numbered_of_find? {v : Variable} (h : find? ds name = some v) :
    v ∈ numbered ds ∧ v.name = name :=
  ⟨List.mem_of_find?_eq_some h, by simpa using List.find?_some h⟩

/-- A variable is as it is declared, with a number below that of all declarations of its kind. -/
theorem declared_of_mem_numbered {v : Variable} (h : v ∈ numbered ds) :
    ⟨v.name, v.type, v.kind⟩ ∈ ds ∧ v.index < count v.kind ds := by
  obtain ⟨i, hi, rfl⟩ := List.mem_mapIdx.1 h
  refine ⟨List.getElem_mem hi, ?_⟩
  calc count ds[i].kind (ds.take i)
      < count ds[i].kind (ds.take (i + 1)) := by
        rw [List.take_add_one, List.getElem?_eq_getElem hi, count_append]
        simp [count]
    _ ≤ count ds[i].kind ds := (List.take_sublist (i + 1) ds).countP_le

theorem find?_eq_none_iff : find? ds name = none ↔ name ∉ ds.map (·.name) := by
  rw [← map_name_numbered]
  simp [find?]

theorem find?_concat : find? (ds ++ [d]) name =
    (find? ds name).or
      (if d.name = name then some ⟨d.name, d.type, d.kind, count d.kind ds⟩ else none) := by
  rw [find?, numbered_concat, List.find?_append, find?]
  congr 1
  by_cases h : d.name = name <;> simp [h]

end Declared

structure Environment where
  classLevel : List Declared := []
  subroutineLevel : List Declared := []
deriving DecidableEq, Repr

namespace Environment

/-- The declarations of the scope that variables of a kind live in. -/
def level (env : Environment) (kind : VarKind) : List Declared :=
  if kind.isClassLevel then env.classLevel else env.subroutineLevel

def count (env : Environment) (kind : VarKind) : Nat := Declared.count kind (env.level kind)

/-- The variable that one more declaration makes. -/
def next (env : Environment) (d : Declared) : Variable := ⟨d.name, d.type, d.kind, env.count d.kind⟩

def declare (env : Environment) (d : Declared) : Environment :=
  if d.kind.isClassLevel then { env with classLevel := env.classLevel ++ [d] }
  else { env with subroutineLevel := env.subroutineLevel ++ [d] }

def declareAll (env : Environment) (ds : List Declared) : Environment := ds.foldl declare env

/-- The variables that further declarations make. -/
def nextAll (env : Environment) : List Declared → List Variable
  | [] => []
  | d :: ds => env.next d :: (env.declare d).nextAll ds

def find? (env : Environment) (name : String) : Option Variable :=
  Declared.find? env.subroutineLevel name <|> Declared.find? env.classLevel name

/-- A name is declared once in a scope, and a kind has no more variables than indices. -/
structure Proper (env : Environment) : Prop where
  nodup : ∀ kind, ((env.level kind).map (·.name)).Nodup
  count_le : ∀ kind, env.count kind ≤ maxCount

variable {env : Environment} {d : Declared} {ds es : List Declared} {kind : VarKind}

theorem level_declare : (env.declare d).level kind =
    if kind.isClassLevel = d.kind.isClassLevel then env.level kind ++ [d] else env.level kind := by
  by_cases h : d.kind.isClassLevel <;> by_cases h' : kind.isClassLevel <;>
    simp [declare, level, h, h']

theorem count_declare :
    (env.declare d).count kind = env.count kind + if d.kind = kind then 1 else 0 := by
  rw [count, level_declare, count]
  by_cases h : d.kind = kind
  · simp [h, Declared.count]
  · split <;> simp [h, Declared.count]

@[simp] theorem declareAll_nil : env.declareAll [] = env := rfl

@[simp] theorem declareAll_cons :
    env.declareAll (d :: ds) = (env.declare d).declareAll ds := rfl

theorem declareAll_append : env.declareAll (ds ++ es) = (env.declareAll ds).declareAll es :=
  List.foldl_append

theorem nextAll_append : env.nextAll (ds ++ es) = env.nextAll ds ++ (env.declareAll ds).nextAll es := by
  induction ds generalizing env with
  | nil => rfl
  | cons d ds ih => simp [nextAll, ih]

/-- Declarations of the class stand behind those already there. -/
theorem declareAll_classLevel (h : ∀ d ∈ ds, d.kind.isClassLevel) :
    env.declareAll ds = { env with classLevel := env.classLevel ++ ds } := by
  induction ds generalizing env with
  | nil => simp
  | cons d ds ih =>
    rw [declareAll_cons, ih fun e he => h e (List.mem_cons_of_mem _ he), declare,
      if_pos (h d List.mem_cons_self)]
    simp

theorem declareAll_subroutineLevel (h : ∀ d ∈ ds, ¬ d.kind.isClassLevel) :
    env.declareAll ds = { env with subroutineLevel := env.subroutineLevel ++ ds } := by
  induction ds generalizing env with
  | nil => simp
  | cons d ds ih =>
    rw [declareAll_cons, ih fun e he => h e (List.mem_cons_of_mem _ he), declare,
      if_neg (h d List.mem_cons_self)]
    simp

/-- Each scope on its own decides whether an environment is in order. -/
theorem proper_iff : env.Proper ↔
    ((env.classLevel.map (·.name)).Nodup ∧ Declared.count .static env.classLevel ≤ maxCount ∧
      Declared.count .field env.classLevel ≤ maxCount) ∧
    (env.subroutineLevel.map (·.name)).Nodup ∧
      Declared.count .argument env.subroutineLevel ≤ maxCount ∧
      Declared.count .local env.subroutineLevel ≤ maxCount := by
  refine ⟨fun h => ?_, ?_⟩
  · exact ⟨⟨h.nodup .static, h.count_le .static, h.count_le .field⟩,
      h.nodup .argument, h.count_le .argument, h.count_le .local⟩
  · rintro ⟨⟨hclass, hstatic, hfield⟩, hsubroutine, hargument, hlocal⟩
    refine ⟨fun kind => ?_, fun kind => ?_⟩
    · cases kind with
      | static | field => exact hclass
      | argument | «local» => exact hsubroutine
    · cases kind <;> assumption

theorem isSome_find?_iff {name : String} : (env.find? name).isSome ↔
    name ∈ env.subroutineLevel.map (·.name) ∨ name ∈ env.classLevel.map (·.name) := by
  rw [find?, Option.isSome_iff_ne_none, ne_eq, Option.orElse_eq_orElse, Option.orElse_eq_or,
    Option.or_eq_none_iff, Declared.find?_eq_none_iff, Declared.find?_eq_none_iff, not_and_or,
    not_not, not_not]

theorem proper_empty : ({} : Environment).Proper where
  nodup kind := by cases kind <;> exact List.nodup_nil
  count_le kind := by cases kind <;> exact Nat.zero_le _

/-- Whether one more declaration is in order is decided by its own name and kind. -/
theorem proper_declare_iff (h : env.Proper) : (env.declare d).Proper ↔
    d.name ∉ (env.level d.kind).map (·.name) ∧ env.count d.kind < maxCount := by
  refine ⟨fun H => ⟨?_, ?_⟩, fun ⟨hname, hcount⟩ => ⟨fun kind => ?_, fun kind => ?_⟩⟩
  · have := H.nodup d.kind
    rw [level_declare, if_pos rfl, List.map_append, List.nodup_append] at this
    exact fun hmem => this.2.2 _ hmem _ (by simp) rfl
  · have := H.count_le d.kind
    rwa [count_declare, if_pos rfl] at this
  · rw [level_declare]
    split
    · next hlevel =>
      have hlevel : env.level kind = env.level d.kind := by rw [level, level, hlevel]
      rw [hlevel, List.map_append, List.nodup_append]
      refine ⟨h.nodup _, List.nodup_singleton _, fun a ha b hb => ?_⟩
      rintro rfl
      rw [List.map_singleton, List.mem_singleton] at hb
      exact hname (hb ▸ ha)
    · exact h.nodup kind
  · rw [count_declare]
    split
    · next heq => exact heq ▸ hcount
    · exact h.count_le kind

/-- Every step on the way to declarations in order is in order. -/
theorem Proper.of_declareAll (h : (env.declareAll ds).Proper) : env.Proper := by
  induction ds using List.reverseRecOn with
  | nil => exact h
  | append_singleton ds d ih =>
    rw [declareAll_append] at h
    refine ih ⟨fun kind => ?_, fun kind => ?_⟩
    · have := h.nodup kind
      rw [declareAll_cons, declareAll_nil, level_declare] at this
      split at this
      · rw [List.map_append] at this
        exact (List.nodup_append.1 this).1
      · exact this
    · have := h.count_le kind
      rw [declareAll_cons, declareAll_nil, count_declare] at this
      omega

end Environment
end JackLang
