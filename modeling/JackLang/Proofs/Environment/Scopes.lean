import JackLang.Scopes
import JackLang.Proofs.Environment.Basic

/-! The scopes refine the lists of declarations: `Scopes.Holds` relates the two, every operation
keeps it, and a declaration succeeds just if it leaves the lists in order (`declare_eq_ok_iff`). -/

namespace JackLang

namespace Counts

theorem get_increase (c : Counts) (kind kind' : VarKind) :
    (c.increase kind).get kind' = c.get kind' + if kind = kind' then 1 else 0 := by
  cases kind <;> cases kind' <;> simp [increase, get]

end Counts

namespace Scopes

/-- The scopes hold just the declarations of an environment. -/
structure Holds (s : Scopes) (env : Environment) : Prop where
  classLevel : ∀ name : String, s.classLevel[name]? = Declared.find? env.classLevel name
  subroutineLevel : ∀ name : String,
    s.subroutineLevel[name]? = Declared.find? env.subroutineLevel name
  count : ∀ kind, s.count kind = env.count kind

variable {s s' : Scopes} {env : Environment} {name : String} {type : VarType} {kind : VarKind}
  {span : Span} {v : Variable} {d : Declared}

theorem holds_empty : ({} : Scopes).Holds {} where
  classLevel _ := by simp [Declared.find?, Declared.numbered]
  subroutineLevel _ := by simp [Declared.find?, Declared.numbered]
  count kind := by cases kind <;> rfl

theorem Holds.find?_eq (h : s.Holds env) (name : String) : s.find? name = env.find? name := by
  rw [find?, h.classLevel, h.subroutineLevel, Environment.find?]

theorem Holds.enterSubroutine (h : s.Holds env) :
    s.enterSubroutine.Holds { env with subroutineLevel := [] } where
  classLevel := h.classLevel
  subroutineLevel _ := by simp [Scopes.enterSubroutine, Declared.find?, Declared.numbered]
  count kind := by
    cases kind with
    | static => exact h.count .static
    | field => exact h.count .field
    | argument | «local» => rfl

theorem Holds.declares_iff (h : s.Holds env) :
    s.declares kind name ↔ name ∈ (env.level kind).map (·.name) := by
  rw [declares, Environment.level]
  split
  · rw [← Std.HashMap.isSome_getElem?_eq_contains, h.classLevel, Option.isSome_iff_ne_none, ne_eq,
      Declared.find?_eq_none_iff, not_not]
  · rw [← Std.HashMap.isSome_getElem?_eq_contains, h.subroutineLevel, Option.isSome_iff_ne_none,
      ne_eq, Declared.find?_eq_none_iff, not_not]

/-- A new name goes into the map of its scope as it goes to the end of the list. -/
theorem getElem?_insert_next {m : Std.HashMap String Variable} {ds : List Declared}
    (h : ∀ name : String, m[name]? = Declared.find? ds name) (hd : d.name ∉ ds.map (·.name))
    (name : String) :
    (m.insert d.name ⟨d.name, d.type, d.kind, Declared.count d.kind ds⟩)[name]? =
      Declared.find? (ds ++ [d]) name := by
  rw [Std.HashMap.getElem?_insert, Declared.find?_concat, h]
  by_cases heq : d.name = name
  · subst heq
    simp [Declared.find?_eq_none_iff.2 hd]
  · simp [heq]

theorem Holds.insert (h : s.Holds env) (hd : d.name ∉ (env.level d.kind).map (·.name)) :
    (s.insert (env.next d)).Holds (env.declare d) := by
  have hcount : ∀ kind, (s.insert (env.next d)).count kind = (env.declare d).count kind := by
    intro kind
    rw [Environment.count_declare, ← h.count]
    unfold Scopes.insert
    split <;> exact Counts.get_increase ..
  by_cases hc : d.kind.isClassLevel
  · rw [Environment.level, if_pos hc] at hd
    refine ⟨fun name => ?_, fun name => ?_, hcount⟩
    · simpa [Scopes.insert, Environment.next, Environment.declare, Environment.count,
        Environment.level, hc] using getElem?_insert_next h.classLevel hd name
    · simpa [Scopes.insert, Environment.next, Environment.declare, hc] using h.subroutineLevel name
  · rw [Environment.level, if_neg hc] at hd
    refine ⟨fun name => ?_, fun name => ?_, hcount⟩
    · simpa [Scopes.insert, Environment.next, Environment.declare, hc] using h.classLevel name
    · simpa [Scopes.insert, Environment.next, Environment.declare, Environment.count,
        Environment.level, hc] using getElem?_insert_next h.subroutineLevel hd name

theorem Holds.insert_next (h : s.Holds env) (hp : env.Proper) (hd : (env.declare d).Proper) :
    (s.insert (env.next d)).Holds (env.declare d) :=
  h.insert ((Environment.proper_declare_iff hp).1 hd).1

/-- A declaration succeeds just if it is in order, and then makes the next variable. -/
theorem Holds.declare_eq_ok_iff (h : s.Holds env) (hp : env.Proper) :
    Scopes.declare name type kind span s = .ok v s' ↔
      (env.declare ⟨name, type, kind⟩).Proper ∧ v = env.next ⟨name, type, kind⟩ ∧
        s' = s.insert v := by
  rw [Environment.proper_declare_iff hp, Scopes.declare]
  split
  · next hdup => simp [h.declares_iff.1 hdup]
  · next hdup =>
    rw [h.declares_iff] at hdup
    split
    · next hfull =>
      rw [h.count] at hfull
      simp [Nat.not_lt.2 hfull]
    · next hroom =>
      rw [h.count] at hroom ⊢
      simp only [EStateM.Result.ok.injEq, Environment.next]
      constructor
      · rintro ⟨rfl, rfl⟩
        exact ⟨⟨hdup, Nat.not_le.1 hroom⟩, rfl, rfl⟩
      · rintro ⟨-, rfl, rfl⟩
        exact ⟨rfl, rfl⟩

end Scopes
end JackLang
