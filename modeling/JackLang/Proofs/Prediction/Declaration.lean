import JackLang.Proofs.Parser.Class
import JackLang.Proofs.Prediction.Statement
import JackLang.Proofs.Syntax.Enclosure

/-! Declarations are parsed predictively, and the scopes hold what the leaves read so far declare
(`Tracks`). So a declaration that is refused repeats an earlier one of its scope, or the scope is full
(`Mistake`). -/

namespace JackLang

open Syntax (Outline)

/-! ### Scopes and leaves -/

/-- The scopes hold just the declarations of an outline. -/
def Tracks (kind? : Option SubroutineKind) (scopes : Scopes) (o : Outline) : Prop :=
  ∃ env : Environment, scopes.Holds env ∧ env.Proper ∧ o = env.outline kind?

namespace Tracks

variable {kind? : Option SubroutineKind} {scopes scopes' : Scopes} {o : Outline} {kind : VarKind}
  {name : String} {type : VarType} {span : Span} {v : Variable} {fault : Fault}

theorem kind?_eq (h : Tracks kind? scopes o) : o.kind? = kind? := by
  obtain ⟨env, -, -, rfl⟩ := h
  rfl

theorem declare_ok (h : Tracks kind? scopes o)
    (hrun : Scopes.declare name type kind span scopes = .ok v scopes') :
    Tracks kind? scopes' (o.declare name kind) := by
  obtain ⟨env, hholds, hproper, rfl⟩ := h
  obtain ⟨hd, rfl, rfl⟩ := (hholds.declare_eq_ok_iff hproper).1 hrun
  exact ⟨_, hholds.insert_next hproper hd, hd, Environment.outline_declare.symm⟩

/-- A declaration is refused because of the name or of the number of those before it. -/
theorem declare_error (h : Tracks kind? scopes o)
    (hrun : Scopes.declare name type kind span scopes = .error fault scopes') :
    (fault = .duplicate name span ∧ o.Has kind name) ∨
      (fault = .tooManyVariables kind span ∧ o.count kind = maxCount) := by
  obtain ⟨env, hholds, hproper, rfl⟩ := h
  rw [Environment.has_outline_iff, Environment.count_outline, ← hholds.count, ← hholds.declares_iff]
  rw [Scopes.declare] at hrun
  split at hrun
  · next hdeclares =>
    cases hrun
    exact .inl ⟨rfl, hdeclares⟩
  · split at hrun
    · next hfull =>
      cases hrun
      exact .inr ⟨rfl, Nat.le_antisymm (hholds.count kind ▸ hproper.count_le kind) hfull⟩
    · cases hrun

theorem not_declares (h : Tracks kind? scopes o) (hname : scopes.find? name = none) :
    ¬ o.Declares name := by
  obtain ⟨env, hholds, -, rfl⟩ := h
  rw [Environment.declares_outline_iff, ← hholds.find?_eq, hname]
  exact nofun

theorem count_eq (h : Tracks kind? scopes o) : scopes.count kind = o.count kind := by
  obtain ⟨env, hholds, -, rfl⟩ := h
  rw [hholds.count, Environment.count_outline]

end Tracks

namespace Parser

open TokenStream Syntax
open scoped Computability

/-! ### Faults of a class -/

/-- What is at fault in a class where the grammar is kept, told by the leaves before it. -/
inductive Mistake (origin : TokenStream) : Blame
  | lexical {fault : Fault} {h : List Leaf} {token : Located} : fault.Lexical →
    token ∈ origin.tokens → fault.report.span? = some token.span → Mistake origin fault h
  | nested {nested : Nested} {s : TokenStream} {h : List Leaf} : origin.Reads (texts h) s →
    Mistake origin (.unexpected s.span (.shallower nested) s.current?) h
  | duplicate {name : String} {kind : VarKind} {span : Span} {h : List Leaf} :
    origin.tokens[h.length]? = some ⟨.identifier name, span⟩ → (Outline.of h).Has kind name →
    Mistake origin (.duplicate name span) (h ++ [.name (.declares kind) name])
  | tooManyVariables {name : String} {kind : VarKind} {span : Span} {h : List Leaf} :
    origin.tokens[h.length]? = some ⟨.identifier name, span⟩ →
    (Outline.of h).count kind = maxCount →
    Mistake origin (.tooManyVariables kind span) (h ++ [.name (.declares kind) name])
  | tooManyFields {className : String} {fields : Nat} {h : List Leaf} :
    [.keyword .class, .name .plain className] <+: h → (Outline.of h).kind? = some .constructor →
    (Outline.of h).count .field = fields → maxConstant < fields →
    Mistake origin (.tooManyFields className fields) h
  | assigned {name : String} {span : Span} {h : List Leaf} :
    origin.tokens[h.length]? = some ⟨.identifier name, span⟩ → ¬ (Outline.of h).Declares name →
    Mistake origin (.undefined name span) (h ++ [.name .assigned name])
  /-- A variable, which is not the first name of a call. -/
  | read {name : String} {span : Span} {h : List Leaf} :
    origin.tokens[h.length]? = some ⟨.identifier name, span⟩ → ¬ (Outline.of h).Declares name →
    origin.tokens[h.length + 1]?.map (·.token) ≠ some (.symbol .openParen) →
    origin.tokens[h.length + 1]?.map (·.token) ≠ some (.symbol .dot) →
    Mistake origin (.undefined name span) (h ++ [.name .read name])
  | this {span : Span} {h : List Leaf} :
    origin.tokens[h.length]? = some ⟨.keyword .this, span⟩ →
    (Outline.of h).kind? = some .function →
    Mistake origin (.undefined "this" span) (h ++ [.keyword .this])
  /-- A subroutine of the own class, which is called on the current object. -/
  | called {name : String} {span : Span} {h : List Leaf} :
    origin.tokens[h.length]? = some ⟨.identifier name, span⟩ →
    origin.tokens[h.length + 1]?.map (·.token) = some (.symbol .openParen) →
    (Outline.of h).kind? = some .function →
    Mistake origin (.undefined "this" span) (h ++ [.name .called name])

variable {origin : TokenStream} {kind? : Option SubroutineKind} {scopes : Scopes} {kind : VarKind}
  {h : List Leaf} {s : TokenStream}

theorem Misuse.mistake {cx : Context} {fault : Fault} {o : Outline} (h' : Misuse origin cx fault h)
    (ht : Tracks (some cx.kind) cx.scopes o) (ho : Outline.of h = o) : Mistake origin fault h := by
  have hkind := ht.kind?_eq
  subst ho
  cases h' with
  | lexical hfault htoken hspan => exact .lexical hfault htoken hspan
  | nested hread => exact .nested hread
  | assigned hplace hfind =>
    rw [Outline.of_concat, read_name (by simp)] at ht
    exact .assigned hplace (ht.not_declares hfind)
  | read hplace hfind hparen hdot =>
    rw [Outline.of_concat, read_name (by simp)] at ht
    exact .read hplace (ht.not_declares hfind) hparen hdot
  | this hplace hfunction =>
    rw [Outline.of_concat, read_keyword (by simp), hfunction] at hkind
    exact .this hplace hkind
  | called hplace hparen hfunction =>
    rw [Outline.of_concat, read_name (by simp), hfunction] at hkind
    exact .called hplace hparen hkind

/-! ### Types and names -/

def types : Language Leaf := wordsOf ([typeLeaf ·])

theorem quiet_types {us : List Leaf} (hus : us ∈ types) : Quiet us := by
  obtain ⟨type, rfl⟩ := hus
  exact quiet_typeLeaf type

theorem type_predicts {B : Blame} : Predicts origin B types Anything Unknown type h s := by
  obtain ⟨t?, hrun, ht?⟩ := type?_run (s := s)
  refine .look hrun ?_
  cases t? with
  | none =>
    refine .unexpected ⟨_, .int, rfl⟩ nofun fun us hus r _ hstart => ?_
    obtain ⟨t, rfl⟩ := hus
    cases ht?.2 hstart.symm
  | some t =>
    refine .advance_bind (typeLeaf t) 1 (ht?.1 rfl) ?_ ?_ (.pure trivial)
    · intro us hus
      rw [(Language.mem_one us).1 hus]
      exact ⟨t, rfl⟩
    · rintro _ ⟨t', rfl⟩ r _ hbegins
      exact ⟨[], Language.nil_mem_one, congrArg (· :: []) (begins_cons_iff.1 hbegins).1⟩

/-- A parser that answers with scopes hands on those of what it has read. -/
def Tracked {α : Type} (kind? : Option SubroutineKind) (result : α × Scopes) (h : List Leaf) :
    Prop := Tracks kind? result.2 (Outline.of h)

theorem declaredName_predicts (type : VarType) (kind : VarKind)
    (ht : Tracks kind? scopes (Outline.of h)) :
    Predicts origin (Mistake origin) (names (.declares kind)) Anything (Tracked kind?)
      (declaredName scopes type kind) h s := by
  refine .bind_one (.identifier (.declares kind)) fun (name, span) ls s₁ hls _ hname => ?_
  obtain ⟨heq, hplace⟩ := hname
  rw [heq]
  dsimp only
  split
  · next v scopes' hrun =>
    refine .pure ?_
    rw [Tracked, Outline.of_concat]
    exact ht.declare_ok hrun
  · next fault scopes' hrun =>
    refine .blame rfl ⟨[], Language.nil_mem_one⟩ ?_
    rcases ht.declare_error hrun with ⟨rfl, hhas⟩ | ⟨rfl, hfull⟩
    · exact .duplicate hplace hhas
    · exact .tooManyVariables hplace hfull

/-! ### Items -/

theorem declaredItems_predicts {I : Language Leaf} {item : Scopes → Parser (Variable × Scopes)}
    (hitem : ∀ scopes h s, Tracks kind? scopes (Outline.of h) →
      Predicts origin (Mistake origin) I Anything (Tracked kind?) (item scopes) h s)
    (ht : Tracks kind? scopes (Outline.of h)) :
    Predicts origin (Mistake origin) (listed I) (· ≠ some (.symbol .comma)) (Tracked kind?)
      (declaredItems item scopes) h s := by
  have hseparates : Separates (word [.symbol .comma] * I) (· ≠ some (.symbol .comma)) Anything :=
    separates_comma trivial fun _ _ => trivial
  refine .bind ⟨[], Language.nil_mem_kstar _⟩ (fun _ _ _ _ => trivial) (hitem _ _ _ ht)
    fun (first, scopes₁) ls s₁ _ _ ht₁ => ?_
  refine .bind_pure (.iterate (Q := fun state h => Tracked kind? state h) hseparates
    (fun (vars, scopes) h s ht => ?_) ht₁) fun _ _ _ ht => ht
  by_cases hcomma : s.current? = some (.symbol .comma)
  · refine .inl ⟨fun hend => hend hcomma, .comma_bind hcomma ?_⟩
    refine .bind_pure (hitem _ _ _ ?_) fun (v, scopes) _ _ ht => ⟨_, rfl, ht⟩
    rwa [Outline.of_append (quiet_symbol .comma)]
  · refine .inr ⟨not_starts_comma hcomma, ?_⟩
    exact bind_of_ok (comma_eq_ok.2 (.inr ⟨rfl, hcomma, rfl⟩))

/-! ### Declarations -/

def declarationWords (kind : VarKind) : Language Leaf := wordsOf (Declaration.leaves kind)

/-- Declarations that begin with a keyword for which `kindOf?` gives a kind. -/
def keywordDeclarations (kindOf? : Keyword → Option VarKind) : Language Leaf :=
  {us | ∃ k kind, kindOf? k = some kind ∧ ∃ vs ∈ declarationWords kind, us = .keyword k :: vs}

theorem declarationWords_eq (kind : VarKind) : declarationWords kind =
    types * (listed (names (.declares kind)) * word [.symbol .semicolon]) := by
  rw [names, listed_wordsOf]
  refine Set.ext fun us => ⟨?_, ?_⟩
  · rintro ⟨⟨type, first, rest⟩, rfl⟩
    exact ⟨_, ⟨type, rfl⟩, _, ⟨_, ⟨(first, rest), rfl⟩, _, rfl, rfl⟩, rfl⟩
  · rintro ⟨_, ⟨type, rfl⟩, _, ⟨_, ⟨⟨first, rest⟩, rfl⟩, _, rfl, rfl⟩, rfl⟩
    exact ⟨⟨type, first, rest⟩, rfl⟩

theorem declaration_predicts (kind : VarKind) (ht : Tracks kind? scopes (Outline.of h)) :
    Predicts origin (Mistake origin) (declarationWords kind) Anything (Tracked kind?)
      (declaration kind scopes) h s := by
  rw [declarationWords_eq]
  have hnames : ∃ us, us ∈ listed (names (.declares kind)) :=
    exists_mem_mul (exists_mem_names _) (exists_mem_kstar _)
  refine .bind (exists_mem_mul hnames (exists_mem_word _)) (fun _ _ _ _ => trivial) type_predicts
    fun type ls s₁ hls _ _ => ?_
  rw [← Outline.of_append (quiet_types hls)] at ht
  refine .closed (declaredItems_predicts (fun _ _ _ => declaredName_predicts type kind) ht) nofun
    fun _ ls' _ ht' => ?_
  rwa [Tracked, Outline.of_append (quiet_symbol _)]

theorem declarations_predicts {kindOf? : Keyword → Option VarKind}
    (hquiet : ∀ k, (kindOf? k).isSome → k ∉ [.constructor, .function, .method])
    (ht : Tracks kind? scopes (Outline.of h)) :
    Predicts origin (Mistake origin) (keywordDeclarations kindOf?)∗
      (fun t => ∀ k, t = some (.keyword k) → kindOf? k = none) (Tracked kind?)
      (declarations kindOf? scopes) h s := by
  have hseparates : Separates (keywordDeclarations kindOf?)
      (fun t => ∀ k, t = some (.keyword k) → kindOf? k = none) Anything := by
    refine ⟨?_, fun _ _ => trivial⟩
    rintro us ⟨k, kind, -, vs, -, rfl⟩
    exact ⟨_, vs, rfl, trivial⟩
  refine .bind_pure (.iterate (Q := fun state h => Tracked kind? state h) hseparates
    (fun (done, scopes) h s ht => ?_) ht) fun _ _ _ ht => ht
  cases hkind : s.keyword?.bind kindOf? with
  | some kind =>
    obtain ⟨k, hk, hkind'⟩ := Option.bind_eq_some_iff.1 hkind
    have hcurrent := keyword?_eq_some_iff.1 hk
    refine .inl ⟨fun hend => ?_, .look currentKeyword_run ?_⟩
    · cases hkind'.symm.trans (hend k hcurrent)
    rw [hkind]
    refine .advance_bind (.keyword k) (declarationWords kind) hcurrent ?_ ?_ ?_
    · exact fun us hus => ⟨k, kind, hkind', us, hus, rfl⟩
    · rintro _ ⟨k', kind', hkind'', vs, hvs, rfl⟩ r _ hbegins
      cases (begins_cons_iff.1 hbegins).1
      cases hkind'.symm.trans hkind''
      exact ⟨vs, hvs, rfl⟩
    · refine .bind_pure (declaration_predicts kind ?_) fun _ _ _ ht => ⟨_, rfl, ht⟩
      rwa [Outline.of_append (quiet_keyword (hquiet k (Option.isSome_of_eq_some hkind')))]
  | none =>
    refine .inr ⟨?_, ?_⟩
    · rintro ⟨_, ⟨k, kind, hkind', vs, -, rfl⟩, hstart⟩
      rw [keyword?_eq_some_iff.2 hstart.symm, Option.bind_some, hkind'] at hkind
      cases hkind
    · rw [bind_of_ok currentKeyword_run, hkind]
      rfl

end Parser
end JackLang
