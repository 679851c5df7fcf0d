import JackLang.Compilation
import JackLang.Proofs.Engine.Class
import JackLang.Proofs.TokenStream

/-! The language that the compiler accepts. A source compiles just if its tokens are those of a tree
that obeys the rules of the language, and no fault is among them (`Compilation.outcome_ok_iff`). The
parser knows the current object of a method under the name `this`; no identifier has that name
(`Token.Legible.unreserved`), so the scopes of the parser are those of the names as written. -/

namespace JackLang

namespace Syntax

variable {c : Class} {s : Subroutine}

/-! ### The rules and the checks of the parser -/

theorem mem_withCommas {t : Token} {ts : List Token} {tss : List (List Token)} (hts : ts ∈ tss)
    (ht : t ∈ ts) : t ∈ withCommas tss := by
  cases hts with
  | head => exact List.mem_append_left _ ht
  | tail _ hts =>
    exact List.mem_append_right _ (List.mem_flatMap.2 ⟨ts, hts, List.mem_cons_of_mem _ ht⟩)

/-- A subroutine writes the names that it declares. -/
theorem Subroutine.identifier_mem_tokens {d : Declared} (hd : d ∈ s.written) :
    .identifier d.name ∈ s.tokens := by
  simp only [written, declaredParameters, declaredLocals, Declaration.declared, List.mem_append,
    List.mem_map, List.mem_flatMap] at hd
  rw [tokens, bodyTokens, inParens, inBraces]
  simp only [List.mem_cons, List.mem_append]
  rcases hd with ⟨p, hp, rfl⟩ | ⟨declaration, hdeclaration, name, hname, rfl⟩
  · have : Token.identifier p.name ∈ withCommas (s.parameters.map Parameter.tokens) :=
      mem_withCommas (List.mem_map_of_mem hp) (by simp [Parameter.tokens])
    simp only [this, true_or, or_true]
  · have hdecl : Token.identifier name ∈ declaration.tokens := by
      rw [Declaration.tokens]
      refine List.mem_cons_of_mem _ (List.mem_append_left _ ?_)
      exact mem_withCommas (List.mem_map_of_mem hname) (List.mem_singleton_self _)
    have : Token.identifier name ∈
        s.locals.flatMap fun d => .keyword .var :: d.tokens :=
      List.mem_flatMap.2 ⟨declaration, hdeclaration, List.mem_cons_of_mem _ hdecl⟩
    simp only [this, true_or, or_true]

/-- The only name in the scope of a subroutine that is not written is `this`. -/
theorem Class.site_declares_iff {name : String} (hname : name ≠ "this") :
    (c.site s).Declares name ↔ c.Declares s name := by
  have hreceiver : name ∉ (Subroutine.receiver c.name s.kind).map (·.name) := by
    cases s.kind <;> simp [Subroutine.receiver, hname]
  rw [Site.Declares, Site.find?, Environment.isSome_find?_iff, Class.site, Class.Declares,
    Subroutine.declared, List.map_append, List.mem_append, or_iff_right hreceiver]

/-- A term is allowed whatever else is declared than the names it writes. -/
theorem Term.allowed_congr {kind : SubroutineKind} {D D' : String → Prop} {term : Term}
    (h : ∀ name, .identifier name ∈ term.tokens → (D name ↔ D' name)) :
    term.Allowed kind D ↔ term.Allowed kind D' := by
  cases term with
  | «variable» name => exact h name (by simp [Term.tokens])
  | element name => exact h name (by simp [Term.tokens])
  | call qualifier => cases qualifier <;> exact Iff.rfl
  | _ => exact Iff.rfl

theorem Statement.allowed_congr {kind : SubroutineKind} {D D' : String → Prop}
    {statement : Statement} (h : ∀ name, .identifier name ∈ statement.tokens → (D name ↔ D' name)) :
    statement.Allowed kind D ↔ statement.Allowed kind D' := by
  cases statement with
  | assign name => exact h name (by simp [Statement.tokens])
  | assignElement name => exact h name (by simp [Statement.tokens])
  | call qualifier => cases qualifier <;> exact Iff.rfl
  | _ => exact Iff.rfl

theorem Subroutine.proper_site_iff (hc : (⟨c.declared, []⟩ : Environment).Proper)
    (hthis : .identifier "this" ∉ s.tokens) : (c.site s).environment.Proper ↔
      (s.written.map (·.name)).Nodup ∧ Declared.count .argument (s.declared c.name) ≤ maxCount ∧
        Declared.count .local (s.declared c.name) ≤ maxCount := by
  have hnodup : ((s.declared c.name).map (·.name)).Nodup ↔ (s.written.map (·.name)).Nodup := by
    have hnot : "this" ∉ s.written.map (·.name) := by
      intro hmem
      obtain ⟨d, hd, hname⟩ := List.mem_map.1 hmem
      exact hthis (hname ▸ identifier_mem_tokens hd)
    rw [declared, List.map_append]
    cases s.kind with
    | constructor | function => exact Iff.rfl
    | method =>
      rw [receiver, List.map_singleton, List.singleton_append, List.nodup_cons]
      exact and_iff_right hnot
  rw [Environment.proper_iff]
  exact (and_iff_right (Environment.proper_iff.1 hc).1).trans (and_congr_left' hnodup)

theorem Subroutine.fits_iff_valid (hc : (⟨c.declared, []⟩ : Environment).Proper)
    (hthis : .identifier "this" ∉ s.tokens) : s.Fits c ↔
      s.Valid c ∧ (s.kind = .constructor → Declared.count .field c.declared ≤ maxConstant) := by
  have hdeclares {name : String} (h : .identifier name ∈ s.tokens) :
      (c.site s).Declares name ↔ c.Declares s name :=
    Class.site_declares_iff fun heq => hthis (heq ▸ h)
  have hstatement {u : Statement} (hu : u ∈ s.statements) :
      u.Allowed s.kind (c.site s).Declares ↔ u.Allowed s.kind (c.Declares s) :=
    Statement.allowed_congr fun _ h => hdeclares (tokens_subset_of_mem_statements hu h)
  have hterm {u : Term} (hu : u ∈ s.terms) :
      u.Allowed s.kind (c.site s).Declares ↔ u.Allowed s.kind (c.Declares s) :=
    Term.allowed_congr fun _ h => hdeclares (tokens_subset_of_mem_terms hu h)
  refine ⟨fun ⟨hproper, hfields, hallowed, hdepth⟩ => ⟨?_, hfields⟩, fun ⟨h, hfields⟩ => ?_⟩
  · obtain ⟨hnodup, harguments, hlocals⟩ := (proper_site_iff hc hthis).1 hproper
    refine ⟨hnodup, harguments, hlocals, fun u hu => ?_, fun v hv => ?_, hdepth⟩
    · exact (hstatement hu).1 (hallowed u hu).1
    · obtain ⟨u, hu, hvu⟩ := List.mem_flatMap.1 hv
      exact (hterm hv).1 ((hallowed u hu).2 v hvu)
  · refine ⟨(proper_site_iff hc hthis).2 ⟨h.nodup, h.arguments_le, h.locals_le⟩, hfields, ?_,
      h.depth_le⟩
    refine fun u hu => ⟨(hstatement hu).2 (h.statements u hu), fun v hvu => ?_⟩
    have hv : v ∈ s.terms := List.mem_flatMap.2 ⟨u, hu, hvu⟩
    exact (hterm hv).2 (h.terms v hv)

theorem Class.fits_iff_valid (hthis : .identifier "this" ∉ c.tokens) : c.Fits ↔ c.Valid := by
  have hproper : (⟨c.declared, []⟩ : Environment).Proper ↔
      (c.declared.map (·.name)).Nodup ∧ Declared.count .static c.declared ≤ maxCount ∧
        Declared.count .field c.declared ≤ maxCount := by
    rw [Environment.proper_iff]
    exact and_iff_left ⟨List.nodup_nil, Nat.zero_le _, Nat.zero_le _⟩
  have hsubroutine (hc : (⟨c.declared, []⟩ : Environment).Proper) (s : Subroutine)
      (hs : s ∈ c.subroutines) := Subroutine.fits_iff_valid hc
    fun h => hthis (tokens_subset_of_mem_subroutines hs h)
  refine ⟨fun ⟨hc, h⟩ => ?_, fun h => ?_⟩
  · obtain ⟨hnodup, hstatic, hfield⟩ := hproper.1 hc
    exact ⟨hnodup, hstatic, hfield, fun s hs => (h s hs).fields_le,
      fun s hs => ((hsubroutine hc s hs).1 (h s hs)).1⟩
  · have hc := hproper.2 ⟨h.nodup, h.statics_le, h.fields_le⟩
    exact ⟨hc, fun s hs =>
      (hsubroutine hc s hs).2 ⟨h.subroutines s hs, h.constructor_fields_le s hs⟩⟩

end Syntax

/-! ### Compilation -/

theorem identifier_this_notMem {lines : List Line} :
    .identifier "this" ∉ (TokenStream.ofLines lines).texts := by
  intro h
  obtain ⟨token, htoken, heq⟩ := List.mem_map.1 h
  exact (TokenStream.legible_of_mem_ofLines htoken).unreserved .this heq

theorem parse_sound {lines : List Line} {t : Class} (h : parse lines = .ok t) :
    (TokenStream.ofLines lines).fault? = none ∧
      ∃ c : Syntax.Class, c.tokens = (TokenStream.ofLines lines).texts ∧ c.Valid ∧
        c.resolve? = some t := by
  rw [parse] at h
  split at h
  · next hrun =>
    cases h
    obtain ⟨hfault, c, htokens, hresolve, hfits⟩ := Parser.program_sound hrun
    refine ⟨hfault, c, htokens.symm, (Syntax.Class.fits_iff_valid ?_).1 hfits, hresolve⟩
    exact htokens ▸ identifier_this_notMem
  · cases h

theorem parse_complete {lines : List Line} {c : Syntax.Class}
    (hfault : (TokenStream.ofLines lines).fault? = none)
    (htokens : c.tokens = (TokenStream.ofLines lines).texts) (hvalid : c.Valid) :
    ∃ t, parse lines = .ok t := by
  have hthis : .identifier "this" ∉ c.tokens := htokens ▸ identifier_this_notMem
  obtain ⟨t, s', hrun⟩ := Parser.program_complete hfault htokens.symm
    ((Syntax.Class.fits_iff_valid hthis).2 hvalid)
  refine ⟨t, ?_⟩
  rw [parse, show Parser.program (.ofLines lines) = .ok t s' from hrun]

/-- What compiles is what parses. -/
theorem Compilation.outcome_eq_ok_iff {name source : String} {traced : Bool} {output : Output} :
    (Compilation.ofText name source traced).outcome = .ok output ↔
      ∃ t, parse (Line.ofText source) = .ok t ∧
        output = ⟨t.emit.render, if traced then some (Trace.render t.trace) else none⟩ := by
  rw [ofText, ofLines, compile_eq]
  cases parse (Line.ofText source) with
  | ok t => cases traced <;> simp [bind, Except.bind, pure, Except.pure, eq_comm]
  | error fault => simp [bind, Except.bind]

theorem Compilation.exists_output {name source : String} {traced : Bool} {c : Syntax.Class}
    (hfault : (TokenStream.ofText source).fault? = none)
    (htokens : c.tokens = (TokenStream.ofText source).texts) (hvalid : c.Valid) :
    ∃ output, (Compilation.ofText name source traced).outcome = .ok output := by
  obtain ⟨t, ht⟩ := parse_complete hfault htokens hvalid
  exact ⟨_, outcome_eq_ok_iff.2 ⟨t, ht, rfl⟩⟩

/-- **The language of the compiler.** A source compiles just if it has tokens to its end, and these
are derived by a tree of the grammar that is valid. -/
theorem Compilation.outcome_ok_iff (name source : String) (traced : Bool) :
    (∃ output, (Compilation.ofText name source traced).outcome = .ok output) ↔
      (TokenStream.ofText source).fault? = none ∧
        ∃ c : Syntax.Class, c.tokens = (TokenStream.ofText source).texts ∧ c.Valid := by
  refine ⟨?_, ?_⟩
  · rintro ⟨output, h⟩
    obtain ⟨t, hparse, -⟩ := outcome_eq_ok_iff.1 h
    obtain ⟨hfault, c, htokens, hvalid, -⟩ := parse_sound hparse
    exact ⟨hfault, c, htokens, hvalid⟩
  · rintro ⟨hfault, c, htokens, hvalid⟩
    exact exists_output hfault htokens hvalid

/-! ### A class of counters -/

namespace Syntax.Counter

def source : String :=
  "class Counter { field int n; method int next(int d) {
    if (d > 0) { let n = n + d; } return n; } }"

/-- Adds a positive argument to the field, which it returns. -/
def next : Subroutine where
  kind := .method
  returnType := some .int
  name := "next"
  parameters := [⟨.int, "d"⟩]
  locals := []
  body := [
    .ifThen (.mk (.variable "d") [(.greater, .integer 0)])
      [.assign "n" (.mk (.variable "n") [(.add, .variable "d")])],
    .return (some (.mk (.variable "n") []))]

def tree : Class := ⟨"Counter", [(.field, ⟨.int, "n", []⟩)], [next]⟩

theorem valid_tree : tree.Valid := by decide

theorem tokens_tree : tree.tokens = (TokenStream.ofText source).texts := by decide +kernel

theorem exists_output :
    ∃ output, (Compilation.ofText "Counter" source false).outcome = .ok output :=
  Compilation.exists_output (by decide +kernel) tokens_tree valid_tree

end Syntax.Counter

end JackLang
