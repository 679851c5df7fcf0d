import JackLang.Proofs.Acceptance
import JackLang.Proofs.Labels
import JackLang.Proofs.Operands
import JackLang.Proofs.Prediction.Class
import JackLang.Proofs.Syntax.Renaming

/-! Errors tell the truth. A syntax error names the first token with which no class goes on
(`Compilation.first_impossible_token`); every other error is explained by the tokens before its place
(`Explains`), and none comes from the inside of the compiler (`Compilation.error_explained`). -/

namespace JackLang

open Syntax (Leaf Outline DeclaredBefore)

/-! ### Faults of a source -/

/-- A source whose compilation fails has a fault, at which the parser stops predictively. -/
theorem Compilation.exists_fault {name source : String} {traced : Bool} {error : Error}
    (h : (Compilation.ofText name source traced).outcome = .error error) :
    ∃ fault s', compile (Line.ofText source) traced = .error fault ∧ error = fault.report ∧
      Parser.program.run (.ofText source) = .error fault s' ∧
      Parser.Fails (Parser.Mistake (.ofText source)) Parser.classes (· = none) [] (.ofText source)
        fault s' := by
  rw [ofText, ofLines] at h
  cases hcompile : compile (Line.ofText source) traced with
  | ok compiled =>
    rw [hcompile] at h
    cases h
  | error fault =>
    rw [hcompile] at h
    cases h
    rw [compile_eq, parse] at hcompile
    cases hrun : Parser.program (.ofLines (Line.ofText source)) with
    | ok t s' =>
      rw [hrun] at hcompile
      cases hcompile
    | error fault' s' =>
      rw [hrun] at hcompile
      cases hcompile
      exact ⟨_, _, rfl, rfl, hrun, (Parser.program_predicts _).fails .nil hrun⟩

theorem exists_of_compile_eq_error {lines : List Line} {traced : Bool} {fault : Fault}
    (h : compile lines traced = .error fault) :
    ∃ s, Engine.program.run (.start lines traced) = .error fault s := by
  rw [compile] at h
  split at h
  · cases h
  · next s hrun =>
    cases h
    exact ⟨s, hrun⟩

/-! ### Where a token is found -/

theorem Token.describe_ne_end (t : Token) : t.describe ≠ "end of input" := by
  intro h
  have hhead := congrArg (·.toList.head?) h
  cases t <;> simp [describe, toString] at hhead

namespace TokenStream

variable {s s' : TokenStream} {span : Span} {found source : String} {k : Nat}

theorem head?_texts (s : TokenStream) : s.texts.head? = s.current? := List.head?_map

/-- At a place stands the token number `k`, or the end of the input, as an error message names it. -/
def Shows (s : TokenStream) (k : Nat) (span : Span) (found : String) : Prop :=
  (∃ token, s.tokens[k]? = some ⟨token, span⟩ ∧ found = token.describe) ∨
    k = s.tokens.length ∧ s.fault? = none ∧ span = s.position ∧ found = "end of input"

/-- Tokens stand at different places, and no token is named as the end of the input is. -/
theorem Shows.eq_iff (h : (ofText source).Shows k span found) {k' : Nat} :
    (ofText source).Shows k' span found ↔ k' = k := by
  refine ⟨fun h' => ?_, ?_⟩
  · rcases h with ⟨token, htoken, rfl⟩ | ⟨rfl, -, -, rfl⟩
    · rcases h' with ⟨token', htoken', -⟩ | ⟨-, -, -, hend⟩
      · exact span_injective htoken' htoken rfl
      · exact absurd hend token.describe_ne_end
    · rcases h' with ⟨token', -, hend⟩ | ⟨rfl, -⟩
      · exact absurd hend.symm token'.describe_ne_end
      · rfl
  · rintro rfl
    exact h

/-- What a parser finds where it has read some leaves. -/
theorem Reads.shows {ls : List Leaf} (hr : s.Reads (Syntax.texts ls) s') (hs : s.Live) :
    s.Shows ls.length s'.span ((s'.current?.map Token.describe).getD "end of input") := by
  cases hcurrent : s'.current? with
  | some t => exact .inl ⟨t, Parser.getElem?_of_at hr hcurrent, rfl⟩
  | none =>
    have htokens := current?_eq_none_iff.1 hcurrent
    have hlength := hr.length_le
    rw [htokens, List.length_nil, Nat.zero_add, Syntax.length_texts] at hlength
    refine .inr ⟨hlength, hr.fault?_eq ▸ hr.live hs htokens, ?_, rfl⟩
    rw [span, htokens, List.head?_nil, ← hr.position_eq]
    rfl

/-- What begins as the tokens that are read and the next one begins. -/
theorem Reads.begins_of_prefix {ts us : List Token} (hr : s.Reads ts s')
    (hlt : ts.length < s.texts.length) (h : s.texts.take (ts.length + 1) <+: us) :
    Parser.Begins us ts s'.current? := by
  have htexts : s.texts = ts ++ s'.texts := hr.map_token
  obtain ⟨rest, rfl⟩ := h
  rw [htexts, List.take_length_add_append, ← s'.head?_texts]
  refine ⟨s'.texts.take 1 ++ rest, List.append_assoc .., ?_⟩
  cases hs' : s'.texts with
  | nil => simp [htexts, hs'] at hlt
  | cons t ts => rfl

end TokenStream

/-! ### Syntax errors -/

theorem Fault.Lexical.ne_unexpected {fault : Fault} (h : fault.Lexical) (span : Span)
    (expected : Expectation) (found : Option Token) : fault ≠ .unexpected span expected found := by
  rintro rfl
  cases h

/-- A source that begins with a fault ends the parser with it. -/
theorem Parser.live_of_program {source : String} {fault : Fault} {s' : TokenStream}
    (hrun : program.run (.ofText source) = .error fault s') (hfault : ¬ fault.Lexical) :
    (TokenStream.ofText source).Live := by
  cases hstart : start.run (.ofText source) with
  | ok _ s₁ => exact (start_eq_ok.1 hstart).1
  | error fault' s₁ =>
    have heq : program.run (.ofText source) = .error fault' s₁ := by
      rw [program, EStateM.run_bind, hstart]
    cases hrun.symm.trans heq
    exact absurd (TokenStream.lexical_of_ofText (fault?_of_start_eq_error hstart)) hfault

namespace Compilation

/-- **Syntax errors.** A syntax error names the first token with which no class goes on: what stands
before it begins a class, and with it no class begins. The end of the input is named where the whole
source begins a class and is none. The number of levels is no matter of the grammar. -/
theorem first_impossible_token {name source : String} {traced : Bool} {span : Span}
    {expected found : String}
    (h : (ofText name source traced).outcome = .error (.syntactic span expected found))
    (hnested : ∀ nested, expected ≠ (Expectation.shallower nested).text) :
    ∃ k, (∀ k', (TokenStream.ofText source).Shows k' span found ↔ k' = k) ∧
      (∃ c : Syntax.Class, (TokenStream.ofText source).texts.take k <+: c.tokens ∧
        ∀ t ∈ c.tokens, t.Legible) ∧
      (k < (TokenStream.ofText source).texts.length →
        ∀ c : Syntax.Class, ¬ (TokenStream.ofText source).texts.take (k + 1) <+: c.tokens) ∧
      (k = (TokenStream.ofText source).texts.length →
        ∀ c : Syntax.Class, c.tokens ≠ (TokenStream.ofText source).texts) := by
  obtain ⟨fault, s', -, hreport, hrun, hfails⟩ := exists_fault h
  cases fault with
  | unexpected span' expected' found' =>
    cases hreport
    have hlive := Parser.live_of_program hrun fun hlexical => hlexical.ne_unexpected _ _ _ rfl
    cases hfails with
    | stream hfault => exact absurd rfl ((TokenStream.lexical_of_ofText hfault).ne_unexpected _ _ _)
    | blamed ls us _ _ hmistake =>
      cases hmistake with
      | lexical hlexical => exact absurd rfl (hlexical.ne_unexpected _ _ _)
      | @nested nested => exact absurd rfl (hnested nested)
    | rejected ls us hmem hr hfault _ hrejects =>
      cases hfault
      have htexts : (TokenStream.ofText source).texts = Syntax.texts ls ++ s'.texts := hr.map_token
      have hrejects (c : Syntax.Class) : ¬ Parser.Begins c.tokens (Syntax.texts ls) s'.current? := by
        rw [← c.texts_leaves, ← List.append_nil (Syntax.texts c.leaves)]
        exact hrejects c.leaves ⟨c, rfl⟩ [] rfl
      refine ⟨(Syntax.texts ls).length, fun k' => ?_, ?_, fun hk c hprefix => ?_, fun _ c hc => ?_⟩
      · rw [Syntax.length_texts]
        exact (hr.shows hlive).eq_iff
      · obtain ⟨c, hc⟩ := hmem
        refine Syntax.Class.exists_legible (c := c) ⟨Syntax.texts us, ?_⟩ fun t ht => ?_
        · rw [htexts, List.take_left, ← Syntax.texts_append, ← hc, c.texts_leaves]
        · exact TokenStream.legible_of_mem_texts (List.mem_of_mem_take ht)
      · exact hrejects c (hr.begins_of_prefix hk hprefix)
      · exact hrejects c ⟨s'.texts, hc.trans htexts, s'.head?_texts⟩
  | operand fault | label fault => cases fault <;> cases hreport
  | _ => cases hreport

/-- An assignment without a name: the token number 10 is the first with which no class goes on. -/
theorem first_impossible_token_let : ∃ source : String,
    (TokenStream.ofText source).Shows 10 ⟨1, 35⟩ "symbol '='" ∧
      (∃ c : Syntax.Class, (TokenStream.ofText source).texts.take 10 <+: c.tokens ∧
        ∀ t ∈ c.tokens, t.Legible) ∧
      ∀ c : Syntax.Class, ¬ (TokenStream.ofText source).texts.take 11 <+: c.tokens := by
  let source := "class A { function void f() { let = 1; } }"
  have h : (ofText "A" source false).outcome =
      .error (.syntactic ⟨1, 35⟩ "identifier" "symbol '='") := by decide +kernel
  have hshows : (TokenStream.ofText source).Shows 10 ⟨1, 35⟩ "symbol '='" :=
    .inl ⟨.symbol .equal, by decide +kernel, rfl⟩
  obtain ⟨k, hk, hbefore, himpossible, -⟩ := first_impossible_token h fun nested => by
    cases nested <;> decide
  obtain rfl := (hk 10).1 hshows
  exact ⟨source, hshows, hbefore, himpossible (by decide +kernel)⟩

end Compilation

/-! ### Other errors -/

namespace Error

/-- The errors that no source text can cause. -/
def Internal : Error → Prop
  | .precondition _ | .read .. | .io .. => True
  | .syntactic _ expected _ => expected = Expectation.token.text
  | _ => False

end Error

/-- A leaf of a class stands at a place of a source: the tokens before it are those before the leaf. -/
structure TokenStream.Stands (s : TokenStream) (h : List Leaf) (leaf : Leaf) (span : Span) : Prop where
  before : Syntax.texts h <+: s.texts
  token : s.tokens[h.length]? = some ⟨leaf.token, span⟩
  grammar : ∃ c : Syntax.Class, h ++ [leaf] <+: c.leaves

/-- The subroutine that a leaf stands in has some property, however the class may go on. -/
def Within (h : List Leaf) (leaf : Leaf) (P : Syntax.Class → Syntax.Subroutine → Prop) : Prop :=
  ∀ c : Syntax.Class, h ++ [leaf] <+: c.leaves → ∃ s, c.Encloses s h leaf ∧ P c s

/-- Why a source does not compile: what is true of it where it gets an error. -/
inductive Explains (s : TokenStream) : Error → Prop
  | lexical {fault : Fault} : fault.Lexical → Explains s fault.report
  | syntactic {span : Span} {expected found : String} :
    expected ≠ Expectation.token.text → Explains s (.syntactic span expected found)
  | duplicate {h : List Leaf} {kind : VarKind} {name : String} {span : Span} :
    s.Stands h (.name (.declares kind) name) span → DeclaredBefore h kind name →
    Explains s (.duplicate name span)
  | assigned {h : List Leaf} {name : String} {span : Span} :
    s.Stands h (.name .assigned name) span → name ≠ "this" →
    Within h (.name .assigned name) (fun c t => ¬ c.Declares t name) →
    Explains s (.undefined name span)
  /-- A name in an expression is a variable, unless a call begins with it. -/
  | read {h : List Leaf} {name : String} {span : Span} :
    s.Stands h (.name .read name) span → name ≠ "this" →
    s.texts[h.length + 1]? ∉ [some (.symbol .openParen), some (.symbol .dot)] →
    Within h (.name .read name) (fun c t => ¬ c.Declares t name) →
    Explains s (.undefined name span)
  | this {h : List Leaf} {span : Span} : s.Stands h (.keyword .this) span →
    Within h (.keyword .this) (fun _ t => t.kind = .function) → Explains s (.undefined "this" span)
  | called {h : List Leaf} {name : String} {span : Span} : s.Stands h (.name .called name) span →
    s.texts[h.length + 1]? = some (.symbol .openParen) →
    Within h (.name .called name) (fun _ t => t.kind = .function) →
    Explains s (.undefined "this" span)
  | tooManyVariables {h : List Leaf} {kind : VarKind} {name : String} {span : Span} :
    s.Stands h (.name (.declares kind) name) span → (Outline.of h).count kind = maxCount →
    Explains s (Fault.tooManyVariables kind span).report
  | tooManyFields {h : List Leaf} {className : String} {fields : Nat} :
    Syntax.texts h <+: s.texts → (∃ c : Syntax.Class, h <+: c.leaves) →
    (∀ c : Syntax.Class, h <+: c.leaves → c.name = className ∧
      (∃ t ∈ c.subroutines, t.kind = .constructor) ∧ Declared.count .field c.declared = fields) →
    maxConstant < fields → Explains s (Fault.tooManyFields className fields).report

namespace Explains

theorem not_internal {s : TokenStream} {error : Error} (h : Explains s error) : ¬ error.Internal := by
  cases h with
  | lexical hlexical => cases hlexical <;> exact id
  | syntactic hexpected => exact hexpected
  | _ => exact id

end Explains

/-- Nothing else that is expected is worded as any token is. -/
theorem Expectation.text_ne {expected : Expectation} (h : expected ≠ .token) :
    expected.text ≠ token.text := by
  intro htext
  have hhead := congrArg (·.toList.head?) htext
  cases expected with
  | token => exact h rfl
  | shallower nested => cases nested <;> simp [text, Nested.text, toString] at hhead
  | _ => simp [text, toString] at hhead

/-- What only statements write stands in a subroutine. -/
theorem within_of_used {h : List Leaf} {leaf : Leaf} {P : Syntax.Class → Syntax.Subroutine → Prop}
    (hused : leaf.Used) (hP : ∀ c t, c.Encloses t h leaf → P c t) : Within h leaf P := by
  rintro c ⟨rest, hc⟩
  rw [List.append_assoc, List.singleton_append] at hc
  obtain ⟨t, ht⟩ := Syntax.Class.exists_encloses hc.symm (.inl hused)
  exact ⟨t, ht, hP c t ht⟩

theorem within_of_function {h : List Leaf} {leaf : Leaf} (hused : leaf.Used)
    (hkind : (Outline.of h).kind? = some .function) :
    Within h leaf fun _ t => t.kind = .function := by
  refine within_of_used hused fun c t ht => ?_
  rw [ht.outline_eq hused] at hkind
  exact Option.some.inj hkind

theorem within_of_undeclared {h : List Leaf} {leaf : Leaf} {name : String} (hused : leaf.Used)
    (hname : ¬ (Outline.of h).Declares name) : Within h leaf fun c t => ¬ c.Declares t name :=
  within_of_used hused fun _ _ ht => ht.not_declares hused hname

section stands

variable {source : String} {h us : List Leaf} {leaf : Leaf} {span : Span} {s' : TokenStream}

theorem stands_of_reads (hmem : h ++ [leaf] ++ us ∈ Parser.classes)
    (hr : (TokenStream.ofText source).Reads (Syntax.texts (h ++ [leaf])) s')
    (htoken : (TokenStream.ofText source).tokens[h.length]? = some ⟨leaf.token, span⟩) :
    (TokenStream.ofText source).Stands h leaf span where
  before := by
    rw [TokenStream.texts, hr.map_token, Syntax.texts_append, List.append_assoc]
    exact List.prefix_append _ _
  token := htoken
  grammar := by
    obtain ⟨c, hc⟩ := hmem
    exact ⟨c, us, hc.symm⟩

end stands

theorem name_ne_this {source : String} {k : Nat} {name : String} {span : Span}
    (h : (TokenStream.ofText source).tokens[k]? = some ⟨.identifier name, span⟩) :
    name ≠ "this" := by
  rintro rfl
  exact (TokenStream.legible_of_mem_ofLines (List.mem_of_getElem? h)).unreserved .this rfl

namespace Parser.Mistake

variable {source : String} {fault : Fault} {ls us : List Leaf} {s' : TokenStream}

/-- What the parser blames on the leaves it has read is true. -/
theorem explains (h : Mistake (.ofText source) fault ls) (hmem : ls ++ us ∈ classes)
    (hr : (TokenStream.ofText source).Reads (Syntax.texts ls) s') :
    Explains (.ofText source) fault.report := by
  cases h with
  | lexical hlexical => exact .lexical hlexical
  | @nested nested => exact .syntactic (Expectation.text_ne nofun)
  | duplicate htoken hhas =>
    exact .duplicate (stands_of_reads hmem hr htoken) (hhas.declaredBefore (name_ne_this htoken))
  | tooManyVariables htoken hcount => exact .tooManyVariables (stands_of_reads hmem hr htoken) hcount
  | @tooManyFields className fields _ hclass hkind hfields hlt =>
    obtain ⟨c, hc⟩ := hmem
    refine .tooManyFields ?_ ⟨c, us, hc.symm⟩ ?_ hlt
    · rw [TokenStream.texts, hr.map_token]
      exact List.prefix_append _ _
    · rintro c ⟨rest, hc⟩
      obtain ⟨hheading, t, ht, hkind⟩ := Syntax.Class.exists_subroutine_of_kind? hc.symm hkind
      refine ⟨?_, ⟨t, ht, hkind⟩, (Syntax.Class.count_outline hc.symm hheading rfl).symm.trans hfields⟩
      have hname := hclass.trans ⟨rest, hc⟩
      rw [Syntax.Class.leaves, List.cons_prefix_cons, List.cons_prefix_cons] at hname
      exact (Token.identifier.inj (congrArg Leaf.token hname.2.1)).symm
  | assigned htoken hname =>
    exact .assigned (stands_of_reads hmem hr htoken) (name_ne_this htoken)
      (within_of_undeclared (Leaf.used_name (by simp) _) hname)
  | read htoken hname hparen hdot =>
    refine .read (stands_of_reads hmem hr htoken) (name_ne_this htoken) ?_
      (within_of_undeclared (Leaf.used_name (by simp) _) hname)
    rw [TokenStream.texts, List.getElem?_map]
    simp [hparen, hdot]
  | this htoken hkind =>
    exact .this (stands_of_reads hmem hr htoken) (within_of_function (.inr rfl) hkind)
  | called htoken hnext hkind =>
    refine .called (stands_of_reads hmem hr htoken) ?_
      (within_of_function (Leaf.used_name (by simp) _) hkind)
    rw [TokenStream.texts, List.getElem?_map, hnext]

end Parser.Mistake

/-- The faults that the engine finds in its own code: operands that an instruction cannot carry, and
labels that it asks for without a name. -/
def Fault.OfWriting : Fault → Prop
  | .operand _ | .label _ => True
  | _ => False

theorem Fault.Lexical.not_ofWriting {fault : Fault} (h : fault.Lexical) : ¬ fault.OfWriting := by
  cases h <;> exact id

theorem Parser.Mistake.not_ofWriting {origin : TokenStream} {fault : Fault} {h : List Leaf}
    (hmistake : Mistake origin fault h) : ¬ fault.OfWriting := by
  cases hmistake with
  | lexical hlexical => exact hlexical.not_ofWriting
  | _ => exact id

namespace Compilation

/-- **Errors are true.** Where a source does not compile the error is explained by the source, and it
is none of the compiler's own. The engine checks the operands of every instruction that it writes
and the names for all labels that it asks for, and no such check ends its run. -/
theorem error_explained {name source : String} {traced : Bool} {error : Error}
    (h : (ofText name source traced).outcome = .error error) :
    Explains (.ofText source) error ∧ ¬ error.Internal ∧
      ∃ fault s, Engine.program.run (.start (Line.ofText source) traced) = .error fault s ∧
        error = fault.report ∧ ¬ fault.OfWriting := by
  obtain ⟨fault, s', hcompile, rfl, hrun, hfails⟩ := exists_fault h
  obtain ⟨s, hengine⟩ := exists_of_compile_eq_error hcompile
  have hexplains : Explains (.ofText source) fault.report ∧ ¬ fault.OfWriting := by
    cases hfails with
    | stream hfault =>
      have hlexical := TokenStream.lexical_of_ofText hfault
      exact ⟨.lexical hlexical, hlexical.not_ofWriting⟩
    | blamed ls us hmem hr hmistake => exact ⟨hmistake.explains hmem hr, hmistake.not_ofWriting⟩
    | rejected ls us _ _ hfault hexpected _ =>
      subst hfault
      exact ⟨.syntactic (Expectation.text_ne hexpected), id⟩
  exact ⟨hexplains.1, hexplains.1.not_internal, fault, s, hengine, rfl, hexplains.2⟩

/-- A function has no current object. -/
theorem error_explained_this : ∃ source : String,
    (ofText "A" source false).outcome = .error (.undefined "this" ⟨1, 37⟩) ∧
      Explains (.ofText source) (.undefined "this" ⟨1, 37⟩) := by
  have h : (ofText "A" "class A { function int f() { return this; } }" false).outcome =
      .error (.undefined "this" ⟨1, 37⟩) := by decide +kernel
  exact ⟨_, h, (error_explained h).1⟩

end Compilation
end JackLang
