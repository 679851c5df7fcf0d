import JackLang.Proofs.StackDiscipline

/-! Calls and their arguments. The code of a phrase stands in the code of what contains it
(`Term.translate_infix`, `Statement.exists_translate_infix`), so every call of a subroutine is found in
its block behind the code that pushes what it passes. The instruction counts the written arguments and
the receiver up to `maxCount`: a call that passes more leaves the rest on the stack
(`Compilation.counts_calls`). -/

namespace JackLang

open Machine

namespace Syntax

variable {site : Site}

/-! ### Phrases in the code -/

mutual

theorem Term.translate_infix {u : Term} : ∀ {term : Term}, u ∈ term.subterms →
    u.translate site <:+: term.translate site
  | .integer _, h | .string _, h | .constant _, h | .this, h | .variable _, h => by
    rw [Term.subterms, List.mem_singleton] at h
    subst h
    exact List.infix_rfl
  | .element array index, h => by
    rw [Term.subterms, List.mem_cons] at h
    rcases h with rfl | h
    · exact List.infix_rfl
    · exact (Expression.translate_infix h).trans (List.infix_append' _ _ _)
  | .call qualifier subroutine arguments, h => by
    rw [Term.subterms, List.mem_cons] at h
    rcases h with rfl | h
    · exact List.infix_rfl
    · exact (Expression.translateAll_infix h).trans (List.infix_append' _ _ _)
  | .group inner, h => by
    rw [Term.subterms, List.mem_cons] at h
    rcases h with rfl | h
    · exact List.infix_rfl
    · exact Expression.translate_infix h
  | .unary op operand, h => by
    rw [Term.subterms, List.mem_cons] at h
    rcases h with rfl | h
    · exact List.infix_rfl
    · exact (Term.translate_infix h).trans (List.prefix_append _ _).isInfix
termination_by structural term => term

theorem Expression.translate_infix {u : Term} : ∀ {expression : Expression},
    u ∈ expression.subterms → u.translate site <:+: expression.translate site
  | .mk first rest, h => by
    rw [Expression.subterms, List.mem_append] at h
    rw [Expression.translate]
    rcases h with h | h
    · exact (Term.translate_infix h).trans (List.prefix_append _ _).isInfix
    · exact (Expression.translateRest_infix h).trans (List.suffix_append _ _).isInfix
termination_by structural expression => expression

theorem Expression.translateRest_infix {u : Term} : ∀ {rest : List (Operator × Term)},
    u ∈ Expression.subtermsRest rest → u.translate site <:+: Expression.translateRest site rest
  | [], h => by cases h
  | (op, operand) :: rest, h => by
    rw [Expression.subtermsRest, List.mem_append] at h
    rw [Expression.translateRest]
    rcases h with h | h
    · exact (Term.translate_infix h).trans (List.prefix_append _ _).isInfix
    · exact (Expression.translateRest_infix h).trans
        ((List.suffix_cons _ _).trans (List.suffix_append _ _)).isInfix
termination_by structural rest => rest

theorem Expression.translateAll_infix {u : Term} : ∀ {expressions : List Expression},
    u ∈ Expression.subtermsAll expressions →
      u.translate site <:+: Expression.translateAll site expressions
  | [], h => by cases h
  | expression :: rest, h => by
    rw [Expression.subtermsAll, List.mem_append] at h
    rw [Expression.translateAll]
    rcases h with h | h
    · exact (Expression.translate_infix h).trans (List.prefix_append _ _).isInfix
    · exact (Expression.translateAll_infix h).trans (List.suffix_append _ _).isInfix
termination_by structural expressions => expressions

end

/-- The terms of a statement itself stand in its code. -/
theorem Statement.translate_infix {u : Term} {subroutine : String} {n : Numbering}
    {statement : Statement} (h : u ∈ Expression.subtermsAll statement.expressions) :
    u.translate site <:+: statement.translate site subroutine n := by
  cases statement with
  | assignElement array index value =>
    simp only [Statement.expressions, Expression.subtermsAll, List.append_nil, List.mem_append] at h
    rw [Statement.translate]
    rcases h with h | h
    · exact (Expression.translate_infix h).trans (List.infix_append' _ _ _)
    · refine (Expression.translate_infix h).trans ?_
      refine List.IsInfix.trans ?_ (List.suffix_append _ _).isInfix
      refine List.IsInfix.trans ?_ (List.suffix_append _ _).isInfix
      exact (List.prefix_append _ _).isInfix.trans (List.suffix_cons _ _).isInfix
  | call qualifier subroutine' arguments =>
    have hcall : u ∈ (Term.call qualifier subroutine' arguments).subterms := by
      rw [Term.subterms]
      exact List.mem_cons_of_mem _ h
    exact (Term.translate_infix hcall).trans (List.prefix_append _ _).isInfix
  | «return» value =>
    cases value with
    | none => cases h
    | some value =>
      rw [Statement.expressions, Option.toList, Expression.subtermsAll_singleton] at h
      exact (Expression.translate_infix h).trans (List.prefix_append _ _).isInfix
  | assign target value =>
    rw [Statement.expressions, Expression.subtermsAll_singleton] at h
    exact (Expression.translate_infix h).trans (List.prefix_append _ _).isInfix
  | ifThen condition body | ifElse condition body alternative | «while» condition body =>
    rw [Statement.expressions, Expression.subtermsAll_singleton] at h
    simp only [Statement.translate, List.append_assoc]
    exact (Expression.translate_infix h).trans
      (by first | exact (List.prefix_append _ _).isInfix | exact List.infix_append' _ _ _)

mutual

/-- A statement inside another stands in its code, with the number that it has there. -/
theorem Statement.exists_translate_infix {u : Statement} {subroutine : String} :
    ∀ {n : Numbering} {statement : Statement}, u ∈ statement.substatements →
      ∃ n', u.translate site subroutine n' <:+: statement.translate site subroutine n
  | n, .assign .., h | n, .assignElement .., h | n, .call .., h | n, .return _, h => by
    rw [Statement.substatements, List.mem_singleton] at h
    exact ⟨n, h ▸ List.infix_rfl⟩
  | n, .ifThen condition body, h => by
    rw [Statement.substatements, List.mem_cons] at h
    rcases h with rfl | h
    · exact ⟨n, List.infix_rfl⟩
    · obtain ⟨n', h⟩ := Statement.exists_translateAll_infix (n := n.succ .if) h
      exact ⟨n', h.trans (List.infix_append _ _ _)⟩
  | n, .ifElse condition body alternative, h => by
    rw [Statement.substatements, List.mem_cons, List.mem_append] at h
    rcases h with rfl | h | h
    · exact ⟨n, List.infix_rfl⟩
    · obtain ⟨n', h⟩ := Statement.exists_translateAll_infix (n := n.succ .if) h
      refine ⟨n', h.trans ?_⟩
      simp only [Statement.translate, List.append_assoc]
      exact (List.infix_append' _ _ _).trans (List.suffix_append _ _).isInfix
    · obtain ⟨n', h⟩ := Statement.exists_translateAll_infix (n := (n.succ .if).behind body) h
      exact ⟨n', h.trans (List.infix_append _ _ _)⟩
  | n, .while condition body, h => by
    rw [Statement.substatements, List.mem_cons] at h
    rcases h with rfl | h
    · exact ⟨n, List.infix_rfl⟩
    · obtain ⟨n', h⟩ := Statement.exists_translateAll_infix (n := n.succ .while) h
      exact ⟨n', h.trans (List.infix_append _ _ _)⟩
termination_by structural _ statement => statement

theorem Statement.exists_translateAll_infix {u : Statement} {subroutine : String} :
    ∀ {n : Numbering} {statements : List Statement}, u ∈ Statement.substatementsAll statements →
      ∃ n', u.translate site subroutine n' <:+: Statement.translateAll site subroutine n statements
  | n, [], h => by cases h
  | n, statement :: rest, h => by
    rw [Statement.substatementsAll, List.mem_append] at h
    rw [Statement.translateAll]
    rcases h with h | h
    · obtain ⟨n', h⟩ := Statement.exists_translate_infix (n := n) h
      exact ⟨n', h.trans (List.prefix_append _ _).isInfix⟩
    · obtain ⟨n', h⟩ := Statement.exists_translateAll_infix (n := n.behind [statement]) h
      exact ⟨n', h.trans (List.suffix_append _ _).isInfix⟩
termination_by structural _ statements => statements

end

/-! ### Calls -/

namespace Site

/-- How many values a call passes before its arguments: the receiver of an unqualified call, or of
one through a variable. -/
def receivers (site : Site) : Option String → Nat
  | none => 1
  | some qualifier => if (site.find? qualifier).isSome then 1 else 0

/-- The function that a call names. -/
def functionName (site : Site) (subroutine : String) : Option String → String
  | none => s!"{site.className}.{subroutine}"
  | some qualifier =>
    match site.find? qualifier with
    | some v => s!"{v.type.text}.{subroutine}"
    | none => s!"{qualifier}.{subroutine}"

/-- The code that pushes what a call passes. -/
def operands (site : Site) (qualifier : Option String) (arguments : List Expression) : List Instr :=
  site.pushObject qualifier ++ Expression.translateAll site arguments

theorem callInstr_eq_call (site : Site) (subroutine : String) (arguments : Nat)
    (qualifier : Option String) : site.callInstr subroutine arguments qualifier =
      .call (site.functionName subroutine qualifier) (arguments + site.receivers qualifier) := by
  cases qualifier with
  | none => rfl
  | some qualifier => cases h : site.find? qualifier <;> simp [callInstr, functionName, receivers, h]

theorem scan_pushObject_receivers {height : Nat} {qualifier : Option String}
    (h : qualifier = none → site.kind ≠ .function) :
    scan height (site.pushObject qualifier) = some (height + site.receivers qualifier) := by
  cases qualifier with
  | none => exact scan_pushThis (h rfl)
  | some qualifier =>
    rw [pushObject, receivers]
    split
    · next hfind => exact scan_pushVariable hfind
    · next hfind =>
      rw [pushVariable, Option.not_isSome_iff_eq_none.1 hfind]
      rfl

/-- What a call passes is the receiver and the arguments. -/
theorem scan_operands {height : Nat} {qualifier : Option String} {arguments : List Expression}
    (hkind : qualifier = none → site.kind ≠ .function)
    (h : ∀ u ∈ Expression.subtermsAll arguments, u.Allowed site.kind site.Declares) :
    scan height (site.operands qualifier arguments) =
      some (height + (arguments.length + site.receivers qualifier)) := by
  rw [operands, scan_append, scan_pushObject_receivers hkind, Option.bind_some,
    Expression.scan_translateAll h, Nat.add_assoc, Nat.add_comm (site.receivers qualifier)]

end Site

/-- A call in a term or in a statement of a subroutine, at any depth. -/
def Subroutine.Calls (s : Subroutine) (qualifier : Option String) (subroutine : String)
    (arguments : List Expression) : Prop :=
  .call qualifier subroutine arguments ∈ s.statements ∨ .call qualifier subroutine arguments ∈ s.terms

section calls

variable {c : Class} {s : Subroutine} {qualifier : Option String} {subroutine : String}
  {arguments : List Expression}

/-- A call stands in the block of its subroutine behind what it passes. -/
theorem Subroutine.Calls.infix_block (h : s.Calls qualifier subroutine arguments) (k : Nat) :
    (c.site s).operands qualifier arguments ++
      [(c.site s).callInstr subroutine arguments.length qualifier] <:+: c.block k s := by
  have hcode : (c.site s).operands qualifier arguments ++
      [(c.site s).callInstr subroutine arguments.length qualifier] =
        (Term.call qualifier subroutine arguments).translate (c.site s) := by
    rw [Site.operands, Term.translate, List.append_assoc]
  have hbody : Statement.translateAll (c.site s) s.name (c.numbering k s.name) s.body <:+:
      c.block k s := ((List.suffix_append _ _).trans (List.suffix_cons _ _)).isInfix
  rw [hcode]
  refine List.IsInfix.trans ?_ hbody
  rcases h with h | h
  · obtain ⟨n, h⟩ := Statement.exists_translateAll_infix h
    exact (List.prefix_append _ _).isInfix.trans h
  · obtain ⟨statement, hstatement, h⟩ := List.mem_flatMap.1 h
    obtain ⟨n, hinfix⟩ := Statement.exists_translateAll_infix hstatement
    exact (Statement.translate_infix h).trans hinfix

theorem Subroutine.Calls.allowed (h : s.Calls qualifier subroutine arguments) (hfits : s.Fits c) :
    (qualifier = none → (c.site s).kind ≠ .function) ∧
      ∀ u ∈ Expression.subtermsAll arguments, u.Allowed (c.site s).kind (c.site s).Declares := by
  rcases h with h | h
  · obtain ⟨hallowed, harguments⟩ := hfits.body.allowed _ h
    exact ⟨by rintro rfl; exact hallowed, harguments⟩
  · obtain ⟨statement, hstatement, h⟩ := List.mem_flatMap.1 h
    have hallowed := fun u hu =>
      (hfits.body.allowed _ hstatement).2 u (Expression.subtermsAll_subset h hu)
    rw [Term.subterms, List.forall_mem_cons] at hallowed
    exact ⟨by rintro rfl; exact hallowed.1, hallowed.2⟩

end calls

/-! ### Calls that are written -/

/-- A block counts what a call passes as far as an instruction counts. Where that is far enough for
the calls among the arguments, they are as many values as are pushed for them. -/
structure Counted (site : Site) (block : List Instr) (qualifier : Option String)
    (subroutine : String) (arguments : List Expression) : Prop where
  isInfix : (site.operands qualifier arguments).map capped ++
    [.call (site.functionName subroutine qualifier)
      (min (arguments.length + site.receivers qualifier) maxCount)] <:+: block
  scan_operands : (∀ u ∈ Expression.subtermsAll arguments, u.CallFits) → ∀ height,
    scan height ((site.operands qualifier arguments).map capped) =
      some (height + (arguments.length + site.receivers qualifier))

theorem Subroutine.Calls.counted {c : Class} {s : Subroutine} {qualifier : Option String}
    {subroutine : String} {arguments : List Expression} (h : s.Calls qualifier subroutine arguments)
    (hfits : s.Fits c) (k : Nat) :
    Counted (c.site s) ((c.block k s).map capped) qualifier subroutine arguments where
  isInfix := by
    have hinfix := (h.infix_block (c := c) k).map capped
    rwa [List.map_append, List.map_singleton, Site.callInstr_eq_call] at hinfix
  scan_operands := by
    intro hcalls height
    obtain ⟨hkind, hallowed⟩ := h.allowed hfits
    rw [Site.operands, List.map_append, Site.map_capped_pushObject,
      Expression.map_capped_translateAll _ hcalls]
    exact Site.scan_operands hkind hallowed

/-! ### A class with calls -/

namespace Canvas

def source : String :=
  "class Canvas { method void draw(Point p) { do mark(p.x(), 1); return; } }"

/-- The first coordinate of the argument. -/
def coordinate : Expression := .mk (.call (some "p") "x" []) []

/-- Calls another method of the class. -/
def draw : Subroutine where
  kind := .method
  returnType := none
  name := "draw"
  parameters := [⟨.object "Point", "p"⟩]
  locals := []
  body := [.call none "mark" [coordinate, .mk (.integer 1) []], .return none]

def tree : Class := ⟨"Canvas", [], [draw]⟩

theorem tokens_tree : tree.tokens = (TokenStream.ofText source).texts := by decide +kernel

theorem exists_output :
    ∃ output, (Compilation.ofText "Canvas" source false).outcome = .ok output :=
  Compilation.exists_output (by decide +kernel) tokens_tree (by decide)

end Canvas
end Syntax

namespace Compilation

/-- **Counts of calls.** In the code of a source that compiles, every call that is written counts the
written arguments and the receiver, but no further than `maxCount`. -/
theorem counts_calls {name source : String} {traced : Bool} {output : Output}
    (h : (ofText name source traced).outcome = .ok output) :
    ∃ compiled, compile (Line.ofText source) traced = .ok compiled ∧
      output.code = compiled.code.render ∧
      Code.ofText? output.code = some compiled.code.toList ∧
      ∃ c : Syntax.Class,
        (∀ c' : Syntax.Class, c'.tokens = (TokenStream.ofText source).texts ↔ c' = c) ∧
        ∀ k s, c.subroutines[k]? = some s →
          ∃ line block, Syntax.IsBlock compiled.code.toList line block ∧
            (compiled.code.toList.take line).countP Syntax.isFunction = k ∧
            ∀ qualifier subroutine arguments, s.Calls qualifier subroutine arguments →
              Syntax.Counted (c.site s) block qualifier subroutine arguments := by
  obtain ⟨compiled, hcompile, hcode, htext⟩ := exists_compiled h
  obtain ⟨c, hc, hvalid, -, htranslate⟩ := compile_sound_capped hcompile
  refine ⟨compiled, hcompile, hcode, htext, c, hc, fun k s hs => ?_⟩
  have hthis : .identifier "this" ∉ c.tokens := (hc c).2 rfl ▸ identifier_this_notMem
  have hfits : c.Fits := (Syntax.Class.fits_iff_valid hthis).2 hvalid
  obtain ⟨hblock, hcount⟩ := Syntax.Class.isBlock_map_capped hs
  rw [htranslate]
  exact ⟨_, _, hblock, hcount, fun _ _ _ hcalls =>
    hcalls.counted (hfits.subroutines s (List.mem_of_getElem? hs)) k⟩

/-- The receiver is counted beside two arguments. -/
theorem counts_calls_canvas : ∃ output code,
    (ofText "Canvas" Syntax.Canvas.source false).outcome = .ok output ∧
      Code.ofText? output.code = some code ∧
      ∃ line block, Syntax.IsBlock code line block ∧
        [.push .argument 0, .push .argument 1, .call "Point.x" 1, .push .constant 1,
          .call "Canvas.mark" 3] <:+: block := by
  obtain ⟨output, h⟩ := Syntax.Canvas.exists_output
  obtain ⟨compiled, -, -, htext, c, hc, hcounts⟩ := counts_calls h
  obtain rfl := (hc _).1 Syntax.Canvas.tokens_tree
  obtain ⟨line, block, hblock, -, hcounted⟩ := hcounts 0 _ rfl
  have hcalls : Syntax.Canvas.draw.Calls none "mark" [Syntax.Canvas.coordinate, .mk (.integer 1) []] :=
    .inl List.mem_cons_self
  exact ⟨output, _, h, htext, line, block, hblock, (hcounted _ _ _ hcalls).isInfix⟩

end Compilation
end JackLang
