import JackLang.Proofs.Compilation
import JackLang.Proofs.Simulation.Statement
import JackLang.Proofs.Syntax.Blocks

/-! Semantic preservation. From the line behind the `function` line of a subroutine, compiled code
does what the evaluation of the subroutine does, whatever the called subroutines do
(`Compilation.simulates`). -/

namespace JackLang

open Machine

namespace Declared

/-- Only the first declaration of a kind has index 0. -/
theorem name_eq_of_mem_numbered_cons {d : Declared} {ds : List Declared} {v : Variable}
    (h : v ∈ numbered (d :: ds)) (hkind : v.kind = d.kind) (hindex : v.index = 0) :
    v.name = d.name := by
  obtain ⟨i, hi, rfl⟩ := List.mem_mapIdx.1 h
  cases i with
  | zero => rfl
  | succ i =>
    rw [List.take_succ_cons, count, List.countP_cons_of_pos (by simpa using hkind.symm)] at hindex
    exact absurd hindex (Nat.succ_ne_zero _)

end Declared

namespace Syntax

variable {c : Class} {s : Subroutine} {k pc : Nat} {oracle : Oracle} {code : List Instr}
  {σ σ₁ : Store} {this object : Word}

/-! ### Entry -/

theorem Class.receivesThis_site (c : Class) (s : Subroutine) : (c.site s).ReceivesThis := by
  intro hkind name v hfind hargument hindex
  have hdeclared : s.declared c.name = ⟨"this", .object c.name, .argument⟩ :: s.written := by
    have hkind : s.kind = .method := hkind
    simp [Subroutine.declared, Subroutine.receiver, hkind]
  rw [Site.find?, Class.site, Environment.find?, hdeclared, Option.orElse_eq_orElse,
    Option.orElse_eq_or, Option.or_eq_some_iff] at hfind
  rcases hfind with hfind | ⟨-, hfind⟩
  · obtain ⟨hmem, rfl⟩ := Declared.mem_numbered_of_find? hfind
    exact Declared.name_eq_of_mem_numbered_cons hmem hargument hindex
  · obtain ⟨hmem, -⟩ := Declared.mem_numbered_of_find? hfind
    have hdeclared := (Declared.declared_of_mem_numbered hmem).1
    obtain ⟨⟨level, declaration⟩, -, hd⟩ := List.mem_flatMap.1 hdeclared
    obtain ⟨_, -, heq⟩ := List.mem_map.1 hd
    have hkind : level.kind = .argument := (congrArg Declared.kind heq).trans hargument
    cases level <;> cases hkind

theorem Subroutine.agrees_of_enter? (h : s.enter? oracle c this σ = some (object, σ₁)) :
    Context.Agrees ⟨oracle, c.site s, object⟩ σ₁.frame := by
  intro hkind
  have hkind : s.kind = .method := hkind
  rw [enter?, hkind] at h
  cases h
  rfl

/-- The code in front of the body brings the machine to the object of the subroutine. -/
theorem Subroutine.steps_prologue (h : s.enter? oracle c this σ = some (object, σ₁))
    (hat : At code pc (s.prologue c.fieldCount)) (stack : List Word) (that : Word)
    (temp : Nat → Word) : ∃ that' temp', Steps oracle code ⟨pc, stack, σ, this, that, temp⟩
      ⟨pc + (s.prologue c.fieldCount).length, stack, σ₁, object, that', temp'⟩ := by
  rw [enter?] at h
  rw [prologue] at hat ⊢
  cases hkind : s.kind with
  | constructor =>
    rw [hkind] at h hat
    rw [Option.bind_eq_bind, Option.bind_eq_some_iff] at h
    obtain ⟨⟨x, g⟩, halloc, heq⟩ := h
    cases heq
    have hruns : Runs oracle code this [.push .constant c.fieldCount, .call "Memory.alloc" 1]
        stack σ (object :: stack) ⟨σ.frame, g⟩ :=
      (Runs.push_constant c.fieldCount).cons (runs_answer (show [_].length = 1 from rfl) halloc)
    exact hruns.pop_this hat
  | method =>
    rw [hkind] at h hat
    cases h
    exact Runs.pop_this (.push fun _ _ _ => rfl) hat
  | function =>
    rw [hkind] at h
    cases h
    exact ⟨that, temp, .refl⟩

end Syntax

namespace Machine

/-- The machine ends a subroutine: at a `return` with the value on top of the stack, or at the end of
the code where nothing is returned. -/
def Ends (oracle : Oracle) (code : List Instr) (start : State) (stop : Nat)
    (o : Syntax.Completion) (σ : Store) : Prop :=
  ∃ m, Steps oracle code start m ∧ m.store = σ ∧
    match o with
    | .finished => m.pc = stop ∧ m.stack = start.stack
    | .returned x => code[m.pc]? = some .return ∧ m.stack = x :: start.stack

end Machine

namespace Syntax

variable {c : Class} {s : Subroutine} {k : Nat} {oracle : Oracle} {o : Completion} {σ : Store}
  {start : State}

/-! ### Subroutines -/

/-- The code of a subroutine ends as the subroutine does. -/
theorem Class.ends_of_evaluates (hlabels : c.LabelsFit) (hs : c.subroutines[k]? = some s)
    (hthis : .identifier "this" ∉ s.tokens) (hstart : start.pc = (c.blocks k).length + 1)
    (h : s.Evaluates oracle c start.this start.store o σ) :
    Ends oracle c.translate start ((c.blocks k).length + (c.block k s).length) o σ := by
  obtain ⟨object, σ₁, henter, hexec⟩ := h
  have hat := (isBlock_block hs).isAt
  rw [block, at_cons_iff, at_append_iff, ← hstart] at hat
  obtain ⟨that, temp, hprologue⟩ :=
    Subroutine.steps_prologue henter hat.2.1 start.stack start.that start.temp
  have hbody : .identifier "this" ∉ Statement.tokensAll s.body := fun hmem =>
    hthis (by simp [Subroutine.tokens, Subroutine.bodyTokens, inBraces, hmem])
  have hstop : (c.blocks k).length + (c.block k s).length =
      start.pc + (s.prologue c.fieldCount).length + (Statement.translateAll (c.site s) s.name
        (c.numbering k s.name) s.body).length := by
    rw [hstart, block, List.length_cons, List.length_append]
    omega
  have hcompletes : Completes oracle c.translate
      ⟨start.pc + (s.prologue c.fieldCount).length, start.stack, σ₁, object, that, temp⟩
      ((c.blocks k).length + (c.block k s).length) start.stack o σ := by
    rw [hstop]
    exact Statement.ExecAll.completes (nodup_labels_translate hlabels) (c.receivesThis_site s) hexec hbody
      (Subroutine.agrees_of_enter? henter) hat.2.2
  cases o with
  | finished =>
    obtain ⟨that', temp', hsteps⟩ := hcompletes
    exact ⟨_, hprologue.trans hsteps, rfl, rfl, rfl⟩
  | returned x =>
    obtain ⟨pc, hreturn, that', temp', hsteps⟩ := hcompletes
    exact ⟨_, hprologue.trans hsteps, rfl, hreturn, rfl⟩

/-! ### A class of counters -/

namespace Counter

/-- A counter at 2, with an argument of 5. -/
def store : Store where
  frame := ⟨fun i => if i = 1 then 5 else 100, fun _ => 0⟩
  globals := ⟨fun _ => 0, fun _ => 2⟩

theorem exists_evaluates (oracle : Oracle) (this : Word) :
    ∃ σ, next.Evaluates oracle tree this store (.returned 7) σ := by
  let ctx : Context := ⟨oracle, tree.site next, 100⟩
  have hd : (tree.site next).find? "d" = some ⟨"d", .int, .argument, 1⟩ := by decide
  have hn : (tree.site next).find? "n" = some ⟨"n", .int, .field, 0⟩ := by decide
  have hcondition : (Expression.mk (.variable "d") [(.greater, .integer 0)]).eval ctx store.frame
      store.globals = some (-1, store.globals) := by
    simp [Expression.eval, Expression.evalRest, Term.eval, Context.value?, hd, Variable.read,
      operatorValue, store, truth, ctx]
  have hvalue : (Expression.mk (.variable "n") [(.add, .variable "d")]).eval ctx store.frame
      store.globals = some (7, store.globals) := by
    simp [Expression.eval, Expression.evalRest, Term.eval, Context.value?, hd, hn, Variable.read,
      operatorValue, store, ctx]
  have hreturn : (Expression.mk (.variable "n") []).eval ctx (store.setField 100 0 7).frame
      (store.setField 100 0 7).globals = some (7, (store.setField 100 0 7).globals) := by
    simp [Expression.eval, Expression.evalRest, Term.eval, Context.value?, hn, Variable.read,
      store, ctx, Store.setField, Globals.writeHeap]
  exact ⟨_, 100, store, rfl, .cons (.ifThen_true hcondition (.cons (.assign hvalue hn) .nil))
    (.return (.return_some hreturn))⟩

end Counter
end Syntax

/-! ### Compilation -/

namespace Compilation

/-- **Semantic preservation.** In the code of a source that compiles, the block of each subroutine
ends as the evaluation of the subroutine ends, from every state and whatever the calls do. -/
theorem simulates {name source : String} {traced : Bool} {output : Output}
    (h : (ofText name source traced).outcome = .ok output) :
    ∃ compiled, compile (Line.ofText source) traced = .ok compiled ∧
      output.code = compiled.code.render ∧
      Code.ofText? output.code = some compiled.code.toList ∧
      ∃ c : Syntax.Class,
        (∀ c' : Syntax.Class, c'.tokens = (TokenStream.ofText source).texts ↔ c' = c) ∧
        (c.CallsFit → c.LabelsFit → ∀ k s, c.subroutines[k]? = some s →
          ∃ line block, Syntax.IsBlock compiled.code.toList line block ∧
            (compiled.code.toList.take line).countP Syntax.isFunction = k ∧
            ∀ oracle start o σ, start.pc = line + 1 →
              s.Evaluates oracle c start.this start.store o σ →
                Ends oracle compiled.code.toList start (line + block.length) o σ) := by
  obtain ⟨compiled, hcompile, hcode, htext⟩ := exists_compiled h
  obtain ⟨c, hc, -, -, htranslate⟩ := compile_sound hcompile
  refine ⟨compiled, hcompile, hcode, htext, c, hc, fun hfit hlabels k s hs => ?_⟩
  rw [htranslate hfit]
  have hthis : .identifier "this" ∉ s.tokens := fun hmem =>
    identifier_this_notMem ((hc c).2 rfl ▸ Syntax.Class.tokens_subset_of_mem_subroutines
      (List.mem_of_getElem? hs) hmem)
  have hk : k ≤ c.subroutines.length := Nat.le_of_lt (List.getElem?_eq_some_iff.1 hs).1
  refine ⟨_, _, Syntax.Class.isBlock_block hs, ?_, fun oracle start o σ hstart hevaluates => ?_⟩
  · rw [Syntax.Class.take_translate]
    exact Syntax.Class.countP_isFunction_blocks hk
  · exact Syntax.Class.ends_of_evaluates hlabels hs hthis hstart hevaluates

/-- A counter at 2 that goes on by 5 answers 7. -/
theorem simulates_counter : ∃ output code,
    (ofText "Counter" Syntax.Counter.source false).outcome = .ok output ∧
      Code.ofText? output.code = some code ∧
      ∃ line block, Syntax.IsBlock code line block ∧
        ∀ oracle start, start.pc = line + 1 → start.store = Syntax.Counter.store →
          ∃ m, Steps oracle code start m ∧ code[m.pc]? = some .return ∧
            m.stack = 7 :: start.stack := by
  obtain ⟨output, h⟩ := Syntax.Counter.exists_output
  obtain ⟨compiled, -, -, htext, c, hc, hsimulates⟩ := simulates h
  obtain rfl := (hc _).1 Syntax.Counter.tokens_tree
  obtain ⟨line, block, hblock, -, hends⟩ := hsimulates (by decide) (by decide) 0 _ rfl
  refine ⟨output, _, h, htext, line, block, hblock, fun oracle start hstart hstore => ?_⟩
  obtain ⟨σ, hevaluates⟩ := Syntax.Counter.exists_evaluates oracle start.this
  obtain ⟨m, hsteps, -, hreturn, hstack⟩ :=
    hends oracle start _ σ hstart (hstore ▸ hevaluates)
  exact ⟨m, hsteps, hreturn, hstack⟩

end Compilation
end JackLang
