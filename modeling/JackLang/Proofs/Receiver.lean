import JackLang.Proofs.Simulation.Class

/-! The current object of a subroutine. The pointer to it is set once, in front of the body, and no
body sets the argument that a method has it in (`Class.spares_of_mem_body`). A machine behind that
point keeps the object (`Inside.steps`), so wherever a method has come to, its first argument is the
object whose fields it reads and writes (`Compilation.receiver_kept`). This is so for a block by
itself, and in the whole listing where no label is given out twice. -/

namespace JackLang

open Machine

/-! ### Steps -/

namespace Machine

variable {oracle : Oracle} {code : List Instr} {m m' : State} {instr : Instr}

theorem frame_of_save? {segment : Segment} {i : Nat} {value : Word}
    (h : m.save? value segment i = some m') :
    ((segment, i) ≠ (.pointer, 0) → m'.this = m.this) ∧
      ∀ j, (segment, i) ≠ (.argument, j) →
        m'.store.frame.arguments j = m.store.frame.arguments j := by
  cases segment with
  | constant => cases h
  | argument =>
    cases h
    refine ⟨fun _ => rfl, fun j hne => Function.update_of_ne ?_ _ _⟩
    rintro rfl
    exact hne rfl
  | pointer =>
    rcases i with _ | _ | i <;> cases h
    · exact ⟨fun hne => absurd rfl hne, fun _ _ => rfl⟩
    · exact ⟨fun _ => rfl, fun _ _ => rfl⟩
  | _ =>
    cases h
    exact ⟨fun _ => rfl, fun _ _ => rfl⟩

/-- An instruction leaves what it does not set as it is. -/
theorem frame_of_step (hinstr : code[m.pc]? = some instr) (h : step oracle code m = some m') :
    (instr ≠ .pop .pointer 0 → m'.this = m.this) ∧
      ∀ i, instr ≠ .pop .argument i →
        m'.store.frame.arguments i = m.store.frame.arguments i := by
  cases performs_of_step hinstr h with
  | pop hstack hsave =>
    obtain ⟨hthis, harguments⟩ := frame_of_save? hsave
    refine ⟨fun hne => hthis fun heq => hne ?_, fun j hne => harguments j fun heq => hne ?_⟩
    all_goals
      obtain ⟨rfl, rfl⟩ := Prod.mk.inj heq
      rfl
  | _ => exact ⟨fun _ => rfl, fun _ _ => rfl⟩

end Machine

namespace Syntax

/-! ### Code that leaves the current object alone -/

/-- In a subroutine of a kind an instruction sets neither the pointer to the current object nor the
argument that holds it, and uses no such pointer where there is no object. -/
def Spares (kind : SubroutineKind) : Instr → Prop
  | .pop segment i =>
    (segment, i) ≠ (.pointer, 0) ∧ (kind = .method → (segment, i) ≠ (.argument, 0))
  | .push segment i => kind = .function → (segment, i) ≠ (.pointer, 0)
  | .operate _ | .call _ _ | .label _ | .goto _ | .ifGoto _ | .function _ _ | .return => True

variable {site : Site} {kind : SubroutineKind} {instr : Instr} {name : String}

namespace Spares

theorem ne_pop_pointer (h : Spares kind instr) : instr ≠ .pop .pointer 0 := by
  rintro rfl
  exact h.1 rfl

theorem ne_pop_argument (h : Spares kind instr) (hkind : kind = .method) :
    instr ≠ .pop .argument 0 := by
  rintro rfl
  exact h.2 hkind rfl

theorem ne_push_pointer (h : Spares kind instr) (hkind : kind = .function) :
    instr ≠ .push .pointer 0 := by
  rintro rfl
  exact h hkind rfl

theorem capped (h : Spares kind instr) : Spares kind (capped instr) := by
  cases instr <;> exact h

end Spares

theorem kind_eq_argument {kind : VarKind} (h : kind.segment = .argument) : kind = .argument := by
  cases kind with
  | argument => rfl
  | _ => cases h

theorem cell_ne_pointer (v : Variable) : (cell v).1 ≠ .pointer := by
  rw [cell_eq]
  change v.kind.segment ≠ .pointer
  cases v.kind <;> decide

theorem spares_operatorInstr (op : Operator) : Spares kind (operatorInstr op) := by
  cases op <;> trivial

theorem spares_of_mem_pushVariable (h : instr ∈ site.pushVariable name) : Spares kind instr := by
  obtain ⟨v, -, rfl⟩ := List.mem_map.1 h
  intro _ heq
  exact cell_ne_pointer v (Prod.mk.inj heq).1

/-- An assignment to a name other than `this` does not set the argument of that name. -/
theorem spares_of_mem_popVariable (hsite : site.ReceivesThis) (hname : name ≠ "this")
    (h : instr ∈ site.popVariable name) : Spares site.kind instr := by
  obtain ⟨v, hv, rfl⟩ := List.mem_map.1 h
  refine ⟨fun heq => cell_ne_pointer v (Prod.mk.inj heq).1, fun hkind heq => hname ?_⟩
  have hcell : (v.kind.segment, v.index) = (Segment.argument, 0) := cell_eq v ▸ heq
  obtain ⟨hsegment, hindex⟩ := Prod.mk.inj hcell
  exact hsite hkind name v (Option.mem_toList.1 hv) (kind_eq_argument hsegment) hindex

theorem spares_of_mem_pushThis (h : instr ∈ site.pushThis) : Spares site.kind instr := by
  unfold Site.pushThis at h
  split at h
  · cases List.mem_singleton.1 h
    simp [Spares]
  · next hkind =>
    cases List.mem_singleton.1 h
    simp [Spares, hkind]
  · cases h

theorem spares_of_mem_pushObject {qualifier : Option String}
    (h : instr ∈ site.pushObject qualifier) : Spares site.kind instr := by
  cases qualifier with
  | none => exact spares_of_mem_pushThis h
  | some qualifier => exact spares_of_mem_pushVariable h

theorem spares_callInstr (subroutine : String) (arguments : Nat) (qualifier : Option String) :
    Spares kind (site.callInstr subroutine arguments qualifier) := by
  unfold Site.callInstr
  split
  · trivial
  · split <;> trivial

theorem Term.spares_of_mem_own {u : Term} (h : instr ∈ u.own site) : Spares site.kind instr := by
  cases u with
  | integer value =>
    cases List.mem_singleton.1 h
    simp [Spares]
  | string text =>
    simp only [own, stringCode, List.mem_cons, List.mem_flatMap, List.not_mem_nil, or_false] at h
    rcases h with rfl | rfl | ⟨c, -, rfl | rfl⟩ <;> simp [Spares]
  | constant keyword =>
    cases keyword <;> simp only [own, constantCode, List.mem_cons, List.not_mem_nil, or_false] at h
    · rcases h with rfl | rfl <;> simp [Spares]
    all_goals
      subst h
      simp [Spares]
  | this => exact spares_of_mem_pushThis h
  | «variable» name => exact spares_of_mem_pushVariable h
  | element array index =>
    simp only [own, List.mem_append, List.mem_cons, List.not_mem_nil, or_false] at h
    rcases h with h | rfl | rfl | rfl
    · exact spares_of_mem_pushVariable h
    all_goals simp [Spares]
  | call qualifier subroutine arguments =>
    rcases List.mem_append.1 h with h | h
    · exact spares_of_mem_pushObject h
    · cases List.mem_singleton.1 h
      exact spares_callInstr ..
  | group inner => cases h
  | unary op operand =>
    cases List.mem_singleton.1 h
    cases op <;> trivial

theorem Statement.spares_of_mem_own {subroutine : String} {n : Numbering} {u : Statement}
    (hsite : site.ReceivesThis) (hthis : .identifier "this" ∉ u.tokens)
    (h : instr ∈ u.own site subroutine n) : Spares site.kind instr := by
  cases u with
  | assign target value =>
    refine spares_of_mem_popVariable hsite ?_ h
    rintro rfl
    exact hthis (by simp [Statement.tokens])
  | assignElement array index value =>
    simp only [own, List.mem_append, List.mem_cons, List.not_mem_nil, or_false] at h
    rcases h with h | rfl | rfl | rfl | rfl | rfl
    · exact spares_of_mem_pushVariable h
    all_goals simp [Spares]
  | ifThen condition body | ifElse condition body alternative | «while» condition body =>
    simp only [own, List.mem_cons, List.not_mem_nil, or_false] at h
    rcases h with rfl | rfl | rfl | rfl | rfl <;> trivial
  | call qualifier subroutine' arguments =>
    rcases List.mem_append.1 h with h | h
    · exact Term.spares_of_mem_own h
    · cases List.mem_singleton.1 h
      simp [Spares]
  | «return» value =>
    cases value <;> simp only [own, List.mem_cons, List.not_mem_nil, or_false] at h
    · rcases h with rfl | rfl <;> simp [Spares]
    · subst h
      trivial

/-- The code of a subroutine with `k` before it, as it is written, behind its prologue. -/
def Class.body (c : Class) (k : Nat) (s : Subroutine) : List Instr :=
  (Statement.translateAll (c.site s) s.name (c.numbering k s.name) s.body).map capped

/-- The code of a body leaves the current object alone. -/
theorem Class.spares_of_mem_body {c : Class} {s : Subroutine} {k : Nat}
    (hthis : .identifier "this" ∉ s.tokens) (h : instr ∈ c.body k s) : Spares s.kind instr := by
  obtain ⟨instr, hmem, rfl⟩ := List.mem_map.1 h
  refine Spares.capped ?_
  rcases Subroutine.stems_of_mem_translateAll hmem with ⟨u, hu, n, h⟩ | ⟨op, rfl⟩ | ⟨u, -, h⟩
  · refine Statement.spares_of_mem_own (c.receivesThis_site s) (fun hmem => hthis ?_) h
    exact Subroutine.tokens_subset_of_mem_statements hu hmem
  · exact spares_operatorInstr op
  · exact Term.spares_of_mem_own h

/-! ### Runs in a block -/

/-- The machine is in a block, at some line of it or behind that. -/
def Inside (block : List Instr) (line first : Nat) (m : State) : Prop :=
  line + first ≤ m.pc ∧ m.pc ≤ line + block.length

/-- A block of a front and a body, whose jumps come to lines of the body. -/
structure Delimits (code front body : List Instr) (line : Nat) : Prop where
  isBlock : IsBlock code line (front ++ body)
  jump : ∀ name ∈ jumps body, ∀ pc, target? code name = some pc →
    line + front.length ≤ pc ∧ pc ≤ line + (front ++ body).length

section runs

variable {oracle : Oracle} {code front body : List Instr} {line : Nat} {m m' : State}

/-- The body of a block sets the labels that it jumps to, and nothing else in the code does. -/
theorem Delimits.of_nodup (hblock : IsBlock code line (front ++ body))
    (hcode : (labels code).Nodup) (hjumps : jumps body ⊆ labels body) :
    Delimits code front body line where
  isBlock := hblock
  jump name hname pc htarget := by
    obtain ⟨j, hj⟩ := exists_of_mem_labels (hjumps hname)
    have hlabel : (front ++ body)[front.length + j]? = some (.label name) := by
      rw [List.getElem?_append_right (Nat.le_add_right _ _), Nat.add_sub_cancel_left, hj]
    have heq := target?_eq_some hcode (getElem?_of_at hblock.isAt hlabel)
    obtain rfl : pc = line + (front.length + j) := Option.some.inj (htarget.symm.trans heq)
    have hlt := (List.getElem?_eq_some_iff.1 hj).1
    rw [List.length_append]
    omega

/-- A block by itself, with no labels in its front. -/
theorem Delimits.alone (hblock : IsBlock code line (front ++ body)) (hfront : labels front = []) :
    Delimits (front ++ body) front body 0 where
  isBlock := hblock.alone
  jump name _ pc htarget := by
    have hlabel := getElem?_of_target? htarget
    have hlt := (List.getElem?_eq_some_iff.1 hlabel).1
    refine ⟨?_, by omega⟩
    by_contra hfirst
    rw [List.getElem?_append_left (by omega)] at hlabel
    have hmem : name ∈ labels front :=
      List.mem_filterMap.2 ⟨_, List.mem_of_getElem? hlabel, rfl⟩
    rw [hfront] at hmem
    cases hmem

/-- Behind the front of a block the machine is at an instruction of the body, and stays there. -/
theorem Inside.step (hblock : Delimits code front body line)
    (hm : Inside (front ++ body) line front.length m) (hstep : step oracle code m = some m') :
    (∃ instr ∈ body, code[m.pc]? = some instr) ∧ Inside (front ++ body) line front.length m' := by
  obtain ⟨hfirst, hlast⟩ := hm
  obtain ⟨i, hi⟩ := Nat.exists_eq_add_of_le hfirst
  rw [Nat.add_assoc] at hi
  obtain ⟨instr, hinstr, hline⟩ := exists_getElem?_of_step hblock.isBlock (by omega) hi hstep
  rw [List.getElem?_append_right (Nat.le_add_right _ _), Nat.add_sub_cancel_left] at hinstr
  have hlt := (List.getElem?_eq_some_iff.1 hinstr).1
  have hmem := List.mem_of_getElem? hinstr
  refine ⟨⟨instr, hmem, hline⟩, ?_⟩
  obtain ⟨-, -, hnext | ⟨name, hjump, htarget⟩⟩ := length_stack_of_step hline hstep
  · rw [Inside, List.length_append]
    omega
  · exact hblock.jump name (List.mem_filterMap.2 ⟨instr, hmem, hjump⟩) _ htarget

/-- A run behind the front of a block stays there and keeps the current object, and in a method the
argument that is this object. -/
theorem Inside.steps (hblock : Delimits code front body line)
    (hbody : ∀ instr ∈ body, Spares kind instr) (hm : Inside (front ++ body) line front.length m) (hsteps : Steps oracle code m m') :
    Inside (front ++ body) line front.length m' ∧ m'.this = m.this ∧
      (kind = .method → m'.store.frame.arguments 0 = m.store.frame.arguments 0) := by
  induction hsteps with
  | refl => exact ⟨hm, rfl, fun _ => rfl⟩
  | tail _ hstep ih =>
    obtain ⟨hinside, hthis, hargument⟩ := ih
    obtain ⟨⟨instr, hmem, hline⟩, hinside'⟩ := hinside.step hblock hstep
    obtain ⟨hthis', hargument'⟩ := frame_of_step hline hstep
    have hspares := hbody instr hmem
    refine ⟨hinside', (hthis' hspares.ne_pop_pointer).trans hthis, fun hkind => ?_⟩
    exact (hargument' 0 (hspares.ne_pop_argument hkind)).trans (hargument hkind)

/-- A method that has come behind its front has its first argument for the current object. -/
theorem this_of_steps {name : String} {locals : Nat} {start : State}
    (hblock : Delimits code [.function name locals, .push .argument 0, .pop .pointer 0] body line)
    (hbody : ∀ instr ∈ body, Spares .method instr) (hstart : start.pc = line + 1)
    (hsteps : Steps oracle code start m) (hm : line + 3 ≤ m.pc) :
    m.this = start.store.frame.arguments 0 ∧ m.load? .argument 0 = some m.this := by
  have hpush : code[start.pc]? = some (.push .argument 0) :=
    hstart ▸ getElem?_of_at hblock.isBlock.isAt (i := 1) rfl
  have hpop : code[start.pc + 1]? = some (.pop .pointer 0) :=
    hstart ▸ getElem?_of_at hblock.isBlock.isAt (i := 2) rfl
  rcases hsteps.cases_head with rfl | ⟨m₁, hstep₁, hsteps⟩
  · omega
  cases performs_of_step hpush hstep₁ with
  | push hload =>
    cases hload
    rcases hsteps.cases_head with rfl | ⟨m₂, hstep₂, hsteps⟩
    · simp only at hm
      omega
    cases performs_of_step hpop hstep₂ with
    | pop hstack hsave =>
      cases hstack
      cases hsave
      have hinside : Inside ([.function name locals, .push .argument 0, .pop .pointer 0] ++ body)
          line 3 { start with
            pc := start.pc + 1 + 1, this := start.store.frame.arguments 0 } := by
        simp [Inside]
        omega
      obtain ⟨-, hthis, hargument⟩ := hinside.steps hblock hbody hsteps
      refine ⟨hthis, ?_⟩
      rw [State.load?, hthis, hargument rfl]

end runs

/-! ### Subroutines -/

/-- A block of a listing, which belongs to a subroutine of a kind, keeps the current object. -/
structure KeepsObject (kind : SubroutineKind) (prologue code : List Instr) (line : Nat)
    (block : List Instr) : Prop where
  front : ∃ name locals body, block = .function name locals :: (prologue ++ body)
  /-- The argument that is the object of a method is not set. -/
  method : kind = .method → .pop .argument 0 ∉ block
  /-- The pointer is set once, at the end of the prologue. -/
  once : kind ≠ .function → ∀ i, block[i]? = some (.pop .pointer 0) ↔ i = prologue.length
  /-- There is no pointer where there is no object. -/
  function : kind = .function → .pop .pointer 0 ∉ block ∧ .push .pointer 0 ∉ block
  /-- A run behind the prologue stays there and keeps the object. -/
  run : ∀ oracle m m', Inside block line (prologue.length + 1) m → Steps oracle code m m' →
    Inside block line (prologue.length + 1) m' ∧ m'.this = m.this
  /-- From there on the object of a method is the argument that it is called with. -/
  receiver : kind = .method → ∀ oracle start m, start.pc = line + 1 → Steps oracle code start m →
    line + 3 ≤ m.pc →
      m.this = start.store.frame.arguments 0 ∧ m.load? .argument 0 = some m.this

section subroutines

variable {s : Subroutine} {locals fields : Nat} {body : List Instr}

theorem Subroutine.pop_argument_notMem (hkind : s.kind = .method)
    (hbody : ∀ instr ∈ body, Spares s.kind instr) :
    .pop .argument 0 ∉ .function name locals :: (s.prologue fields ++ body) := by
  intro h
  have hmem : .pop .argument 0 ∈ body := by simpa [prologue, hkind] using h
  exact (hbody _ hmem).ne_pop_argument hkind rfl

theorem Subroutine.getElem?_eq_pop_pointer_iff (hkind : s.kind ≠ .function)
    (hbody : ∀ instr ∈ body, Spares s.kind instr) (i : Nat) :
    (.function name locals :: (s.prologue fields ++ body))[i]? = some (.pop .pointer 0) ↔
      i = (s.prologue fields).length := by
  have hne (j : Nat) : body[j]? ≠ some (.pop .pointer 0) := fun h =>
    (hbody _ (List.mem_of_getElem? h)).ne_pop_pointer rfl
  unfold prologue
  cases h : s.kind with
  | constructor => rcases i with _ | _ | _ | _ | i <;> simp [hne]
  | method => rcases i with _ | _ | _ | i <;> simp [hne]
  | function => exact absurd h hkind

theorem Subroutine.pointer_notMem (hkind : s.kind = .function)
    (hbody : ∀ instr ∈ body, Spares s.kind instr) :
    .pop .pointer 0 ∉ .function name locals :: (s.prologue fields ++ body) ∧
      .push .pointer 0 ∉ .function name locals :: (s.prologue fields ++ body) := by
  have hpop : .pop .pointer 0 ∉ body := fun h => (hbody _ h).ne_pop_pointer rfl
  have hpush : .push .pointer 0 ∉ body := fun h => (hbody _ h).ne_push_pointer hkind rfl
  simp [prologue, hkind, hpop, hpush]

end subroutines

namespace Class

variable {c : Class} {s : Subroutine} {k : Nat}

theorem map_capped_block_eq (c : Class) (k : Nat) (s : Subroutine) :
    (c.block k s).map capped =
      .function s!"{c.name}.{s.name}" s.localCount :: (s.prologue c.fieldCount ++ c.body k s) := by
  rw [block, List.map_cons, List.map_append, Subroutine.map_capped_prologue]
  rfl

theorem jumps_subset_labels_body (c : Class) (k : Nat) (s : Subroutine) :
    jumps (c.body k s) ⊆ labels (c.body k s) := by
  have hjumps : jumps (c.body k s) =
      jumps (Statement.translateAll (c.site s) s.name (c.numbering k s.name) s.body) := by
    rw [body, jumps, jumps, List.filterMap_map]
    exact List.filterMap_congr fun instr _ => jump?_capped instr
  rw [hjumps, body, labels_map_capped]
  exact Statement.jumps_subset_labelsAll ..

theorem labels_front (name : String) (locals fields : Nat) (s : Subroutine) :
    labels (.function name locals :: s.prologue fields) = [] :=
  s.labels_prologue fields

/-- Wherever its jumps stay in its body, the block of a subroutine keeps the current object. -/
theorem keepsObject_of_delimits {code : List Instr} {line : Nat}
    (hthis : .identifier "this" ∉ s.tokens)
    (hblock : Delimits code
      (.function s!"{c.name}.{s.name}" s.localCount :: s.prologue c.fieldCount) (c.body k s) line) :
    KeepsObject s.kind (s.prologue c.fieldCount) code line ((c.block k s).map capped) := by
  have hbody : ∀ instr ∈ c.body k s, Spares s.kind instr := fun _ => spares_of_mem_body hthis
  rw [map_capped_block_eq]
  refine ⟨⟨_, _, _, rfl⟩, fun hkind => Subroutine.pop_argument_notMem hkind hbody,
    fun hkind => Subroutine.getElem?_eq_pop_pointer_iff hkind hbody,
    fun hkind => Subroutine.pointer_notMem hkind hbody, ?_, ?_⟩
  · intro oracle m m' hm hsteps
    obtain ⟨hinside, hobject, -⟩ := Inside.steps hblock hbody hm hsteps
    exact ⟨hinside, hobject⟩
  · intro hkind oracle start m hstart hsteps hm
    have hprologue : s.prologue c.fieldCount = [.push .argument 0, .pop .pointer 0] := by
      rw [Subroutine.prologue, hkind]
    rw [hprologue] at hblock
    exact this_of_steps hblock (hkind ▸ hbody) hstart hsteps hm

/-- A block of a listing keeps the current object of a subroutine: by itself, and in the listing
where no label is given out twice. -/
structure Keeps (c : Class) (s : Subroutine) (code : List Instr) (line : Nat)
    (block : List Instr) : Prop where
  alone : KeepsObject s.kind (s.prologue c.fieldCount) block 0 block
  within : c.LabelsFit → KeepsObject s.kind (s.prologue c.fieldCount) code line block

theorem keeps_block (hs : c.subroutines[k]? = some s) (hthis : .identifier "this" ∉ s.tokens) :
    c.Keeps s (c.translate.map capped) (c.blocks k).length ((c.block k s).map capped) := by
  have hblock := (isBlock_map_capped hs).1
  rw [map_capped_block_eq, ← List.cons_append] at hblock
  have halone := keepsObject_of_delimits hthis (Delimits.alone hblock (labels_front ..))
  refine ⟨?_, fun hfit => ?_⟩
  · rwa [List.cons_append, ← map_capped_block_eq] at halone
  · have hcode : (labels (c.translate.map capped)).Nodup := by
      rw [labels_map_capped]
      exact nodup_labels_translate hfit
    exact keepsObject_of_delimits hthis
      (.of_nodup hblock hcode (c.jumps_subset_labels_body k s))

end Class

end Syntax

namespace Compilation

/-- **The receiver is kept.** The code of a source that compiles has a block for each subroutine and
no others, and the block of every subroutine keeps the current object. -/
theorem receiver_kept {name source : String} {traced : Bool} {output : Output}
    (h : (ofText name source traced).outcome = .ok output) :
    ∃ compiled, compile (Line.ofText source) traced = .ok compiled ∧
      output.code = compiled.code.render ∧
      Code.ofText? output.code = some compiled.code.toList ∧
      ∃ c : Syntax.Class,
        (∀ c' : Syntax.Class, c'.tokens = (TokenStream.ofText source).texts ↔ c' = c) ∧
        (∀ k s, c.subroutines[k]? = some s →
          ∃ line block, Syntax.IsBlock compiled.code.toList line block ∧
            (compiled.code.toList.take line).countP Syntax.isFunction = k ∧
            c.Keeps s compiled.code.toList line block) ∧
        ∀ line block, Syntax.IsBlock compiled.code.toList line block →
          ∃ s,
            c.subroutines[(compiled.code.toList.take line).countP Syntax.isFunction]? = some s ∧
            c.Keeps s compiled.code.toList line block := by
  obtain ⟨compiled, hcompile, hcode, htext⟩ := exists_compiled h
  obtain ⟨c, hc, -, -, htranslate⟩ := compile_sound_capped hcompile
  have hthis {k : Nat} {s : Syntax.Subroutine} (hs : c.subroutines[k]? = some s) :
      .identifier "this" ∉ s.tokens := fun hmem =>
    identifier_this_notMem ((hc c).2 rfl ▸
      Syntax.Class.tokens_subset_of_mem_subroutines (List.mem_of_getElem? hs) hmem)
  refine ⟨compiled, hcompile, hcode, htext, c, hc, ?_, ?_⟩ <;> rw [htranslate]
  · intro k s hs
    obtain ⟨hblock, hcount⟩ := Syntax.Class.isBlock_map_capped hs
    exact ⟨_, _, hblock, hcount, Syntax.Class.keeps_block hs (hthis hs)⟩
  · intro line block hblock
    obtain ⟨k, s, hs, rfl, rfl, hk⟩ := Syntax.Class.exists_of_isBlock_map_capped hblock
    exact ⟨s, by rw [hk, hs], Syntax.Class.keeps_block hs (hthis hs)⟩

/-- A method sets the pointer to its object on its third line, and from there on the object is its
first argument. -/
theorem receiver_kept_counter : ∃ output code line block,
    (ofText "Counter" Syntax.Counter.source false).outcome = .ok output ∧
      Code.ofText? output.code = some code ∧ Syntax.IsBlock code line block ∧
      (∀ i, block[i]? = some (.pop .pointer 0) ↔ i = 2) ∧
      ∀ oracle start m, start.pc = line + 1 → Steps oracle code start m → line + 3 ≤ m.pc →
        m.load? .argument 0 = some m.this := by
  obtain ⟨output, h⟩ := Syntax.Counter.exists_output
  obtain ⟨compiled, -, -, htext, c, hc, hblocks, -⟩ := receiver_kept h
  obtain rfl := (hc _).1 Syntax.Counter.tokens_tree
  obtain ⟨line, block, hblock, -, hkeeps⟩ := hblocks 0 _ rfl
  refine ⟨output, _, line, block, h, htext, hblock, hkeeps.alone.once (by decide), ?_⟩
  intro oracle start m hstart hsteps hm
  exact ((hkeeps.within (by decide)).receiver rfl oracle start m hstart hsteps hm).2

end Compilation
end JackLang
