import JackLang.Proofs.Acceptance
import JackLang.Proofs.Syntax.Origin

/-! The operands of translated code. A subroutine has a cell for each variable that it or its class
declares (`Class.extent`), and every instruction of its block uses one of these, a value that a
constant may have, or a function named by two words (`Class.allows_of_mem_block`). -/

namespace JackLang

/-! ### Function names -/

/-- A class and a subroutine, with a dot between them. -/
def IsFunctionName (name : String) : Prop :=
  ∃ className subroutine, IsWord className ∧ IsWord subroutine ∧
    name = s!"{className}.{subroutine}"

namespace Syntax

/-! ### Extents -/

/-- How many cells there are of each segment that holds variables. -/
structure Extent where
  locals : Nat
  arguments : Nat
  statics : Nat
  fields : Nat

namespace Extent

/-- How many variables there are of a kind. -/
def count (e : Extent) : VarKind → Nat
  | .static => e.statics
  | .field => e.fields
  | .argument => e.arguments
  | .local => e.locals

/-- The cells that a subroutine may use: those of the variables, both pointers, and one cell of the
segments that hold nothing for long. The cells of `constant` are the values of constants. -/
def Covers (e : Extent) : Segment → Nat → Prop
  | .constant, i => i ≤ maxConstant
  | .argument, i => i < e.arguments
  | .local, i => i < e.locals
  | .static, i => i < e.statics
  | .this, i => i < e.fields
  | .pointer, i => i ≤ 1
  | .that, i | .temp, i => i = 0

/-- An instruction stays inside the cells of a subroutine, and names a function as one is named. -/
def Allows (e : Extent) : Instr → Prop
  | .push segment i => e.Covers segment i
  | .pop segment i => segment ≠ .constant ∧ e.Covers segment i
  | .call name _ | .function name _ => IsFunctionName name
  | .operate _ | .label _ | .goto _ | .ifGoto _ | .return => True

theorem covers_cell {e : Extent} {v : Variable} (h : v.index < e.count v.kind) :
    e.Covers (cell v).1 (cell v).2 := by
  rw [cell_eq]
  cases hkind : v.kind <;> rw [hkind] at h <;> exact h

end Extent

/-- How many arguments a subroutine has; a method has its object for one. -/
def Subroutine.argumentCount (s : Subroutine) : Nat :=
  s.parameters.length + if s.kind = .method then 1 else 0

/-- How many names a class declares as statics. -/
def Class.staticCount (c : Class) : Nat :=
  ((c.declarations.filter (·.1 = .static)).flatMap (·.2.names)).length

/-- The cells of a subroutine of a class, with a number of locals. -/
def Class.extent (c : Class) (s : Subroutine) (locals : Nat) : Extent :=
  ⟨locals, s.argumentCount, c.staticCount, c.fieldCount⟩

/-! ### Declarations and their number -/

theorem Declaration.count_declaredAll (kind : VarKind) (ds : List (VarKind × Declaration)) :
    Declared.count kind (declaredAll ds) =
      ((ds.filter (·.1 = kind)).flatMap (·.2.names)).length := by
  induction ds with
  | nil => rfl
  | cons d ds ih =>
    obtain ⟨kind', d⟩ := d
    have hd : Declared.count kind (d.declared kind') =
        if kind' = kind then d.names.length else 0 := by
      rw [declared]
      exact Declared.count_map (by intro; rfl) d.names
    have hcons : declaredAll ((kind', d) :: ds) = d.declared kind' ++ declaredAll ds := rfl
    rw [hcons, Declared.count_append, hd, ih]
    by_cases h : kind' = kind <;> simp [h]

/-- The declarations of a subroutine are its arguments and its locals. -/
theorem Subroutine.count_declared (className : String) (s : Subroutine) (kind : VarKind) :
    Declared.count kind (s.declared className) =
      match kind with
      | .argument => s.argumentCount
      | .local => s.localCount
      | .static | .field => 0 := by
  have hreceiver : Declared.count kind (receiver className s.kind) =
      if s.kind = .method ∧ kind = .argument then 1 else 0 := by
    cases s.kind <;> cases kind <;> rfl
  have hparameters : Declared.count kind s.declaredParameters =
      if .argument = kind then s.parameters.length else 0 := by
    rw [declaredParameters]
    exact Declared.count_map (by intro; rfl) s.parameters
  have hlocals : Declared.count kind s.declaredLocals =
      if .local = kind then s.localCount else 0 := by
    have h := Declaration.count_declaredAll kind (s.locals.map fun d => (.local, d))
    rw [Declaration.declaredAll, List.flatMap_map] at h
    rw [declaredLocals, h, localCount, List.filter_map, List.flatMap_map]
    by_cases hkind : .local = kind <;> simp [Function.comp_def, hkind]
  rw [declared, written, Declared.count_append, Declared.count_append, hreceiver, hparameters,
    hlocals]
  cases kind <;> simp [argumentCount, Nat.add_comm]

/-- The declarations of a class are its statics and its fields. -/
theorem Class.count_declared (c : Class) (kind : VarKind) : Declared.count kind c.declared =
    match kind with
    | .static => c.staticCount
    | .field => c.fieldCount
    | .argument | .local => 0 := by
  have h := Declaration.count_declaredAll kind (c.declarations.map fun d => (d.1.kind, d.2))
  have hlevel (level : ClassLevel) : (level.kind = .static ↔ level = .static) ∧
      (level.kind = .field ↔ level = .field) ∧ level.kind ≠ .argument ∧ level.kind ≠ .local := by
    cases level <;> decide
  rw [Declaration.declaredAll, List.flatMap_map, List.filter_map, List.flatMap_map] at h
  rw [declared, h]
  cases kind <;> simp [Function.comp_def, staticCount, fieldCount, hlevel]

theorem Subroutine.count_declared_le_extent {c : Class} (s : Subroutine) (kind : VarKind) :
    Declared.count kind (s.declared c.name) ≤ (c.extent s s.localCount).count kind := by
  rw [count_declared]
  cases kind <;> simp [Class.extent, Extent.count]

theorem Class.count_declared_le_extent (c : Class) {s : Subroutine} {locals : Nat}
    (kind : VarKind) : Declared.count kind c.declared ≤ (c.extent s locals).count kind := by
  rw [count_declared]
  cases kind <;> simp [extent, Extent.count]

/-! ### Words -/

theorem isFunctionName_library : ∀ name ∈
    ["Math.multiply", "Math.divide", "String.new", "String.appendChar", "Memory.alloc"],
    IsFunctionName name := by
  simp only [List.forall_mem_cons]
  exact ⟨⟨"Math", "multiply", by decide⟩, ⟨"Math", "divide", by decide⟩,
    ⟨"String", "new", by decide⟩, ⟨"String", "appendChar", by decide⟩,
    ⟨"Memory", "alloc", by decide⟩, List.forall_mem_nil _⟩

theorem isWord_text {type : VarType} (h : ∀ name, type.token = .identifier name → IsWord name) :
    IsWord type.text := by
  cases type with
  | object className => exact h className rfl
  | _ => decide

/-- A declaration writes the type of its variables. -/
theorem Declaration.type_mem_tokens {kind : VarKind} {declaration : Declaration} {d : Declared}
    (hd : d ∈ declaration.declared kind) : d.type.token ∈ declaration.tokens := by
  obtain ⟨name, -, rfl⟩ := List.mem_map.1 hd
  exact List.mem_cons_self

theorem Subroutine.type_of_mem_receiver {className : String} {kind : SubroutineKind} {d : Declared}
    (h : d ∈ receiver className kind) : d.type = .object className := by
  cases kind with
  | constructor | function => cases h
  | method => rw [List.mem_singleton.1 h]

theorem Subroutine.type_mem_tokens {s : Subroutine} {d : Declared} (hd : d ∈ s.written) :
    d.type.token ∈ s.tokens := by
  rw [tokens, bodyTokens, inParens, inBraces]
  simp only [List.mem_cons, List.mem_append]
  rcases List.mem_append.1 hd with hd | hd
  · obtain ⟨p, hp, rfl⟩ := List.mem_map.1 hd
    have : p.type.token ∈ withCommas (s.parameters.map Parameter.tokens) :=
      mem_withCommas (List.mem_map_of_mem hp) (by simp [Parameter.tokens])
    simp only [this, true_or, or_true]
  · obtain ⟨declaration, hdeclaration, hd⟩ := List.mem_flatMap.1 hd
    have : d.type.token ∈ s.locals.flatMap fun d => .keyword .var :: d.tokens :=
      List.mem_flatMap.2 ⟨declaration, hdeclaration,
        List.mem_cons_of_mem _ (Declaration.type_mem_tokens hd)⟩
    simp only [this, true_or, or_true]

theorem Class.type_mem_tokens {c : Class} {d : Declared} (hd : d ∈ c.declared) :
    d.type.token ∈ c.tokens := by
  obtain ⟨declaration, hdeclaration, hd⟩ := List.mem_flatMap.1 hd
  have : d.type.token ∈ c.declarations.flatMap fun d => .keyword d.1.keyword :: d.2.tokens :=
    List.mem_flatMap.2 ⟨declaration, hdeclaration,
      List.mem_cons_of_mem _ (Declaration.type_mem_tokens hd)⟩
  rw [tokens, inBraces]
  simp only [List.mem_cons, List.mem_append, this, true_or, or_true]

/-- The names of some tokens are words. -/
def Worded (tokens : List Token) : Prop := ∀ name, .identifier name ∈ tokens → IsWord name

theorem Worded.mono {ts us : List Token} (h : Worded us) (hsub : ts ⊆ us) : Worded ts :=
  fun name hname => h name (hsub hname)

/-! ### Places in a class -/

/-- What names stand for at a place lies in an extent, and names are words. -/
structure Site.Within (site : Site) (e : Extent) : Prop where
  isWord_className : IsWord site.className
  find? : ∀ name v, site.find? name = some v → e.Covers (cell v).1 (cell v).2 ∧ IsWord v.type.text
  argument : site.kind = .method → 0 < e.arguments

theorem Class.within_site {c : Class} {s : Subroutine} (hc : Worded c.tokens)
    (hs : s ∈ c.subroutines) : (c.site s).Within (c.extent s s.localCount) where
  isWord_className := hc c.name (by simp [Class.tokens])
  argument := by
    intro hkind
    have hkind : s.kind = .method := hkind
    simp [Class.extent, Subroutine.argumentCount, hkind]
  find? := by
    intro name v h
    rw [Site.find?, Class.site, Environment.find?, Option.orElse_eq_orElse, Option.orElse_eq_or,
      Option.or_eq_some_iff] at h
    rcases h with h | ⟨-, h⟩
    · obtain ⟨hmem, hindex⟩ :=
        Declared.declared_of_mem_numbered (Declared.mem_numbered_of_find? h).1
      refine ⟨Extent.covers_cell (Nat.lt_of_lt_of_le hindex (s.count_declared_le_extent _)), ?_⟩
      rcases List.mem_append.1 hmem with hmem | hmem
      · rw [show v.type = .object c.name from Subroutine.type_of_mem_receiver hmem]
        exact hc c.name (by simp [Class.tokens])
      · have htokens := tokens_subset_of_mem_subroutines hs (Subroutine.type_mem_tokens hmem)
        exact isWord_text fun name heq => hc name (heq ▸ htokens)
    · obtain ⟨hmem, hindex⟩ :=
        Declared.declared_of_mem_numbered (Declared.mem_numbered_of_find? h).1
      refine ⟨Extent.covers_cell (Nat.lt_of_lt_of_le hindex (c.count_declared_le_extent _)), ?_⟩
      exact isWord_text fun name heq => hc name (heq ▸ Class.type_mem_tokens hmem)

/-! ### Instructions -/

theorem cell_ne_constant (v : Variable) : (cell v).1 ≠ .constant := by
  rw [cell_eq]
  change v.kind.segment ≠ .constant
  cases v.kind <;> decide

theorem Worded.of_callNames {subroutine : String} {qualifier : Option String}
    (h : Worded (callNames subroutine qualifier)) :
    IsWord subroutine ∧ ∀ name ∈ qualifier, IsWord name := by
  cases qualifier with
  | none =>
    refine ⟨h _ List.mem_cons_self, ?_⟩
    rintro _ ⟨⟩
  | some qualifier =>
    refine ⟨h _ (by simp [callNames]), ?_⟩
    rintro _ ⟨⟩
    exact h _ List.mem_cons_self

namespace Site.Within

variable {site : Site} {e : Extent} {instr : Instr} {name : String}

theorem allows_of_mem_pushVariable (h : site.Within e) (hinstr : instr ∈ site.pushVariable name) :
    e.Allows instr := by
  obtain ⟨v, hv, rfl⟩ := List.mem_map.1 hinstr
  exact (h.find? name v (Option.mem_toList.1 hv)).1

theorem allows_of_mem_popVariable (h : site.Within e) (hinstr : instr ∈ site.popVariable name) :
    e.Allows instr := by
  obtain ⟨v, hv, rfl⟩ := List.mem_map.1 hinstr
  exact ⟨cell_ne_constant v, (h.find? name v (Option.mem_toList.1 hv)).1⟩

theorem allows_of_mem_pushThis (h : site.Within e) (hinstr : instr ∈ site.pushThis) :
    e.Allows instr := by
  unfold pushThis at hinstr
  split at hinstr
  · next hkind =>
    cases List.mem_singleton.1 hinstr
    exact h.argument hkind
  · cases List.mem_singleton.1 hinstr
    exact Nat.zero_le 1
  · cases hinstr

theorem allows_of_mem_pushObject (h : site.Within e) {qualifier : Option String}
    (hinstr : instr ∈ site.pushObject qualifier) : e.Allows instr := by
  cases qualifier with
  | none => exact h.allows_of_mem_pushThis hinstr
  | some qualifier => exact h.allows_of_mem_pushVariable hinstr

theorem allows_callInstr (h : site.Within e) {subroutine : String} {qualifier : Option String}
    (hwords : Worded (callNames subroutine qualifier)) (n : Nat) :
    e.Allows (site.callInstr subroutine n qualifier) := by
  obtain ⟨hsubroutine, hqualifier⟩ := hwords.of_callNames
  cases qualifier with
  | none => exact ⟨_, _, h.isWord_className, hsubroutine, rfl⟩
  | some qualifier =>
    rw [callInstr]
    cases hfind : site.find? qualifier with
    | some v => exact ⟨_, _, (h.find? qualifier v hfind).2, hsubroutine, rfl⟩
    | none => exact ⟨_, _, hqualifier qualifier rfl, hsubroutine, rfl⟩

theorem allows_of_mem_call (h : site.Within e) {subroutine : String} {qualifier : Option String}
    {arguments : List Expression} (hwords : Worded (callNames subroutine qualifier))
    (hinstr : instr ∈ (Term.call qualifier subroutine arguments).own site) : e.Allows instr := by
  rcases List.mem_append.1 hinstr with hinstr | hinstr
  · exact h.allows_of_mem_pushObject hinstr
  · cases List.mem_singleton.1 hinstr
    exact h.allows_callInstr hwords _

end Site.Within

section instructions

variable {e : Extent} {instr : Instr} {kind : SubroutineKind} {Declares : String → Prop}

theorem Extent.allows_operatorInstr (e : Extent) (op : Operator) : e.Allows (operatorInstr op) := by
  cases op with
  | multiply | divide => exact isFunctionName_library _ (by simp)
  | _ => trivial

theorem Extent.allows_of_mem_constantCode {constant : Constant}
    (h : instr ∈ constantCode constant) : e.Allows instr := by
  have hle : ∀ i ≤ 1, i ≤ maxConstant := by decide
  cases constant with
  | true =>
    rcases List.mem_cons.1 h with rfl | h
    · exact hle 1 (Nat.le_refl _)
    · cases List.mem_singleton.1 h
      trivial
  | false | null =>
    cases List.mem_singleton.1 h
    exact hle 0 (Nat.zero_le _)

theorem Extent.allows_of_mem_stringCode {text : String} (hlength : text.length ≤ maxConstant)
    (hchars : ∀ c ∈ text.toList, c.toNat ≤ maxConstant) (h : instr ∈ stringCode text) :
    e.Allows instr := by
  simp only [stringCode, List.mem_cons, List.mem_flatMap, List.not_mem_nil, or_false] at h
  rcases h with rfl | rfl | ⟨c, hc, rfl | rfl⟩
  · exact hlength
  · exact isFunctionName_library _ (by simp)
  · exact hchars c hc
  · exact isFunctionName_library _ (by simp)

/-- What a term adds stays inside the extent if its own constants and names are in order. -/
theorem Term.allows_of_mem_own {site : Site} {u : Term} (hsite : site.Within e)
    (hu : u.Allowed kind Declares) (hwords : Worded u.tokens) (h : instr ∈ u.own site) :
    e.Allows instr := by
  cases u with
  | integer value =>
    cases List.mem_singleton.1 h
    exact hu
  | string text => exact Extent.allows_of_mem_stringCode hu.1 hu.2 h
  | constant keyword => exact Extent.allows_of_mem_constantCode h
  | this => exact hsite.allows_of_mem_pushThis h
  | «variable» name => exact hsite.allows_of_mem_pushVariable h
  | element array index =>
    simp only [own, List.mem_append, List.mem_cons, List.not_mem_nil, or_false] at h
    rcases h with h | rfl | rfl | rfl
    · exact hsite.allows_of_mem_pushVariable h
    · trivial
    · exact ⟨by decide, Nat.le_refl 1⟩
    · rfl
  | call qualifier subroutine arguments =>
    exact hsite.allows_of_mem_call (hwords.mono (List.subset_append_left _ _)) h
  | group inner => cases h
  | unary op operand =>
    cases List.mem_singleton.1 h
    cases op <;> trivial

theorem Statement.allows_of_mem_own {site : Site} {subroutine : String} {n : Numbering}
    {u : Statement} (hsite : site.Within e) (hwords : Worded u.tokens)
    (h : instr ∈ u.own site subroutine n) : e.Allows instr := by
  cases u with
  | assign target value => exact hsite.allows_of_mem_popVariable h
  | assignElement array index value =>
    simp only [own, List.mem_append, List.mem_cons, List.not_mem_nil, or_false] at h
    rcases h with h | rfl | rfl | rfl | rfl | rfl
    · exact hsite.allows_of_mem_pushVariable h
    · trivial
    · exact ⟨by decide, rfl⟩
    · exact ⟨by decide, Nat.le_refl 1⟩
    · rfl
    · exact ⟨by decide, rfl⟩
  | ifThen condition body | ifElse condition body alternative | «while» condition body =>
    simp only [own, List.mem_cons, List.not_mem_nil, or_false] at h
    rcases h with rfl | rfl | rfl | rfl | rfl <;> trivial
  | call qualifier subroutine' arguments =>
    rcases List.mem_append.1 h with h | h
    · refine hsite.allows_of_mem_call (hwords.mono ?_) h
      exact List.subset_cons_of_subset _ (List.subset_append_left _ _)
    · cases List.mem_singleton.1 h
      exact ⟨by decide, rfl⟩
  | «return» value =>
    cases value with
    | none =>
      rcases List.mem_cons.1 h with rfl | h
      · exact Nat.zero_le maxConstant
      · cases List.mem_singleton.1 h
        trivial
    | some value =>
      cases List.mem_singleton.1 h
      trivial

end instructions

/-! ### Blocks -/

theorem Subroutine.allows_of_mem_prologue {c : Class} {s : Subroutine} {instr : Instr}
    (hc : c.Valid) (hs : s ∈ c.subroutines) (h : instr ∈ s.prologue c.fieldCount) :
    (c.extent s s.localCount).Allows instr := by
  unfold prologue at h
  split at h
  · next hkind =>
    have hcount : Declared.count .field c.declared = c.fieldCount := c.count_declared .field
    have hfields : c.fieldCount ≤ maxConstant := hcount ▸ hc.constructor_fields_le s hs hkind
    simp only [List.mem_cons, List.not_mem_nil, or_false] at h
    rcases h with rfl | rfl | rfl
    · exact hfields
    · exact isFunctionName_library _ (by simp)
    · exact ⟨by decide, Nat.zero_le 1⟩
  · next hkind =>
    simp only [List.mem_cons, List.not_mem_nil, or_false] at h
    rcases h with rfl | rfl
    · change 0 < s.argumentCount
      simp [argumentCount, hkind]
    · exact ⟨by decide, Nat.zero_le 1⟩
  · cases h

/-- The code of a subroutine stays inside its extent. -/
theorem Class.allows_of_mem_block {c : Class} {s : Subroutine} {k : Nat} {instr : Instr}
    (hc : c.Valid) (hwords : Worded c.tokens) (hs : s ∈ c.subroutines) (h : instr ∈ c.block k s) :
    (c.extent s s.localCount).Allows instr := by
  have hsite := c.within_site hwords hs
  have htokens := tokens_subset_of_mem_subroutines hs
  rw [block, List.mem_cons, List.mem_append] at h
  rcases h with rfl | h | h
  · refine ⟨_, _, hsite.isWord_className, hwords s.name (htokens ?_), rfl⟩
    simp [Subroutine.tokens]
  · exact Subroutine.allows_of_mem_prologue hc hs h
  · rcases Subroutine.stems_of_mem_translateAll h with ⟨u, hu, n, h⟩ | ⟨op, rfl⟩ | ⟨u, hu, h⟩
    · refine Statement.allows_of_mem_own hsite (hwords.mono ?_) h
      exact List.Subset.trans (Subroutine.tokens_subset_of_mem_statements hu) htokens
    · exact Extent.allows_operatorInstr _ op
    · refine Term.allows_of_mem_own hsite ((hc.subroutines s hs).terms u hu) (hwords.mono ?_) h
      exact List.Subset.trans (Subroutine.tokens_subset_of_mem_terms hu) htokens

end Syntax
end JackLang
