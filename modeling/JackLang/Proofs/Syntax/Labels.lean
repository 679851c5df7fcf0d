import JackLang.Proofs.Machine.Basic
import JackLang.Proofs.Syntax.Blocks

/-! The labels of a translated class are distinct, as long as 32 bits hold their numbers
(`Class.nodup_labels_translate`). A label tells which occurrence of a branch or loop it belongs to
(`IsLabel.inj`), and statements take the numbers between those behind the statements before them and
those behind themselves (`Statement.labelsBetween_translateAll`). -/

namespace JackLang.Syntax

open Machine

/-! ### The text of a label -/

/-- Two lists that are split before their last part of some characters. -/
theorem append_inj_of_forall {α : Type} {p : α → Prop} {xs xs' ys ys' : List α}
    (h : xs ++ ys = xs' ++ ys') (hy : ∀ y ∈ ys, p y) (hy' : ∀ y ∈ ys', p y)
    (hx : ∀ x ∈ xs.getLast?, ¬ p x) (hx' : ∀ x ∈ xs'.getLast?, ¬ p x) : xs = xs' ∧ ys = ys' := by
  rcases List.append_eq_append_iff.1 h with ⟨zs, rfl, rfl⟩ | ⟨zs, rfl, rfl⟩
  · cases zs using List.reverseRecOn with
    | nil => simp
    | append_singleton zs z => exact absurd (hy z (by simp)) (hx' z (by simp))
  · cases zs using List.reverseRecOn with
    | nil => simp
    | append_singleton zs z => exact absurd (hy' z (by simp)) (hx z (by simp))

/-- A name is a label of an occurrence, in a subroutine of a class. -/
def IsLabel (site : Site) (subroutine : String) (construct : Construct) (number : Nat)
    (name : String) : Prop :=
  name = site.label subroutine construct.firstBase number ∨
    name = site.label subroutine construct.secondBase number

theorem toList_labelText (className subroutine base : String) (number : Nat) :
    (labelText className subroutine base number).toList =
      (className ++ "." ++ subroutine).toList ++ ['$'] ++ base.toList ++ Nat.toDigits 10 number := by
  change (className ++ "." ++ subroutine ++ "$" ++ base ++ number.repr).toList = _
  simp [Nat.toList_repr]

/-- The base of a label holds no dollar sign and ends in no digit. -/
def Site.IsBase (base : String) : Prop :=
  (∀ ch ∈ base.toList, ch ≠ '$') ∧ ∀ ch ∈ base.toList.getLast?, ¬ ch.isDigit

/-- A label tells its base and its number, and what stands before them. -/
theorem parts_of_labelText_eq {className className' subroutine subroutine' base base' : String}
    {number number' : Nat} (hbase : Site.IsBase base) (hbase' : Site.IsBase base')
    (h : labelText className subroutine base number =
      labelText className' subroutine' base' number') :
    className ++ "." ++ subroutine = className' ++ "." ++ subroutine' ∧ base = base' ∧
      number = number' := by
  have hdigit {base : String} (hbase : Site.IsBase base) (xs : List Char) :
      ∀ ch ∈ (xs ++ ['$'] ++ base.toList).getLast?, ¬ ch.isDigit := by
    intro ch hch
    rw [List.getLast?_append, List.getLast?_concat] at hch
    cases hlast : base.toList.getLast? with
    | some ch' =>
      rw [hlast] at hch
      cases hch
      exact hbase.2 ch hlast
    | none =>
      rw [hlast] at hch
      cases hch
      decide
  have hdollar (xs : List Char) : ∀ ch ∈ (xs ++ ['$']).getLast?, ¬ ch ≠ '$' := by
    intro ch hch
    rw [List.getLast?_concat] at hch
    cases hch
    simp
  have hdigits (n : Nat) : ∀ ch ∈ Nat.toDigits 10 n, ch.isDigit := fun ch hch =>
    Nat.isDigit_of_mem_toDigits (by decide) (by decide) hch
  have h := congrArg String.toList h
  rw [toList_labelText, toList_labelText] at h
  obtain ⟨h, hnumber⟩ := append_inj_of_forall h (hdigits _) (hdigits _) (hdigit hbase _)
    (hdigit hbase' _)
  obtain ⟨h, hbases⟩ := append_inj_of_forall h hbase.1 hbase'.1 (hdollar _) (hdollar _)
  refine ⟨String.toList_inj.1 (List.append_cancel_right h), String.toList_inj.1 hbases, ?_⟩
  rw [← Nat.ofDigitChars_ten_toDigits (n := number), hnumber, Nat.ofDigitChars_ten_toDigits]

namespace Site

variable {site : Site} {subroutine subroutine' : String} {construct construct' : Construct}
  {number number' : Nat}

theorem toList_label (site : Site) (subroutine base : String) (number : Nat) :
    (site.label subroutine base number).toList =
      (site.className ++ "." ++ subroutine).toList ++ ['$'] ++ base.toList ++
        Nat.toDigits 10 (number % UInt32.size) :=
  toList_labelText ..

theorem label_inj {base base' : String} (hbase : IsBase base) (hbase' : IsBase base')
    (h : site.label subroutine base number = site.label subroutine' base' number') :
    subroutine = subroutine' ∧ base = base' ∧ number % UInt32.size = number' % UInt32.size := by
  obtain ⟨hname, hbases, hnumber⟩ := parts_of_labelText_eq hbase hbase' h
  exact ⟨(String.append_right_inj _).1 hname, hbases, hnumber⟩

end Site

theorem isBase_base (construct : Construct) :
    Site.IsBase construct.firstBase ∧ Site.IsBase construct.secondBase := by
  cases construct <;> simp [Site.IsBase, Construct.firstBase, Construct.secondBase]

variable {site : Site} {subroutine subroutine' : String} {construct construct' : Construct}
  {number number' : Nat} {name : String}

/-- No base serves two constructs. -/
theorem construct_eq_of_base {base : String}
    (h : base = construct.firstBase ∨ base = construct.secondBase)
    (h' : base = construct'.firstBase ∨ base = construct'.secondBase) : construct = construct' := by
  revert h h'
  cases construct <;> cases construct' <;> simp <;> rintro (rfl | rfl) <;> decide

/-- A label tells its occurrence, as far as 32 bits tell the number. -/
theorem IsLabel.inj (h : IsLabel site subroutine construct number name)
    (h' : IsLabel site subroutine' construct' number' name) :
    subroutine = subroutine' ∧ construct = construct' ∧
      number % UInt32.size = number' % UInt32.size := by
  have hbase {construct : Construct} {subroutine : String} {number : Nat}
      (h : IsLabel site subroutine construct number name) :
      ∃ base, Site.IsBase base ∧ (base = construct.firstBase ∨ base = construct.secondBase) ∧
        name = site.label subroutine base number := by
    rcases h with h | h
    · exact ⟨_, (isBase_base construct).1, .inl rfl, h⟩
    · exact ⟨_, (isBase_base construct).2, .inr rfl, h⟩
  obtain ⟨base, hb, hconstruct, heq⟩ := hbase h
  obtain ⟨base', hb', hconstruct', heq'⟩ := hbase h'
  obtain ⟨hsubroutine, rfl, hnumber⟩ := Site.label_inj hb hb' (heq.symm.trans heq')
  exact ⟨hsubroutine, construct_eq_of_base hconstruct hconstruct', hnumber⟩

theorem label_firstBase_ne_secondBase (site : Site) (subroutine : String) (construct : Construct)
    (number : Nat) : site.label subroutine construct.firstBase number ≠
      site.label subroutine construct.secondBase number := by
  intro h
  have h := (Site.label_inj (isBase_base construct).1 (isBase_base construct).2 h).2.1
  revert h
  cases construct <;> decide

/-! ### Numbers of occurrences -/

/-- The labels of the occurrences between two numberings, distinct where 32 bits hold the
numbers. -/
structure LabelsBetween (site : Site) (subroutine : String) (n n' : Numbering)
    (names : List String) : Prop where
  le : ∀ construct, n construct ≤ n' construct
  nodup : (∀ construct, n' construct ≤ UInt32.size) → names.Nodup
  isLabel : ∀ name ∈ names, ∃ construct number, n construct ≤ number ∧ number < n' construct ∧
    IsLabel site subroutine construct number name

namespace LabelsBetween

variable {n n' n'' : Numbering} {xs ys : List String}

theorem nil : LabelsBetween site subroutine n n [] :=
  ⟨fun _ => Nat.le_refl _, fun _ => List.nodup_nil, nofun⟩

theorem append (h : LabelsBetween site subroutine n n' xs)
    (h' : LabelsBetween site subroutine n' n'' ys) :
    LabelsBetween site subroutine n n'' (xs ++ ys) := by
  refine ⟨fun construct => Nat.le_trans (h.le construct) (h'.le construct),
    fun hfit => (h.nodup fun construct => Nat.le_trans (h'.le construct) (hfit construct)).append
      (h'.nodup hfit) ?_, fun name hname => ?_⟩
  · intro name hx hy
    obtain ⟨construct, number, -, hlt, hlabel⟩ := h.isLabel name hx
    obtain ⟨construct', number', hle, hlt', hlabel'⟩ := h'.isLabel name hy
    obtain ⟨-, rfl, hmod⟩ := hlabel.inj hlabel'
    have hfit := hfit construct
    rw [Nat.mod_eq_of_lt (by omega), Nat.mod_eq_of_lt (by omega)] at hmod
    omega
  · rcases List.mem_append.1 hname with hx | hy
    · obtain ⟨construct, number, hle, hlt, hlabel⟩ := h.isLabel name hx
      exact ⟨construct, number, hle, Nat.lt_of_lt_of_le hlt (h'.le construct), hlabel⟩
    · obtain ⟨construct, number, hle, hlt, hlabel⟩ := h'.isLabel name hy
      exact ⟨construct, number, Nat.le_trans (h.le construct) hle, hlt, hlabel⟩

theorem perm (h : LabelsBetween site subroutine n n' xs) (hperm : xs.Perm ys) :
    LabelsBetween site subroutine n n' ys :=
  ⟨h.le, fun hfit => hperm.nodup_iff.1 (h.nodup hfit), fun name hname => h.isLabel name (hperm.mem_iff.2 hname)⟩

theorem sublist (h : LabelsBetween site subroutine n n' xs) (hsub : ys.Sublist xs) :
    LabelsBetween site subroutine n n' ys :=
  ⟨h.le, fun hfit => (h.nodup hfit).sublist hsub, fun name hname => h.isLabel name (hsub.subset hname)⟩

/-- An occurrence takes the next number for its pair of labels. -/
theorem pair (construct : Construct) : LabelsBetween site subroutine n (n.succ construct)
    [site.label subroutine construct.firstBase (n construct),
      site.label subroutine construct.secondBase (n construct)] := by
  refine ⟨fun construct' => Nat.le_add_right _ _, fun _ => ?_, fun name hname => ?_⟩
  · simp [label_firstBase_ne_secondBase]
  · refine ⟨construct, n construct, Nat.le_refl _, by simp [Numbering.succ], ?_⟩
    simpa [IsLabel] using hname

end LabelsBetween

theorem labels_eq_nil_of_straight {code : List Instr} (h : ∀ instr ∈ code, Straight instr) :
    labels code = [] := by
  rw [labels, List.filterMap_eq_nil_iff]
  intro instr hinstr
  have := h instr hinstr
  cases instr <;> first | rfl | cases this

theorem Expression.labels_translate (site : Site) (expression : Expression) :
    labels (expression.translate site) = [] :=
  labels_eq_nil_of_straight fun _ h => Expression.straight_of_mem_translate h

theorem Term.labels_translate (site : Site) (term : Term) : labels (term.translate site) = [] :=
  labels_eq_nil_of_straight fun _ h => Term.straight_of_mem_translate h

section branches

variable {n : Numbering} {condition : Expression} {body alternative : List Statement}

theorem Statement.labels_ifThen :
    labels ((Statement.ifThen condition body).translate site subroutine n) =
      labels (Statement.translateAll site subroutine (n.succ .if) body) ++
        [site.label subroutine Construct.if.firstBase (n .if)] := by
  simp [Statement.translate, Expression.labels_translate, label?, Construct.firstBase]

theorem Statement.labels_ifElse :
    labels ((Statement.ifElse condition body alternative).translate site subroutine n) =
      labels (Statement.translateAll site subroutine (n.succ .if) body) ++
        site.label subroutine Construct.if.firstBase (n .if) ::
          (labels (Statement.translateAll site subroutine ((n.succ .if).behind body) alternative) ++
            [site.label subroutine Construct.if.secondBase (n .if)]) := by
  simp [Statement.translate, Expression.labels_translate, label?, Construct.firstBase,
    Construct.secondBase]

theorem Statement.labels_while :
    labels ((Statement.while condition body).translate site subroutine n) =
      site.label subroutine Construct.while.firstBase (n .while) ::
        (labels (Statement.translateAll site subroutine (n.succ .while) body) ++
          [site.label subroutine Construct.while.secondBase (n .while)]) := by
  simp [Statement.translate, Expression.labels_translate, label?, Construct.firstBase,
    Construct.secondBase]

end branches

/-- A statement without branches and loops sets no labels. -/
theorem Statement.labelsBetween_of_count_eq_zero {statement : Statement} {n : Numbering}
    {code : List Instr} (hcount : ∀ construct, statement.count construct = 0)
    (h : labels code = []) :
    LabelsBetween site subroutine n (n.behind [statement]) (labels code) := by
  rw [Numbering.behind_of_count_eq_zero _ _ hcount, h]
  exact .nil

mutual

theorem Statement.labelsBetween_translate (site : Site) (subroutine : String) :
    ∀ (n : Numbering) (statement : Statement), LabelsBetween site subroutine n
      (n.behind [statement]) (labels (statement.translate site subroutine n))
  | n, .assign target value => by
    refine Statement.labelsBetween_of_count_eq_zero (fun _ => rfl) ?_
    rw [Statement.translate, labels_append, Expression.labels_translate, List.nil_append]
    exact labels_eq_nil_of_straight fun _ h => Site.straight_of_mem_popVariable h
  | n, .assignElement array index value => by
    refine Statement.labelsBetween_of_count_eq_zero (fun _ => rfl) ?_
    have hvariable : labels (site.pushVariable array) = [] :=
      labels_eq_nil_of_straight fun _ h => Site.straight_of_mem_pushVariable h
    simp [Statement.translate, hvariable, Expression.labels_translate, label?]
  | n, .ifThen condition body => by
    have hbody := Statement.labelsBetween_translateAll site subroutine (n.succ .if) body
    have hown : LabelsBetween site subroutine n (n.succ .if)
        [site.label subroutine Construct.if.firstBase (n .if)] :=
      (LabelsBetween.pair .if).sublist (List.singleton_sublist.2 List.mem_cons_self)
    rw [Numbering.behind_ifThen, Statement.labels_ifThen]
    exact (hown.append hbody).perm List.perm_append_comm
  | n, .ifElse condition body alternative => by
    have hbody := Statement.labelsBetween_translateAll site subroutine (n.succ .if) body
    have halternative := Statement.labelsBetween_translateAll site subroutine
      ((n.succ .if).behind body) alternative
    rw [Numbering.behind_ifElse, Statement.labels_ifElse]
    refine (((LabelsBetween.pair .if).append hbody).append halternative).perm ?_
    refine List.perm_iff_count.2 fun name => ?_
    simp only [List.count_append, List.count_cons, List.count_nil]
    omega
  | n, .while condition body => by
    have hbody := Statement.labelsBetween_translateAll site subroutine (n.succ .while) body
    rw [Numbering.behind_while, Statement.labels_while]
    refine ((LabelsBetween.pair .while).append hbody).perm ?_
    exact (List.perm_append_singleton _ _).symm.cons _
  | n, .call qualifier subroutine' arguments => by
    refine Statement.labelsBetween_of_count_eq_zero (fun _ => rfl) ?_
    rw [Statement.translate, labels_append, Term.labels_translate]
    rfl
  | n, .return none => Statement.labelsBetween_of_count_eq_zero (fun _ => rfl) rfl
  | n, .return (some value) => by
    refine Statement.labelsBetween_of_count_eq_zero (fun _ => rfl) ?_
    rw [Statement.translate, labels_append, Expression.labels_translate]
    rfl
termination_by structural _ statement => statement

theorem Statement.labelsBetween_translateAll (site : Site) (subroutine : String) :
    ∀ (n : Numbering) (statements : List Statement), LabelsBetween site subroutine n
      (n.behind statements) (labels (Statement.translateAll site subroutine n statements))
  | n, [] => .nil
  | n, statement :: rest => by
    rw [Numbering.behind_cons, Statement.translateAll, labels_append]
    exact (Statement.labelsBetween_translate site subroutine n statement).append
      (Statement.labelsBetween_translateAll site subroutine _ rest)
termination_by structural _ statements => statements

end

/-! ### Classes -/

theorem Subroutine.labels_prologue (fields : Nat) (s : Subroutine) :
    labels (s.prologue fields) = [] := by
  unfold prologue
  cases s.kind <;> rfl

namespace Class

variable {c : Class} {s : Subroutine} {k : Nat}

theorem labelsBetween_block (c : Class) (k : Nat) (s : Subroutine) : LabelsBetween (c.site s) s.name
    (c.numbering k s.name) ((c.numbering k s.name).behind s.body) (labels (c.block k s)) := by
  rw [block, labels_cons, labels_append, Subroutine.labels_prologue, List.nil_append]
  exact Statement.labelsBetween_translateAll ..

theorem numbering_le_succ (h : c.subroutines[k]? = some s) (name : String) (construct : Construct) :
    c.numbering k name construct ≤ c.numbering (k + 1) name construct := by
  rw [numbering_succ h, Function.update_apply]
  split
  · next heq => exact heq ▸ Nat.le_add_right _ _
  · exact Nat.le_refl _

/-- Where 32 bits hold the number of branches and of loops under each name, no label is given out
twice. -/
def LabelsFit (c : Class) : Prop :=
  ∀ s ∈ c.subroutines, c.numbering c.subroutines.length s.name .if ≤ UInt32.size ∧
    c.numbering c.subroutines.length s.name .while ≤ UInt32.size

instance (c : Class) : Decidable c.LabelsFit :=
  inferInstanceAs (Decidable (∀ s ∈ c.subroutines, _ ∧ _))

theorem LabelsFit.numbering_le (h : c.LabelsFit) (hs : s ∈ c.subroutines) (construct : Construct) :
    c.numbering c.subroutines.length s.name construct ≤ UInt32.size := by
  cases construct with
  | «if» => exact (h s hs).1
  | «while» => exact (h s hs).2

theorem numbering_mono {k k' : Nat} (hk : k ≤ k') (hk' : k' ≤ c.subroutines.length) (name : String)
    (construct : Construct) : c.numbering k name construct ≤ c.numbering k' name construct := by
  induction hk with
  | refl => exact Nat.le_refl _
  | @step m hm ih =>
    have hm' : m < c.subroutines.length := hk'
    exact Nat.le_trans (ih (Nat.le_of_succ_le hk'))
      (numbering_le_succ (List.getElem?_eq_getElem hm') name construct)

/-- The labels of the first subroutines are distinct and have the numbers taken so far. -/
theorem nodup_labels_blocks (hfit : c.LabelsFit) (hk : k ≤ c.subroutines.length) :
    (labels (c.blocks k)).Nodup ∧
    ∀ name ∈ labels (c.blocks k), ∃ s ∈ c.subroutines, ∃ construct number,
      number < c.numbering k s.name construct ∧
        IsLabel (c.site s) s.name construct number name := by
  induction k with
  | zero => exact ⟨List.nodup_nil, nofun⟩
  | succ k ih =>
    obtain ⟨hnodup, hlabels⟩ := ih (Nat.le_of_succ_le hk)
    have hs : c.subroutines[k]? = some c.subroutines[k] := List.getElem?_eq_getElem hk
    have hmem : c.subroutines[k] ∈ c.subroutines := List.getElem_mem hk
    have hblock := c.labelsBetween_block k c.subroutines[k]
    have hsucc : c.numbering (k + 1) c.subroutines[k].name =
        (c.numbering k c.subroutines[k].name).behind c.subroutines[k].body := by
      rw [numbering_succ hs, Function.update_self]
    rw [← hsucc] at hblock
    have hbound (construct : Construct) :
        c.numbering (k + 1) c.subroutines[k].name construct ≤ UInt32.size :=
      Nat.le_trans (numbering_mono hk (Nat.le_refl _) _ _) (hfit.numbering_le hmem construct)
    rw [blocks_succ hs, labels_append]
    refine ⟨hnodup.append (hblock.nodup hbound) ?_, fun name hname => ?_⟩
    · intro name hold hnew
      obtain ⟨s, -, construct, number, hlt, hlabel⟩ := hlabels name hold
      obtain ⟨construct', number', hle, hlt', hlabel'⟩ := hblock.isLabel name hnew
      have hlabel : IsLabel (c.site c.subroutines[k]) s.name construct number name := hlabel
      obtain ⟨heq, rfl, hmod⟩ := hlabel.inj hlabel'
      rw [heq] at hlt
      have hbound := hbound construct
      rw [Nat.mod_eq_of_lt (by omega), Nat.mod_eq_of_lt (by omega)] at hmod
      omega
    · rcases List.mem_append.1 hname with hold | hnew
      · obtain ⟨s, hs', construct, number, hlt, hlabel⟩ := hlabels name hold
        exact ⟨s, hs', construct, number,
          Nat.lt_of_lt_of_le hlt (numbering_le_succ hs s.name construct), hlabel⟩
      · obtain ⟨construct, number, -, hlt, hlabel⟩ := hblock.isLabel name hnew
        exact ⟨_, hmem, construct, number, hlt, hlabel⟩

/-- A translated class sets each label once. -/
theorem nodup_labels_translate (hfit : c.LabelsFit) : (labels c.translate).Nodup := by
  rw [translate_eq_blocks]
  exact (nodup_labels_blocks hfit (Nat.le_refl _)).1

end Class

end JackLang.Syntax
