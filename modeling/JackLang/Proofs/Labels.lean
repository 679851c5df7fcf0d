import JackLang.Proofs.Syntax.Labels
import Mathlib.Data.List.Nodup

/-! Any requests for labels, in any order, those without names included. A request is refused just
if a name is missing, and the others with the same names and construct are numbered from zero on,
whatever comes in between, as far as 32 bits count. As the text of a label tells all of these, no
label is given out twice (`Labels.collision_free`). -/

namespace JackLang.Labels

/-- An occurrence of a construct asks for its labels. -/
structure Request where
  className : String
  subroutine : String
  construct : Construct
deriving DecidableEq, Repr

/-- The answer to a request, and the labels taken after it. -/
def serve (labels : Labels) (r : Request) : Except Error LabelPair × Labels :=
  match labels.next r.className r.subroutine r.construct with
  | .ok (pair, labels) => (.ok pair, labels)
  | .error fault => (.error fault.report, labels)

/-- The answers to requests in order, and the labels taken after them. -/
def serveAll (labels : Labels) : List Request → List (Except Error LabelPair) × Labels
  | [] => ([], labels)
  | r :: requests =>
    let (answer, labels) := labels.serve r
    let (answers, labels) := labels.serveAll requests
    (answer :: answers, labels)

/-- The labels that an answer gives out. -/
def texts : Except Error LabelPair → List String
  | .ok pair => [pair.first, pair.second]
  | .error _ => []

/-- How many pairs a request finds taken, in a word of 32 bits. -/
def number (labels : Labels) (r : Request) : UInt32 :=
  labels.taken[(r.className, r.subroutine, r.construct)]?.getD 0

namespace Request

/-- Both names are given. -/
def Named (r : Request) : Prop := r.className ≠ "" ∧ r.subroutine ≠ ""

instance (r : Request) : Decidable r.Named := inferInstanceAs (Decidable (_ ∧ _))

/-- The labels with a number. -/
def pair (r : Request) (number : Nat) : LabelPair where
  first := labelText r.className r.subroutine r.construct.firstBase number
  second := labelText r.className r.subroutine r.construct.secondBase number

/-- The answer to a request that finds so many pairs taken. -/
def answer (r : Request) (number : Nat) : Except Error LabelPair :=
  if r.Named then .ok (r.pair number)
  else .error (.precondition "label requested outside of a class subroutine")

/-! ### Texts -/

variable {r r' : Request} {number number' : Nat} {text : String}

theorem exists_of_mem_texts (h : text ∈ texts (r.answer number)) :
    r.Named ∧ ∃ base, Syntax.Site.IsBase base ∧
      (base = r.construct.firstBase ∨ base = r.construct.secondBase) ∧
      text = labelText r.className r.subroutine base number := by
  rw [answer] at h
  split at h
  · next hnamed =>
    have hbase := Syntax.isBase_base r.construct
    rcases List.mem_pair.1 h with rfl | rfl
    · exact ⟨hnamed, _, hbase.1, .inl rfl, rfl⟩
    · exact ⟨hnamed, _, hbase.2, .inr rfl, rfl⟩
  · cases h

/-- A name in front of a dot is told by the text if it holds no dot. -/
theorem names_eq {className className' subroutine subroutine' : String}
    (hclass : '.' ∉ className.toList) (hclass' : '.' ∉ className'.toList)
    (h : className ++ "." ++ subroutine = className' ++ "." ++ subroutine') :
    className = className' ∧ subroutine = subroutine' := by
  have h : className.toList ++ '.' :: subroutine.toList =
      className'.toList ++ '.' :: subroutine'.toList := by
    simpa using congrArg String.toList h
  have htake {xs : List Char} (hxs : '.' ∉ xs) (ys : List Char) :
      (xs ++ '.' :: ys).takeWhile (· ≠ '.') = xs := by
    rw [List.takeWhile_append_of_pos, List.takeWhile_cons_of_neg (by simp), List.append_nil]
    intro ch hch
    simpa using ne_of_mem_of_not_mem hch hxs
  have hname : className.toList = className'.toList := by
    rw [← htake hclass, h, htake hclass']
  refine ⟨String.toList_inj.1 hname, String.toList_inj.1 ?_⟩
  rw [hname] at h
  exact List.cons_inj_right _ |>.1 (List.append_cancel_left h)

/-- A label tells which request it answers, if classes have no dot in their names. -/
theorem eq_of_mem_texts (hr : '.' ∉ r.className.toList) (hr' : '.' ∉ r'.className.toList)
    (h : text ∈ texts (r.answer number)) (h' : text ∈ texts (r'.answer number')) :
    r = r' ∧ number = number' := by
  obtain ⟨-, base, hbase, hconstruct, rfl⟩ := exists_of_mem_texts h
  obtain ⟨-, base', hbase', hconstruct', heq⟩ := exists_of_mem_texts h'
  obtain ⟨hname, rfl, rfl⟩ := Syntax.parts_of_labelText_eq hbase hbase' heq
  obtain ⟨className, subroutine, construct⟩ := r
  obtain ⟨className', subroutine', construct'⟩ := r'
  obtain ⟨rfl, rfl⟩ := names_eq hr hr' hname
  obtain rfl : construct = construct' := Syntax.construct_eq_of_base hconstruct hconstruct'
  exact ⟨rfl, rfl⟩

theorem nodup_texts (r : Request) (number : Nat) : (texts (r.answer number)).Nodup := by
  rw [answer]
  split
  · refine List.nodup_cons.2 ⟨fun h => ?_, List.nodup_singleton _⟩
    have hbase := Syntax.isBase_base r.construct
    have heq := (Syntax.parts_of_labelText_eq hbase.1 hbase.2 (List.mem_singleton.1 h)).2.1
    revert heq
    cases r.construct <;> decide
  · exact List.nodup_nil

end Request

/-! ### Numbers -/

variable {labels : Labels} {r : Request} {requests : List Request}

theorem next_eq {className subroutine : String} (hclass : className ≠ "")
    (hsubroutine : subroutine ≠ "") (labels : Labels) (construct : Construct) :
    labels.next className subroutine construct =
      .ok (labels.draw className subroutine construct) := by
  rw [next, if_neg]
  simp [String.isEmpty_iff, hclass, hsubroutine]

theorem serve_of_named (h : r.Named) : labels.serve r =
    (.ok (r.pair (labels.number r).toNat), (labels.draw r.className r.subroutine r.construct).2) := by
  rw [serve, next_eq h.1 h.2]
  rfl

/-- A request without a name takes nothing. -/
theorem serve_of_not_named (h : ¬ r.Named) : labels.serve r =
    (.error (.precondition "label requested outside of a class subroutine"), labels) := by
  have hnext : labels.next r.className r.subroutine r.construct = .error .outsideSubroutine := by
    rw [next, if_pos]
    simpa [Request.Named, String.isEmpty_iff, or_iff_not_imp_left] using h
  rw [serve, hnext]
  rfl

theorem serve_fst (labels : Labels) (r : Request) :
    (labels.serve r).1 = r.answer (labels.number r).toNat := by
  rw [Request.answer]
  split
  · next h => rw [serve_of_named h]
  · next h => rw [serve_of_not_named h]

/-- A request that is served takes one pair, from those of its own alone. -/
theorem number_serve (labels : Labels) (r r' : Request) (hr' : r'.Named) :
    (labels.serve r).2.number r' = labels.number r' + .ofNat ([r].count r') := by
  by_cases h : r.Named
  · rw [serve_of_named h]
    by_cases heq : r = r'
    · subst heq
      simp [number, draw]
    · have hkey : (r.className, r.subroutine, r.construct) ≠
          (r'.className, r'.subroutine, r'.construct) := by
        cases r
        cases r'
        simpa using heq
      simp [number, draw, Std.HashMap.getElem?_insert, hkey, heq]
  · have hne : r ≠ r' := fun heq => h (heq ▸ hr')
    rw [serve_of_not_named h, List.count_singleton, beq_eq_false_iff_ne.2 hne]
    exact (UInt32.add_zero _).symm

/-- The requests before it tell the answer to a request. -/
theorem getElem?_serveAll (labels : Labels) (requests : List Request) (i : Nat) :
    (labels.serveAll requests).1[i]? = requests[i]?.map fun r =>
      r.answer (labels.number r + .ofNat ((requests.take i).count r)).toNat := by
  induction requests generalizing labels i with
  | nil => rfl
  | cons r requests ih =>
    show ((labels.serve r).1 :: ((labels.serve r).2.serveAll requests).1)[i]? = _
    cases i with
    | zero => simp [serve_fst]
    | succ i =>
      rw [List.getElem?_cons_succ, List.getElem?_cons_succ, ih, List.take_succ_cons]
      refine Option.map_congr fun r' _ => ?_
      by_cases hr' : r'.Named
      · rw [number_serve labels r r' hr', UInt32.add_assoc, ← UInt32.ofNat_add,
          ← List.count_append, List.singleton_append]
      · rw [Request.answer, Request.answer, if_neg hr', if_neg hr']

/-- A request finds more pairs taken than one like it that came before. -/
theorem count_take_lt {i j : Nat} (hi : requests[i]? = some r) (hij : i < j) :
    (requests.take i).count r < (requests.take j).count r := by
  obtain ⟨hlt, rfl⟩ := List.getElem?_eq_some_iff.1 hi
  calc (requests.take i).count requests[i] < (requests.take (i + 1)).count requests[i] := by
        rw [List.count_getElem_take_succ]
        exact Nat.lt_succ_self _
    _ ≤ (requests.take j).count requests[i] := (List.take_sublist_take_left hij).count_le _

theorem serve_eq_error_iff {error : Error} : (labels.serve r).1 = .error error ↔
    (r.className = "" ∨ r.subroutine = "") ∧
      error = .precondition "label requested outside of a class subroutine" := by
  have hnamed : r.className = "" ∨ r.subroutine = "" ↔ ¬ r.Named := by
    rw [Request.Named, not_and_or, not_not, not_not]
  rw [hnamed]
  by_cases h : r.Named
  · simp [serve_of_named h, h]
  · simp [serve_of_not_named h, h, eq_comm]

/-- The requests before it tell the answer of new labels to a request. -/
theorem getElem?_serveAll_empty (requests : List Request) (i : Nat) :
    (serveAll {} requests).1[i]? =
      requests[i]?.map fun r => r.answer ((requests.take i).count r % UInt32.size) := by
  simp [getElem?_serveAll, number, UInt32.size]

theorem nodup_texts_serveAll (h : ∀ r ∈ requests, '.' ∉ r.className.toList)
    (hcount : ∀ r ∈ requests, requests.count r ≤ UInt32.size) :
    ((serveAll {} requests).1.flatMap texts).Nodup := by
  have hanswer {i : Nat} {answer : Except Error LabelPair}
      (hi : (serveAll {} requests).1[i]? = some answer) :
      ∃ r, requests[i]? = some r ∧ answer = r.answer ((requests.take i).count r) := by
    rw [getElem?_serveAll_empty, Option.map_eq_some_iff] at hi
    obtain ⟨r, hr, rfl⟩ := hi
    have hlt : (requests.take i).count r < UInt32.size :=
      calc (requests.take i).count r < (requests.take (i + 1)).count r :=
            count_take_lt hr (Nat.lt_succ_self i)
        _ ≤ requests.count r := (List.take_sublist _ _).count_le _
        _ ≤ UInt32.size := hcount r (List.mem_of_getElem? hr)
    exact ⟨r, hr, by rw [Nat.mod_eq_of_lt hlt]⟩
  refine List.nodup_flatMap.2 ⟨fun answer hmem => ?_, List.pairwise_iff_getElem.2 ?_⟩
  · obtain ⟨i, hi⟩ := List.mem_iff_getElem?.1 hmem
    obtain ⟨r, -, rfl⟩ := hanswer hi
    exact r.nodup_texts _
  · intro i j hi hj hij text htext htext'
    obtain ⟨r, hr, hi⟩ := hanswer (List.getElem?_eq_getElem hi)
    obtain ⟨r', hr', hj⟩ := hanswer (List.getElem?_eq_getElem hj)
    rw [hi] at htext
    rw [hj] at htext'
    obtain ⟨rfl, heq⟩ := Request.eq_of_mem_texts (h r (List.mem_of_getElem? hr))
      (h r' (List.mem_of_getElem? hr')) htext htext'
    exact absurd heq (Nat.ne_of_lt (count_take_lt hr hij))

/-- **Labels do not collide.** Labels are refused just to the requests without a name, which take
nothing. Any other request to new labels is numbered by how many like it have come before, whatever
came in between, until there are more than 32 bits count. So if no class has a dot in its name, no
two of the labels given out up to there are the same, be they of one pair or of two. -/
theorem collision_free (requests : List Request) :
    (∀ (labels : Labels) (r : Request) (error : Error),
      ((labels.serve r).1 = .error error ↔ (r.className = "" ∨ r.subroutine = "") ∧
        error = .precondition "label requested outside of a class subroutine") ∧
      ((labels.serve r).1 = .error error → (labels.serve r).2 = labels)) ∧
    (∀ (i : Nat) (r : Request), requests[i]? = some r → r.className ≠ "" → r.subroutine ≠ "" →
      (requests.take i).count r < UInt32.size →
        (serveAll {} requests).1[i]? = some (.ok (r.pair ((requests.take i).count r)))) ∧
    ((∀ r ∈ requests, '.' ∉ r.className.toList) →
      (∀ r ∈ requests, requests.count r ≤ UInt32.size) →
        ((serveAll {} requests).1.flatMap texts).Nodup) := by
  refine ⟨fun labels r error => ⟨serve_eq_error_iff, fun h => ?_⟩, ?_, nodup_texts_serveAll⟩
  · obtain ⟨hempty, -⟩ := serve_eq_error_iff.1 h
    rw [serve_of_not_named]
    rwa [Request.Named, not_and_or, not_not, not_not]
  · intro i r hr hclass hsubroutine hlt
    rw [getElem?_serveAll_empty, hr, Option.map_some, Request.answer, if_pos ⟨hclass, hsubroutine⟩,
      Nat.mod_eq_of_lt hlt]

/-- Names that run together, a request without a name, and a second `if` of one subroutine. -/
theorem collision_free_mixed :
    let requests : List Request := [⟨"A", "f", .if⟩, ⟨"A", "f", .while⟩, ⟨"A", "", .if⟩,
      ⟨"A1", "f", .if⟩, ⟨"A", "f1", .if⟩, ⟨"A", "f", .if⟩]
    (serveAll {} requests).1[5]? = some (.ok ⟨"A.f$IF_FALSE1", "A.f$IF_END1"⟩) ∧
      ((serveAll {} requests).1.flatMap texts).Nodup := by
  intro requests
  have hcount : (requests.take 5).count ⟨"A", "f", .if⟩ = 1 := by decide
  have hpair : Request.pair ⟨"A", "f", .if⟩ 1 = ⟨"A.f$IF_FALSE1", "A.f$IF_END1"⟩ := by decide
  obtain ⟨-, hnumber, hnodup⟩ := collision_free requests
  refine ⟨?_, hnodup (by decide) (by decide)⟩
  rw [hnumber 5 ⟨"A", "f", .if⟩ rfl (by decide) (by decide) (by decide), hcount, hpair]

end JackLang.Labels
