import JackLang.Proofs.Listing

/-! Any requests for instructions, in any order, those with operands at fault included. Such a
request is refused and leaves the code as it is; from the text of the code all the others are read
back, in their order (`Code.ofText?_serveAll`). -/

namespace JackLang

namespace Instr

/-- There is no cell to pop a constant into, two for the pointers and eight that are temporary. -/
def Rejected : Instr → Prop
  | pop .constant _ => True
  | push .pointer index | pop .pointer index => 1 < index
  | push .temp index | pop .temp index => 7 < index
  | _ => False

variable {instr : Instr}

theorem isSome_indexFault?_iff {segment : Segment} {index : Nat} :
    (segment.indexFault? index).isSome ↔ ∃ last, segment.lastIndex? = some last ∧ last < index := by
  rw [Segment.indexFault?]
  cases segment.lastIndex? with
  | none => simp
  | some last => by_cases h : last < index <;> simp [h]

theorem isSome_fault?_iff : instr.fault?.isSome ↔ instr.Rejected := by
  cases instr with
  | push segment index | pop segment index =>
    cases segment <;> simp [fault?, Rejected, isSome_indexFault?_iff, Segment.lastIndex?]
  | _ => simp [fault?, Rejected]

instance (instr : Instr) : Decidable instr.Rejected := decidable_of_iff _ isSome_fault?_iff

theorem fault?_eq_none_iff : instr.fault? = none ↔ ¬ instr.Rejected := by
  rw [← isSome_fault?_iff, Option.not_isSome_iff_eq_none]

end Instr

namespace Code

/-- The answer to a request, and the code after it. -/
def serve (code : Code) (instr : Instr) : Except Error Unit × Code :=
  match code.add instr with
  | .ok code => (.ok (), code)
  | .error fault => (.error fault.report, code)

/-- The answers to requests in order, and the code after them. -/
def serveAll (code : Code) : List Instr → List (Except Error Unit) × Code
  | [] => ([], code)
  | instr :: requests =>
    let (answer, code) := code.serve instr
    let (answers, code) := code.serveAll requests
    (answer :: answers, code)

variable {code : Code} {instr : Instr} {requests : List Instr}

theorem serve_of_rejected (h : instr.Rejected) :
    ∃ message, code.serve instr = (.error (.operand message), code) := by
  obtain ⟨fault, hfault⟩ := Option.isSome_iff_exists.1 (Instr.isSome_fault?_iff.2 h)
  have hreport : ∃ message, fault.report = .operand message := by cases fault <;> exact ⟨_, rfl⟩
  obtain ⟨message, hmessage⟩ := hreport
  refine ⟨message, ?_⟩
  rw [serve, add, hfault, ← hmessage]

theorem serve_of_not_rejected (h : ¬ instr.Rejected) :
    code.serve instr = (.ok (), code.push instr) := by
  rw [serve, add, Instr.fault?_eq_none_iff.2 h]

/-- What is written behind some code are the requests that are not refused. -/
theorem toList_serveAll (code : Code) (requests : List Instr) :
    (code.serveAll requests).2.toList = code.toList ++ requests.filter (¬ ·.Rejected) := by
  induction requests generalizing code with
  | nil => exact (List.append_nil _).symm
  | cons instr requests ih =>
    show ((code.serve instr).2.serveAll requests).2.toList = _
    rw [ih]
    by_cases h : instr.Rejected
    · obtain ⟨message, hserve⟩ := code.serve_of_rejected h
      simp [hserve, h]
    · simp [serve_of_not_rejected h, h]

/-- **Listings are read back.** A request is refused just if its operands are at fault, and then the
text stays. So where names are words and numbers are counts, the lines of the text tell the requests
that were not refused, one each, in their order. -/
theorem ofText?_serveAll (requests : List Instr)
    (hnames : ∀ r ∈ requests, ∀ name ∈ r.name?, name ≠ "" ∧ Instr.Undivided name)
    (hnumbers : ∀ r ∈ requests, ∀ n ∈ r.number?, n ≤ maxCount) :
    (∀ (code : Code) (r : Instr), ((∃ error, (code.serve r).1 = .error error) ↔ r.Rejected) ∧
      ∀ error, (code.serve r).1 = .error error →
        (∃ message, error = .operand message) ∧ (code.serve r).2.render = code.render) ∧
    ofText? (serveAll #[] requests).2.render = some (requests.filter (¬ ·.Rejected)) := by
  refine ⟨fun code r => ?_, ?_⟩
  · by_cases h : r.Rejected
    · obtain ⟨message, hserve⟩ := code.serve_of_rejected h
      rw [hserve]
      exact ⟨iff_of_true ⟨_, rfl⟩ h, by rintro _ ⟨⟩; exact ⟨⟨message, rfl⟩, rfl⟩⟩
    · rw [serve_of_not_rejected h]
      exact ⟨iff_of_false nofun h, nofun⟩
  · have hcode : (serveAll #[] requests).2.toList = requests.filter (¬ ·.Rejected) :=
      toList_serveAll #[] requests
    rw [← hcode]
    refine ofText?_render fun r hr => ?_
    rw [← Array.mem_toList_iff, hcode, List.mem_filter, decide_eq_true_eq] at hr
    exact ⟨hnames r hr.1, hnumbers r hr.1, Instr.fault?_eq_none_iff.2 hr.2⟩

/-- A listing with the largest index, among requests that are refused. -/
theorem ofText?_serveAll_refused :
    let requests : List Instr := [.pop .constant 0, .push .static 65535, .label "A.f$IF_END0",
      .push .temp 8, .call "A.f" 0]
    ofText? (serveAll #[] requests).2.render =
      some [.push .static 65535, .label "A.f$IF_END0", .call "A.f" 0] := by
  intro requests
  have hfilter : requests.filter (¬ ·.Rejected) =
      [.push .static 65535, .label "A.f$IF_END0", .call "A.f" 0] := by decide
  rw [(ofText?_serveAll requests (by decide) (by decide)).2, hfilter]

end Code
end JackLang
