import JackLang.Instr
import JackLang.Limits
import JackLang.Proofs.Text

/-! Listings read back. A count is written in decimal (`writeCount_eq`), an instruction is told by
the words of its line (`Instr.ofLine?_text`) and a listing by its lines (`Code.ofText?_render`), as
long as names are words and numbers are counts that an instruction can carry. -/

namespace JackLang

theorem Segment.ofText?_text (segment : Segment) : ofText? segment.text = some segment := by
  cases segment <;> decide

/-! ### Counts -/

/-- With room for them, the last digits of a count are all its digits. -/
theorem lastDigits_eq {room count : Nat} (hpos : count ≠ 0)
    (hroom : (Nat.toDigits 10 count).length ≤ room) :
    (lastDigits room count).reverse.map Nat.digitChar = Nat.toDigits 10 count := by
  induction room generalizing count with
  | zero => exact absurd hroom (Nat.not_le.2 Nat.length_toDigits_pos)
  | succ room ih =>
    rw [lastDigits, if_neg hpos, List.reverse_cons, List.map_append, List.map_singleton]
    by_cases hlast : count < 10
    · have hnil : lastDigits room (count / 10) = [] := by
        rw [Nat.div_eq_of_lt hlast]
        cases room <;> rfl
      rw [Nat.toDigits_of_lt_base hlast, hnil, Nat.mod_eq_of_lt hlast]
      rfl
    · rw [Nat.toDigits_of_base_le (by decide) (Nat.le_of_not_lt hlast)] at hroom ⊢
      rw [List.length_append] at hroom
      rw [ih (by omega) (Nat.le_of_succ_le_succ hroom)]

theorem lt_ten_of_mem_lastDigits {room count digit : Nat} (h : digit ∈ lastDigits room count) :
    digit < 10 := by
  induction room generalizing count with
  | zero => cases h
  | succ room ih =>
    rw [lastDigits] at h
    split at h
    · cases h
    · rcases List.mem_cons.1 h with rfl | h
      · exact Nat.mod_lt _ (by decide)
      · exact ih h

theorem toList_foldr_push (digits : List Nat) (text : String) (h : ∀ digit ∈ digits, digit < 10) :
    (digits.foldr (fun digit text => text.push (Char.ofNat ('0'.toNat + digit))) text).toList =
      text.toList ++ digits.reverse.map Nat.digitChar := by
  have hchar : ∀ digit : Fin 10, Char.ofNat ('0'.toNat + digit) = Nat.digitChar digit := by decide
  induction digits with
  | nil => simp
  | cons digit digits ih =>
    obtain ⟨hdigit, hdigits⟩ := List.forall_mem_cons.1 h
    rw [List.foldr_cons, String.toList_push, ih hdigits, hchar ⟨digit, hdigit⟩]
    simp

/-- A count that an instruction can carry is written in decimal. -/
theorem writeCount_eq {count : Nat} (h : count ≤ maxCount) (text : String) :
    writeCount count text = text ++ count.repr := by
  have hroom : (Nat.toDigits 10 count).length ≤ 5 :=
    (Nat.length_toDigits_le_iff (by decide) (by decide)).2 (Nat.lt_of_le_of_lt h (by decide))
  rw [← String.toList_inj, String.toList_append, Nat.toList_repr, writeCount]
  split
  · next hzero => rw [hzero, String.toList_push]; rfl
  · next hpos =>
    rw [toList_foldr_push _ _ fun _ => lt_ten_of_mem_lastDigits,
      lastDigits_eq hpos hroom]

namespace Instr

/-! ### Lines -/

/-- A decimal number that an instruction can carry. -/
def ofDigits? (word : String) : Option Nat :=
  let n := Nat.ofDigitChars 10 word.toList 0
  if word ≠ "" ∧ word.toList.all Char.isDigit ∧ n ≤ maxCount then some n else none

/-- A name is any word. -/
def ofName? (word : String) : Option String := if word = "" then none else some word

/-- The instruction that some words name, whatever its operands. -/
def ofWords? : List String → Option Instr
  | ["return"] => some .return
  | [word] => (Operation.ofText? word).map .operate
  | ["label", name] => (ofName? name).map .label
  | ["goto", name] => (ofName? name).map .goto
  | ["if-goto", name] => (ofName? name).map .ifGoto
  | ["push", segment, index] => do return .push (← Segment.ofText? segment) (← ofDigits? index)
  | ["pop", segment, index] => do return .pop (← Segment.ofText? segment) (← ofDigits? index)
  | ["call", name, count] => do return .call (← ofName? name) (← ofDigits? count)
  | ["function", name, count] => do return .function (← ofName? name) (← ofDigits? count)
  | _ => none

/-- The instruction on a line; one whose operands are at fault is none. -/
def ofLine? (line : List Char) : Option Instr :=
  (ofWords? ((line.splitOn ' ').map String.ofList)).filter (·.fault?.isNone)

/-- What stands on the line of an instruction. -/
def words : Instr → List String
  | push segment index => ["push", segment.text, index.repr]
  | pop segment index => ["pop", segment.text, index.repr]
  | operate operation => [operation.text]
  | label name => ["label", name]
  | goto name => ["goto", name]
  | ifGoto name => ["if-goto", name]
  | call name arguments => ["call", name, arguments.repr]
  | function name locals => ["function", name, locals.repr]
  | «return» => ["return"]

/-- The function or the label that an instruction names. -/
def name? : Instr → Option String
  | label name | goto name | ifGoto name | call name _ | function name _ => some name
  | push .. | pop .. | operate _ | «return» => none

/-- The index or the count of an instruction. -/
def number? : Instr → Option Nat
  | push _ n | pop _ n | call _ n | function _ n => some n
  | operate _ | label _ | goto _ | ifGoto _ | «return» => none

/-- A word holds neither of the characters that divide a listing. -/
def Undivided (word : String) : Prop := ∀ c ∈ word.toList, c ≠ ' ' ∧ c ≠ '\n'

instance : DecidablePred Undivided := fun word => List.decidableBAll _ word.toList

/-- An instruction that its line tells: its name is one word, its number a count, and its operands
are in order. -/
structure Legible (instr : Instr) : Prop where
  name : ∀ name ∈ instr.name?, name ≠ "" ∧ Undivided name
  number : ∀ n ∈ instr.number?, n ≤ maxCount
  fault? : instr.fault? = none

variable {instr : Instr}

theorem toList_text (h : ∀ n ∈ instr.number?, n ≤ maxCount) :
    instr.text.toList = [' '].intercalate (instr.words.map String.toList) := by
  cases instr with
  | push _ n | pop _ n | call _ n | function _ n =>
    simp [text, words, writeCount_eq (h n rfl), List.intercalate, ToString.toString]
  | _ => simp [text, words, List.intercalate, ToString.toString]

theorem ofDigits?_repr {n : Nat} (h : n ≤ maxCount) : ofDigits? n.repr = some n := by
  rw [ofDigits?, Text.ofDigitChars_repr]
  exact if_pos ⟨Nat.repr_ne_empty, List.all_eq_true.2 fun _ => Text.isDigit_of_mem_repr, h⟩

theorem ofWords?_words (h : instr.Legible) : ofWords? instr.words = some instr := by
  cases instr with
  | push segment i => simp [ofWords?, words, Segment.ofText?_text, ofDigits?_repr (h.number i rfl)]
  | pop segment i => simp [ofWords?, words, Segment.ofText?_text, ofDigits?_repr (h.number i rfl)]
  | operate operation => cases operation <;> rfl
  | label name | goto name | ifGoto name => simp [ofWords?, words, ofName?, (h.name name rfl).1]
  | call name n | function name n =>
    simp [ofWords?, words, ofName?, (h.name name rfl).1, ofDigits?_repr (h.number n rfl)]
  | «return» => rfl

theorem undivided_repr (n : Nat) : Undivided n.repr := by
  intro c hc
  have hdigit : c.isDigit := Text.isDigit_of_mem_repr hc
  constructor <;> rintro rfl <;> exact absurd hdigit (by decide)

theorem undivided_segment (segment : Segment) : Undivided segment.text := by
  cases segment <;> decide

theorem undivided_operation (operation : Operation) : Undivided operation.text := by
  cases operation <;> decide

theorem Legible.undivided (h : instr.Legible) : ∀ word ∈ instr.words, Undivided word := by
  have hname : ∀ name ∈ instr.name?, Undivided name := fun name hname => (h.name name hname).2
  have hpush : Undivided "push" ∧ Undivided "pop" := by decide
  have hjump : Undivided "label" ∧ Undivided "goto" ∧ Undivided "if-goto" := by decide
  have hcall : Undivided "call" ∧ Undivided "function" ∧ Undivided "return" := by decide
  cases instr with
  | push segment n | pop segment n => simp [words, hpush, undivided_segment, undivided_repr]
  | operate operation => simp [words, undivided_operation]
  | label name | goto name | ifGoto name => simp [words, hjump, hname name rfl]
  | call name n | function name n => simp [words, hcall, hname name rfl, undivided_repr]
  | «return» => simp [words, hcall]

theorem words_ne_nil (instr : Instr) : instr.words ≠ [] := by
  cases instr <;> exact List.cons_ne_nil _ _

/-- An instruction is read back from its line. -/
theorem ofLine?_text (h : instr.Legible) : ofLine? instr.text.toList = some instr := by
  have hsplit : instr.text.toList.splitOn ' ' = instr.words.map String.toList := by
    rw [toList_text h.number]
    apply List.splitOn_intercalate
    · intro word hword hblank
      obtain ⟨word, hmem, rfl⟩ := List.mem_map.1 hword
      exact (h.undivided word hmem ' ' hblank).1 rfl
    · exact fun heq => instr.words_ne_nil (List.map_eq_nil_iff.1 heq)
  have hwords : (instr.words.map String.toList).map String.ofList = instr.words := by
    simp [Function.comp_def]
  rw [ofLine?, hsplit, hwords, ofWords?_words h, Option.filter_some, h.fault?]
  rfl

/-- The line of an instruction does not end before the instruction does. -/
theorem Legible.newline_notMem (h : instr.Legible) : '\n' ∉ instr.text.toList := by
  rw [toList_text h.number]
  intro hmem
  rcases Text.mem_of_mem_intercalate hmem with hmem | ⟨_, hpart, hmem⟩
  · cases List.mem_singleton.1 hmem
  · obtain ⟨word, hword, rfl⟩ := List.mem_map.1 hpart
    exact (h.undivided word hword '\n' hmem).2 rfl

end Instr

/-! ### Listings -/

namespace Code

/-- The instructions on the lines of a text. -/
def ofText? (text : String) : Option (List Instr) := Text.readLines? Instr.ofLine? text

theorem toList_render (code : Code) :
    code.render.toList = code.toList.flatMap fun instr => instr.text.toList ++ ['\n'] := by
  have hfold : ∀ (instrs : List Instr) (text : String),
      (instrs.foldl (fun text instr => text ++ instr.text ++ "\n") text).toList =
        text.toList ++ instrs.flatMap fun instr => instr.text.toList ++ ['\n'] := by
    intro instrs
    induction instrs with
    | nil => simp
    | cons instr instrs ih =>
      intro text
      rw [List.foldl_cons, ih]
      simp
  rw [render, ← Array.foldl_toList]
  exact hfold _ _

/-- One more instruction is one more line. -/
theorem render_push (code : Code) (instr : Instr) :
    render (code.push instr) = code.render ++ instr.text ++ "\n" := by
  rw [render, Array.foldl_push, ← render]

/-- A listing is read back from its text. -/
theorem ofText?_render {code : Code} (h : ∀ instr ∈ code, instr.Legible) :
    ofText? code.render = some code.toList := by
  have h : ∀ instr ∈ code.toList, instr.Legible := fun instr hinstr =>
    h instr (Array.mem_toList_iff.1 hinstr)
  exact Text.readLines?_eq_some code.toList_render (fun instr hinstr => (h instr hinstr).newline_notMem)
    fun instr hinstr => Instr.ofLine?_text (h instr hinstr)

end Code
end JackLang
