import JackLang.Proofs.Text
import JackLang.Source

/-! A text that is read as bytes. Its lines are told apart by single bytes, which occur in no other
character, so the lines read from the bytes are those of the text (`Line.ofChunks_toUTF8`). -/

namespace JackLang

/-! ### Bytes of characters -/

namespace Text

variable {cs : List Char} {c : Char} {b : UInt8}

/-- The bytes of characters. -/
def encode (cs : List Char) : List UInt8 := cs.flatMap String.utf8EncodeChar

theorem encode_append (cs ds : List Char) : encode (cs ++ ds) = encode cs ++ encode ds :=
  List.flatMap_append

theorem encode_singleton (c : Char) : encode [c] = String.utf8EncodeChar c := List.append_nil _

theorem toByteArray_encode (cs : List Char) :
    (⟨(encode cs).toArray⟩ : ByteArray) = (String.ofList cs).toByteArray := by
  rw [String.toByteArray_ofList, List.utf8Encode, ← encode]
  apply ByteArray.ext
  rw [← Array.toList_inj, List.toList_data_toByteArray]

theorem encode_toList (s : String) : encode s.toList = s.toUTF8.data.toList := by
  have h := congrArg (·.data.toList) (toByteArray_encode s.toList)
  rwa [String.ofList_toList, ← String.toUTF8_eq_toByteArray] at h

/-- The bytes of a character are one that stands for it, or several that stand for none. -/
theorem utf8EncodeChar_cases (c : Char) :
    (∃ b, String.utf8EncodeChar c = [b] ∧ b.toNat = c.toNat) ∨
      128 ≤ c.toNat ∧ String.utf8EncodeChar c ≠ [] ∧
        ∀ b ∈ String.utf8EncodeChar c, 128 ≤ b.toNat := by
  have hc : c.toNat = c.val.toNat := rfl
  rw [String.utf8EncodeChar]
  split
  · refine .inl ⟨_, rfl, ?_⟩
    rw [UInt8.toNat_ofNat']
    omega
  · refine .inr ⟨by omega, ?_, ?_⟩
    · split
      · exact List.cons_ne_nil _ _
      · split <;> exact List.cons_ne_nil _ _
    · split
      · simp only [List.mem_cons, List.not_mem_nil, or_false, forall_eq_or_imp, forall_eq,
          UInt8.toNat_ofNat']
        omega
      · split
        · simp only [List.mem_cons, List.not_mem_nil, or_false, forall_eq_or_imp, forall_eq,
          UInt8.toNat_ofNat']
          omega
        · simp only [List.mem_cons, List.not_mem_nil, or_false, forall_eq_or_imp, forall_eq,
          UInt8.toNat_ofNat']
          omega

/-- A byte below 128 is found where its character is. -/
theorem mem_encode_iff {b : UInt8} {c : Char} (hb : b.toNat = c.toNat) (hc : c.toNat < 128) :
    b ∈ encode cs ↔ c ∈ cs := by
  rw [encode, List.mem_flatMap]
  constructor
  · rintro ⟨d, hd, hmem⟩
    rcases utf8EncodeChar_cases d with ⟨b', hbytes, hb'⟩ | ⟨-, -, hlarge⟩
    · rw [hbytes, List.mem_singleton] at hmem
      have heq : c = d := Char.toNat_inj.1 (hb.symm.trans (hmem ▸ hb'))
      exact heq ▸ hd
    · have := hlarge b hmem
      omega
  · intro hmem
    refine ⟨c, hmem, ?_⟩
    rcases utf8EncodeChar_cases c with ⟨b', hbytes, hb'⟩ | ⟨hlarge, -⟩
    · rw [hbytes, List.mem_singleton]
      exact UInt8.toNat_inj.1 (hb.trans hb'.symm)
    · omega

/-- A carriage return at the end of a line is one at the end of its bytes. -/
theorem chomp_encode (line : List Char) : chomp 13 (encode line) = encode (chomp '\r' line) := by
  rcases List.eq_nil_or_concat line with rfl | ⟨line, c, rfl⟩
  · rfl
  rw [List.concat_eq_append, encode_append, encode_singleton, chomp_concat]
  rcases utf8EncodeChar_cases c with ⟨b, hbytes, hb⟩ | ⟨hc, hne, hlarge⟩
  · have hiff : b = 13 ↔ c = '\r' := by
      rw [← UInt8.toNat_inj, hb]
      exact Char.toNat_inj (d := '\r')
    rw [hbytes, chomp_concat]
    simp only [hiff]
    split
    · rfl
    · rw [encode_append, encode_singleton, hbytes]
  · obtain hnil | ⟨bytes, b, hbytes⟩ := List.eq_nil_or_concat (String.utf8EncodeChar c)
    · exact absurd hnil hne
    rw [List.concat_eq_append] at hbytes
    have hb : b ≠ 13 := by
      rintro rfl
      exact absurd (hlarge 13 (by simp [hbytes])) (by decide)
    have hret : c ≠ '\r' := by
      rintro rfl
      exact absurd hc (by decide)
    rw [if_neg hret, encode_append, encode_singleton, hbytes, ← List.append_assoc, chomp_concat,
      if_neg hb]

theorem encode_eq_nil_iff : encode cs = [] ↔ cs = [] := by
  refine ⟨fun h => ?_, by rintro rfl; rfl⟩
  cases cs with
  | nil => rfl
  | cons c cs =>
    rcases utf8EncodeChar_cases c with ⟨b, hbytes, -⟩ | ⟨-, hne, -⟩
    · rw [encode, List.flatMap_cons, hbytes] at h
      cases h
    · rw [encode, List.flatMap_cons] at h
      exact absurd (List.append_eq_nil_iff.1 h).1 hne

/-- The lines of the bytes are the bytes of the lines. -/
theorem terminatedLines_encode (cs : List Char) : terminatedLines 10 13 (encode cs) =
    ((terminatedLines '\n' '\r' cs).1.map encode, encode (terminatedLines '\n' '\r' cs).2) := by
  have hfeed {line : List Char} (hline : '\n' ∉ line) : 10 ∉ encode line :=
    fun hmem => hline ((mem_encode_iff rfl (by decide)).1 hmem)
  induction cs using lines_induction with
  | last line hline =>
    rw [terminatedLines_of_notMem hline, terminatedLines_of_notMem (hfeed hline)]
    rfl
  | line line rest hline ih =>
    have hbytes : encode (line ++ '\n' :: rest) = encode line ++ 10 :: encode rest := by
      rw [encode_append]
      rfl
    rw [hbytes, terminatedLines_line (hfeed hline), terminatedLines_line hline, chomp_encode, ih]
    rfl

end Text

/-! ### Lines -/

namespace Line

theorem ofBytes_encode (cs : List Char) : ofBytes (Text.encode cs) = text cs := by
  have hutf8 : String.fromUTF8? (String.ofList cs).toByteArray = some (String.ofList cs) := by
    rw [String.fromUTF8?, dif_pos (String.ofList cs).isValidUTF8]
    rfl
  rw [ofBytes, Text.toByteArray_encode, hutf8]
  exact congrArg text String.toList_ofList

/-- **A text and its bytes.** A reader of the bytes of a text delivers the lines of the text. -/
theorem ofChunks_toUTF8 (source : String) :
    ofChunks [.bytes source.toUTF8.data.toList] = ofText source := by
  rw [← Text.encode_toList, ofChunks, ofChunks.go, List.nil_append, Text.terminatedLines_encode,
    ofText, Text.splitLines]
  generalize Text.terminatedLines '\n' '\r' source.toList = lines
  obtain ⟨lines, last⟩ := lines
  have hlines : (lines.map Text.encode).map ofBytes = lines.map text := by
    rw [List.map_map]
    exact List.map_congr_left fun line _ => ofBytes_encode line
  dsimp only
  rw [hlines, ofChunks.go]
  cases last with
  | nil => exact List.append_nil _
  | cons c last =>
    have hne : (Text.encode (c :: last)).isEmpty = false := by
      simp [List.isEmpty_eq_false_iff, Text.encode_eq_nil_iff]
    rw [hne, ofBytes_encode, List.map_append]
    rfl

end Line

end JackLang
