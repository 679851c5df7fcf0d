import JackLang.Path
import Mathlib.Data.List.TakeWhile

/-! What paths are made of. A name joined to a path is the last part of the result and names it
(`parts_join`, `fileName?_join`), and a name divides at its last dot into its stem and its extension
(`splitExtension_append`, `splitExtension_cases`). -/

namespace JackLang.Path

/-- A name that a path can have for an entry of a directory. -/
structure IsName (name : String) : Prop where
  ne_empty : name ≠ ""
  ne_dot : name ≠ "."
  ne_dots : name ≠ ".."
  slash_notMem : '/' ∉ name.toList

variable {cs cs' part : List Char} {directory name name' stem ext : String}

/-! ### Parts -/

theorem split_ne_nil : split cs ≠ [] := by
  fun_cases split cs <;> simp_all

theorem split_append_slash : split (cs ++ '/' :: cs') = split cs ++ split cs' := by
  fun_induction split cs with
  | case1 => simp [split]
  | case2 cs ih => simp [split, ih]
  | case3 c cs hc hsplit => exact absurd hsplit split_ne_nil
  | case4 c cs hc part parts hsplit ih =>
    rw [List.cons_append, split, ih, hsplit]
    · simp
    · exact hc

theorem split_of_notMem (h : '/' ∉ cs) : split cs = [cs] := by
  fun_induction split cs <;> simp_all

theorem slash_notMem_of_mem_split (h : part ∈ split cs) : '/' ∉ part := by
  fun_induction split cs generalizing part <;> simp_all <;> grind

theorem parts_ne_nil {path : String} : parts path ≠ [] := by
  simpa [parts] using split_ne_nil

theorem slash_notMem_of_mem_parts {path part : String} (h : part ∈ parts path) :
    '/' ∉ part.toList := by
  obtain ⟨cs, hcs, rfl⟩ := List.mem_map.mp h
  simpa using slash_notMem_of_mem_split hcs

/-- A name is joined to a path by putting the same text before it, whatever the name. -/
theorem exists_join_eq (directory : String) :
    ∃ before : String, (before = "" ∨ ∃ path, before = path ++ "/") ∧
      ∀ name, join directory name = before ++ name := by
  unfold join
  split
  · next hlast => exact ⟨directory, .inl (by simpa using hlast), fun _ => rfl⟩
  · next hlast =>
    obtain ⟨cs, hcs⟩ := List.getLast?_eq_some_iff.mp hlast
    have hpath : directory = .ofList cs ++ "/" := String.toList_inj.mp (by simpa using hcs)
    exact ⟨directory, .inr ⟨_, hpath⟩, fun _ => rfl⟩
  · exact ⟨directory ++ "/", .inr ⟨_, rfl⟩, fun _ => rfl⟩

theorem parts_append_slash {path : String} (h : '/' ∉ name.toList) :
    parts (path ++ "/" ++ name) = parts path ++ [name] := by
  have hpath : (path ++ "/" ++ name).toList = path.toList ++ '/' :: name.toList := by simp
  rw [parts, hpath, split_append_slash, split_of_notMem h, List.map_append]
  simp [parts]

theorem parts_of_notMem (h : '/' ∉ name.toList) : parts name = [name] := by
  simp [parts, split_of_notMem h]

/-- A name joined to a path is its last part. -/
theorem parts_join (h : '/' ∉ name.toList) (directory : String) :
    ∃ before, parts (join directory name) = before ++ [name] := by
  obtain ⟨_, rfl | ⟨path, rfl⟩, hjoin⟩ := exists_join_eq directory
  · exact ⟨[], by rw [hjoin, String.empty_append, parts_of_notMem h, List.nil_append]⟩
  · exact ⟨parts path, by rw [hjoin, parts_append_slash h]⟩

theorem join_lt_join (h : name < name') : join directory name < join directory name' := by
  obtain ⟨before, -, hjoin⟩ := exists_join_eq directory
  rw [String.lt_iff] at h ⊢
  simpa only [hjoin, String.toList_append] using List.append_left_lt h

/-! ### Names -/

theorem IsName.of_mem {c : Char} (hc : c ∈ name.toList) (hdot : c ≠ '.')
    (hslash : '/' ∉ name.toList) : IsName name where
  ne_empty := by rintro rfl; simp at hc
  ne_dot := by rintro rfl; simp [hdot] at hc
  ne_dots := by rintro rfl; simp [hdot] at hc
  slash_notMem := hslash

theorem fileName?_of_parts {path : String} {before : List String} (hname : IsName name)
    (h : parts path = before ++ [name]) : fileName? path = some name := by
  have hlast : ((parts path).filter fun part => part ≠ "" ∧ part ≠ ".").getLast? = some name := by
    simp [h, List.filter_append, hname.ne_empty, hname.ne_dot]
  rw [fileName?, hlast]
  split
  · next heq => exact absurd (Option.some.inj heq) hname.ne_dots
  · rfl

theorem fileName?_join (h : IsName name) : fileName? (join directory name) = some name := by
  obtain ⟨_, hparts⟩ := parts_join h.slash_notMem directory
  exact fileName?_of_parts h hparts

/-! ### Extensions -/

theorem splitExtension_append (hstem : stem ≠ "") (hext : '.' ∉ ext.toList) :
    splitExtension (stem ++ "." ++ ext) = (stem, some ext) := by
  have hback : (stem ++ "." ++ ext).toList.reverse =
      ext.toList.reverse ++ '.' :: stem.toList.reverse := by
    simp
  have hall : ∀ c ∈ ext.toList.reverse, decide (c ≠ '.') = true := by
    simp only [List.mem_reverse, decide_eq_true_eq]
    rintro _ hc rfl
    exact hext hc
  have hne : stem.toList.reverse ≠ [] := by simpa using hstem
  rw [splitExtension, hback, List.dropWhile_append_of_pos hall, List.takeWhile_append_of_pos hall]
  cases hs : stem.toList.reverse with
  | nil => contradiction
  | cons c cs => simp [← hs]

/-- A name divides at its last dot, unless that is where it starts. -/
theorem splitExtension_cases (name : String) :
    splitExtension name = (name, none) ∨
      ∃ stem ext, stem ≠ "" ∧ '.' ∉ ext.toList ∧ name = stem ++ "." ++ ext ∧
        splitExtension name = (stem, some ext) := by
  rw [splitExtension]
  split
  · exact .inl rfl
  · exact .inl rfl
  · next dot stem hstem hdrop =>
    have hdot : decide (dot ≠ '.') = false := by
      have h := List.head?_dropWhile_not (decide <| · ≠ '.') name.toList.reverse
      rwa [hdrop] at h
    obtain rfl : dot = '.' := by simpa using hdot
    have hback := List.takeWhile_append_dropWhile (p := (decide <| · ≠ '.'))
      (l := name.toList.reverse)
    have hext : ∀ c ∈ name.toList.reverse.takeWhile (decide <| · ≠ '.'), c ≠ '.' :=
      fun c hc => by simpa using List.mem_takeWhile_imp hc
    rw [hdrop] at hback
    generalize name.toList.reverse.takeWhile (decide <| · ≠ '.') = ext at hback hext
    refine .inr ⟨_, _, ?_, ?_, ?_, rfl⟩
    · simpa using hstem
    · simpa using fun h => hext _ h rfl
    · apply String.toList_inj.mp
      rw [← List.reverse_inj, ← hback]
      simp

/-- The entries of a directory that have an extension are those that end in it after a stem. -/
theorem extension?_eq_some_iff (hname : IsName name) (hext : '.' ∉ ext.toList) :
    extension? name = some ext ↔ ∃ stem, stem ≠ "" ∧ name = stem ++ "." ++ ext := by
  have hfile : fileName? name = some name :=
    fileName?_of_parts hname (List.nil_append [name] ▸ parts_of_notMem hname.slash_notMem)
  rw [extension?, hfile, Option.bind_some]
  constructor
  · intro h
    obtain hnone | ⟨stem, ext', hstem, -, hname', hsome⟩ := splitExtension_cases name
    · simp [hnone] at h
    · obtain rfl : ext' = ext := by simpa [hsome] using h
      exact ⟨stem, hstem, hname'⟩
  · rintro ⟨stem, hstem, rfl⟩
    rw [splitExtension_append hstem hext]

theorem slash_notMem_stem (h : '/' ∉ name.toList) : '/' ∉ (splitExtension name).1.toList := by
  obtain hnone | ⟨stem, ext, -, -, rfl, hsome⟩ := splitExtension_cases name
  · rwa [hnone]
  · rw [hsome]
    simp_all

end JackLang.Path
