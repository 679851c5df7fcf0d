import JackLang.Proofs.Text
import JackLang.Trace

/-! Traces as documents. The event of a line is read back from its text (`Trace.Event.ofText?_text`),
and so are the rows of a trace, each with its indentation (`Trace.ofText?_render`). In a `Trace.Document`
every tag is closed by its like, and every row is indented by two blanks for each tag that is open
around it. -/

namespace JackLang

/-! ### Values -/

namespace Text

/-- The text that characters with entities among them are written for. -/
def unescape : List Char → List Char
  | '&' :: 'l' :: 't' :: ';' :: cs => '<' :: unescape cs
  | '&' :: 'g' :: 't' :: ';' :: cs => '>' :: unescape cs
  | '&' :: 'a' :: 'm' :: 'p' :: ';' :: cs => '&' :: unescape cs
  | '&' :: 'q' :: 'u' :: 'o' :: 't' :: ';' :: cs => '"' :: unescape cs
  | c :: cs => c :: unescape cs
  | [] => []

theorem unescape_cons {c : Char} (h : c ≠ '&') (cs : List Char) :
    unescape (c :: cs) = c :: unescape cs := by
  rw [unescape] <;> exact fun _ hc => absurd hc h

theorem unescape_escapeChar (c : Char) (cs : List Char) :
    unescape (escapeChar c ++ cs) = c :: unescape cs := by
  unfold escapeChar
  split
  · rfl
  · rfl
  · rfl
  · rfl
  · next h _ => exact unescape_cons h cs

/-- A text is read back from its escaped form. -/
theorem unescape_escape (s : String) : unescape (escape s).toList = s.toList := by
  rw [escape, String.toList_ofList]
  induction s.toList with
  | nil => rfl
  | cons c cs ih => rw [List.flatMap_cons, unescape_escapeChar, ih]

theorem notMem_escapeChar (c : Char) :
    '<' ∉ escapeChar c ∧ (c ≠ '\n' → '\n' ∉ escapeChar c) := by
  unfold escapeChar
  split <;> simp_all [eq_comm]

/-- An escaped text has none of the characters that divide a document. -/
theorem notMem_escape (s : String) :
    '<' ∉ (escape s).toList ∧ ('\n' ∉ s.toList → '\n' ∉ (escape s).toList) := by
  rw [escape, String.toList_ofList]
  refine ⟨fun h => ?_, fun hs h => ?_⟩
  · obtain ⟨c, -, hc⟩ := List.mem_flatMap.1 h
    exact (notMem_escapeChar c).1 hc
  · obtain ⟨c, hmem, hc⟩ := List.mem_flatMap.1 h
    exact (notMem_escapeChar c).2 (fun heq => hs (heq ▸ hmem)) hc

end Text

/-! ### Words of a tag -/

namespace Category

def all : List Category := [keyword, symbol, integerConstant, stringConstant, identifier]

def ofText? (word : String) : Option Category := all.find? (·.text == word)

theorem ofText?_text (category : Category) : ofText? category.text = some category := by
  cases category <;> decide

end Category

theorem VarKind.ofText?_text (kind : VarKind) : ofText? kind.text = some kind := by
  cases kind <;> decide

namespace Trace

theorem Role.ofText?_text (role : Role) : ofText? role.text = some role := by
  cases role <;> decide

/-- A word of a tag that names a value. -/
def quoted (name value : String) : String := name ++ "=\"" ++ value ++ "\""

/-- The value of an attribute. -/
def quoted? (name word : String) : Option String :=
  match word.toList.splitOn '"' with
  | [head, value, []] => if head = name.toList ++ ['='] then some (.ofList value) else none
  | _ => none

theorem quoted?_quoted {name value : String} (hname : '"' ∉ name.toList)
    (hvalue : '"' ∉ value.toList) : quoted? name (quoted name value) = some value := by
  have hsplit : (quoted name value).toList.splitOn '"' =
      [name.toList ++ ['='], value.toList, []] := by
    have htext : (quoted name value).toList =
        ['"'].intercalate [name.toList ++ ['='], value.toList, []] := by
      simp [quoted, List.intercalate_cons_cons]
    rw [htext]
    apply List.splitOn_intercalate
    · simp [hname, hvalue]
    · exact List.cons_ne_nil _ _
  rw [quoted?, hsplit]
  simp

/-- A decimal number. -/
def digits? (word : String) : Option Nat :=
  if word ≠ "" ∧ word.toList.all Char.isDigit then some (Nat.ofDigitChars 10 word.toList 0) else none

theorem digits?_repr (n : Nat) : digits? n.repr = some n := by
  rw [digits?, Text.ofDigitChars_repr]
  exact if_pos ⟨Nat.repr_ne_empty, List.all_eq_true.2 fun _ => Text.isDigit_of_mem_repr⟩

/-- Whether a name is declared or used. -/
def stateText (defined : Bool) : String := if defined then "defined" else "used"

def state? : String → Option Bool
  | "defined" => some true
  | "used" => some false
  | _ => none

theorem state?_stateText (defined : Bool) : state? (stateText defined) = some defined := by
  cases defined <;> rfl

/-! ### Events of tokens -/

namespace Event

/-- What stands in the tag before a token, word by word. -/
def words : Event → List String
  | terminal category _ => [category.text]
  | identifier _ role binding defined =>
    "identifier" :: quoted "category" role.text :: ((match binding with
      | none => []
      | some (kind, index) => [quoted "kind" kind.text, quoted "index" index.repr]) ++
        [stateText defined])
  | «open» _ | close _ => []

/-- The token that an event shows, as it is listed. -/
def token? : Event → Option (Category × String)
  | terminal category value => some (category, value)
  | identifier name _ _ _ => some (.identifier, name)
  | «open» _ | close _ => none

/-- The event of a token, from the words of its tag and its value. -/
def ofWords? (value : String) : List String → Option Event
  | [word] => (Category.ofText? word).map (.terminal · value)
  | ["identifier", category, state] => do
    let role ← (quoted? "category" category).bind Role.ofText?
    return .identifier value role none (← state? state)
  | ["identifier", category, kind, index, state] => do
    let role ← (quoted? "category" category).bind Role.ofText?
    let kind ← (quoted? "kind" kind).bind VarKind.ofText?
    let index ← (quoted? "index" index).bind digits?
    return .identifier value role (some (kind, index)) (← state? state)
  | _ => none

theorem ofWords?_words {event : Event} {category : Category} {value : String}
    (h : event.token? = some (category, value)) : ofWords? value event.words = some event := by
  have hrole (role : Role) : (quoted? "category" (quoted "category" role.text)).bind
      Role.ofText? = some role := by
    rw [quoted?_quoted (by decide) (by cases role <;> decide)]
    exact Role.ofText?_text role
  have hkind (kind : VarKind) : (quoted? "kind" (quoted "kind" kind.text)).bind
      VarKind.ofText? = some kind := by
    rw [quoted?_quoted (by decide) (by cases kind <;> decide)]
    exact VarKind.ofText?_text kind
  have hindex (index : Nat) : (quoted? "index" (quoted "index" index.repr)).bind digits? =
      some index := by
    have hquote : '"' ∉ index.repr.toList := fun hmem =>
      absurd (Text.isDigit_of_mem_repr hmem) (by decide)
    rw [quoted?_quoted (by decide) hquote]
    exact digits?_repr index
  cases event with
  | «open» | close => cases h
  | terminal =>
    cases h
    rw [words, ofWords?, Category.ofText?_text, Option.map_some]
  | identifier name role binding defined =>
    cases h
    cases binding with
    | none => simp [words, ofWords?, hrole, state?_stateText]
    | some binding =>
      obtain ⟨kind, index⟩ := binding
      simp [words, ofWords?, hrole, hkind, hindex, state?_stateText]

/-! ### Lines -/

/-- The event of a tag alone. -/
def ofTag : List Char → Event
  | '/' :: tag => .close (.ofList tag)
  | tag => .open (.ofList tag)

/-- The event of a line, without its indentation: a tag alone, or a token between two tags. -/
def ofText? : List Char → Option Event
  | '<' :: chars =>
    let head := chars.takeWhile (· ≠ '>')
    match chars.dropWhile (· ≠ '>') with
    | ['>'] => some (ofTag head)
    | '>' :: ' ' :: content =>
      let words := (head.splitOn ' ').map .ofList
      let value := content.takeWhile (· ≠ '<')
      if value.getLast? = some ' ' ∧
          content.dropWhile (· ≠ '<') = '<' :: '/' :: (words.headD "").toList ++ ['>'] then
        ofWords? (.ofList (Text.unescape value.dropLast)) words
      else none
    | _ => none
  | _ => none

/-- A tag of letters. -/
def IsTag (tag : String) : Prop := ∀ c ∈ tag.toList, c.isAlpha

instance : DecidablePred IsTag := fun tag => List.decidableBAll _ tag.toList

/-- An event that its line tells. -/
def Legible : Event → Prop
  | «open» tag | close tag => IsTag tag
  | terminal _ value | identifier value _ _ _ => '\n' ∉ value.toList

theorem IsTag.ne {tag : String} (h : IsTag tag) {c : Char} (hc : ¬ c.isAlpha) :
    ∀ c' ∈ tag.toList, c' ≠ c := by
  rintro c' hc' rfl
  exact hc (h c' hc')

/-- A word that stands in a tag. -/
def Inner (word : String) : Prop := ∀ c ∈ word.toList, c ≠ ' ' ∧ c ≠ '>' ∧ c ≠ '\n'

instance : DecidablePred Inner := fun word => List.decidableBAll _ word.toList

theorem inner_append_iff {a b : String} : Inner (a ++ b) ↔ Inner a ∧ Inner b := by
  rw [Inner, String.toList_append, List.forall_mem_append, Inner, Inner]

theorem inner_quoted {name value : String} (hname : Inner name) (hvalue : Inner value) :
    Inner (quoted name value) := by
  rw [quoted, inner_append_iff, inner_append_iff, inner_append_iff]
  exact ⟨⟨⟨hname, by decide⟩, hvalue⟩, by decide⟩

theorem inner_words (event : Event) : ∀ word ∈ event.words, Inner word := by
  cases event with
  | «open» | close => exact List.forall_mem_nil _
  | terminal category => cases category <;> simp [words] <;> decide
  | identifier name role binding defined =>
    have hrole : Inner (quoted "category" role.text) :=
      inner_quoted (by decide) (by cases role <;> decide)
    have hstate : Inner (stateText defined) := by cases defined <;> decide
    have hname : Inner "identifier" := by decide
    cases binding with
    | none => simp [words, hname, hrole, hstate]
    | some binding =>
      obtain ⟨kind, index⟩ := binding
      have hkind : Inner (quoted "kind" kind.text) :=
        inner_quoted (by decide) (by cases kind <;> decide)
      have hindex : Inner (quoted "index" index.repr) := by
        refine inner_quoted (by decide) fun c hc => ?_
        have hdigit := Text.isDigit_of_mem_repr hc
        refine ⟨?_, ?_, ?_⟩ <;> rintro rfl <;> exact absurd hdigit (by decide)
      simp [words, hname, hrole, hkind, hindex, hstate]

/-- The words of a tag with blanks between them. -/
def tag (event : Event) : List Char := [' '].intercalate (event.words.map String.toList)

theorem mem_tag {event : Event} {c : Char} (h : c ∈ event.tag) : c ≠ '>' ∧ c ≠ '\n' := by
  rcases Text.mem_of_mem_intercalate h with h | ⟨_, hpart, h⟩
  · rw [List.mem_singleton.1 h]
    decide
  · obtain ⟨word, hword, rfl⟩ := List.mem_map.1 hpart
    exact (inner_words event word hword c h).2

theorem splitOn_tag {event : Event} (h : event.words ≠ []) :
    event.tag.splitOn ' ' = event.words.map String.toList := by
  refine List.splitOn_intercalate _ ?_ (mt List.map_eq_nil_iff.1 h)
  exact List.forall_mem_map.2 fun word hword hmem => (inner_words event word hword _ hmem).1 rfl

/-! ### Texts of events -/

theorem text_terminal (category : Category) (value : String) :
    (terminal category value).text =
      "<" ++ category.text ++ "> " ++ Text.escape value ++ " </" ++ category.text ++ ">" := rfl

theorem text_identifier (name : String) (role : Role) (binding : Option (VarKind × Nat))
    (defined : Bool) : (identifier name role binding defined).text =
      "<identifier category=\"" ++ role.text ++ "\"" ++ bindingText binding ++ " " ++
        stateText defined ++ "> " ++ (Text.escape name ++ " </identifier>") := rfl

theorem bindingText_some (kind : VarKind) (index : Nat) :
    bindingText (some (kind, index)) =
      " kind=\"" ++ kind.text ++ "\" index=\"" ++ index.repr ++ "\"" := rfl

section token

variable {event : Event} {category : Category} {value : String}

/-- The text of a token: a tag, the value, and the tag that closes. -/
theorem toList_text (h : event.token? = some (category, value)) :
    event.text.toList = '<' :: (event.tag ++ '>' :: ' ' ::
      ((Text.escape value).toList ++ ' ' :: '<' :: '/' :: (category.text.toList ++ ['>']))) := by
  cases event with
  | «open» | close => cases h
  | terminal =>
    simp only [token?, Option.some.injEq, Prod.mk.injEq] at h
    rw [text_terminal, h.1, h.2]
    simp [tag, words]
  | identifier name role binding defined =>
    simp only [token?, Option.some.injEq, Prod.mk.injEq] at h
    rw [text_identifier, ← h.1, ← h.2]
    have hcategory : Category.identifier.text = "identifier" := rfl
    cases binding with
    | none => simp [bindingText, tag, words, quoted, hcategory, List.intercalate_cons_cons]
    | some binding =>
      rw [bindingText_some]
      simp [tag, words, quoted, hcategory, List.intercalate_cons_cons]

theorem exists_words_eq (h : event.token? = some (category, value)) :
    ∃ words, event.words = category.text :: words := by
  cases event with
  | «open» | close => cases h
  | terminal | identifier =>
    simp only [token?, Option.some.injEq, Prod.mk.injEq] at h
    exact ⟨_, by rw [← h.1]; rfl⟩

theorem ofText?_token (h : event.token? = some (category, value)) :
    ofText? event.text.toList = some event := by
  obtain ⟨rest, hrest⟩ := exists_words_eq h
  have htag : ∀ c ∈ event.tag, (c ≠ '>' : Bool) := fun c hc => decide_eq_true (mem_tag hc).1
  have hwords : (event.tag.splitOn ' ').map String.ofList = event.words := by
    rw [splitOn_tag (hrest ▸ List.cons_ne_nil _ _)]
    simp
  have hvalue : ∀ c ∈ (Text.escape value).toList ++ [' '], (c ≠ '<' : Bool) := by
    refine List.forall_mem_append.2
      ⟨fun c hc => decide_eq_true ?_, List.forall_mem_singleton.2 rfl⟩
    rintro rfl
    exact (Text.notMem_escape value).1 hc
  -- The blank behind the value stands before the next tag, so the value is read with it.
  have htext : event.text.toList = '<' :: (event.tag ++ '>' :: ' ' ::
      (((Text.escape value).toList ++ [' ']) ++ '<' :: '/' :: (category.text.toList ++ ['>']))) := by
    rw [toList_text h, List.append_assoc, List.singleton_append]
  have hcategory : (event.words.headD "").toList = category.text.toList := by
    rw [hrest, List.headD_cons]
  rw [htext, ofText?, List.takeWhile_append_of_pos htag, List.dropWhile_append_of_pos htag]
  simp only [List.takeWhile_append_of_pos hvalue, List.dropWhile_append_of_pos hvalue,
    List.takeWhile_cons, List.dropWhile_cons, ne_eq, not_true_eq_false, decide_false,
    Bool.false_eq_true, if_false, List.append_nil, hwords, hcategory, List.getLast?_concat,
    List.dropLast_concat, Text.unescape_escape, String.ofList_toList, ofWords?_words h]
  exact if_pos ⟨trivial, rfl⟩

end token

section brackets

variable {tag : String}

theorem toList_text_open : (Event.open tag).text.toList = '<' :: (tag.toList ++ ['>']) := by
  have htext : (Event.open tag).text = "<" ++ tag ++ ">" := rfl
  simp [htext]

theorem toList_text_close :
    (Event.close tag).text.toList = '<' :: ('/' :: tag.toList ++ ['>']) := by
  have htext : (Event.close tag).text = "</" ++ tag ++ ">" := rfl
  simp [htext]

theorem ofText?_brackets {cs : List Char} (h : ∀ c ∈ cs, c ≠ '>') :
    ofText? ('<' :: (cs ++ ['>'])) = some (ofTag cs) := by
  have hcs : ∀ c ∈ cs, (c ≠ '>' : Bool) := fun c hc => decide_eq_true (h c hc)
  rw [ofText?, List.takeWhile_append_of_pos hcs, List.dropWhile_append_of_pos hcs]
  simp only [List.takeWhile_cons, List.dropWhile_cons, ne_eq, not_true_eq_false, decide_false,
    Bool.false_eq_true, if_false, List.append_nil]

theorem ofTag_of_isTag (h : IsTag tag) : ofTag tag.toList = .open tag := by
  unfold ofTag
  split
  · next heq => exact absurd rfl (h.ne (c := '/') (by decide) '/' (heq ▸ List.mem_cons_self))
  · rw [String.ofList_toList]

end brackets

/-- An event is read back from its text. -/
theorem ofText?_text {event : Event} (h : event.Legible) : ofText? event.text.toList = some event := by
  cases event with
  | «open» tag =>
    have htag : IsTag tag := h
    rw [toList_text_open, ofText?_brackets (htag.ne (by decide)), ofTag_of_isTag htag]
  | close tag =>
    have htag : IsTag tag := h
    have hslash : ∀ c ∈ '/' :: tag.toList, c ≠ '>' :=
      List.forall_mem_cons.2 ⟨by decide, htag.ne (by decide)⟩
    rw [toList_text_close, ofText?_brackets hslash, ofTag, String.ofList_toList]
  | terminal | identifier => exact ofText?_token rfl

theorem newline_notMem {event : Event} (h : event.Legible) : '\n' ∉ event.text.toList := by
  have htoken {category : Category} {value : String} (hvalue : '\n' ∉ value.toList)
      (h : event.token? = some (category, value)) : '\n' ∉ event.text.toList := by
    have htag : '\n' ∉ event.tag := fun hmem => (mem_tag hmem).2 rfl
    have hescape := (Text.notMem_escape value).2 hvalue
    have hcategory : '\n' ∉ category.text.toList := by cases category <;> decide
    simp [toList_text h, htag, hescape, hcategory]
  cases event with
  | «open» tag =>
    have htag : '\n' ∉ tag.toList := fun hmem => IsTag.ne h (by decide) _ hmem rfl
    simp [toList_text_open, htag]
  | close tag =>
    have htag : '\n' ∉ tag.toList := fun hmem => IsTag.ne h (by decide) _ hmem rfl
    simp [toList_text_close, htag]
  | terminal | identifier => exact htoken h rfl

theorem exists_text_eq (event : Event) : ∃ cs, event.text.toList = '<' :: cs := by
  cases event with
  | «open» => exact ⟨_, toList_text_open⟩
  | close => exact ⟨_, toList_text_close⟩
  | terminal | identifier => exact ⟨_, toList_text rfl⟩

end Event

/-! ### Rows -/

/-- A line of a trace: blanks and an event. -/
structure Row where
  indent : Nat
  event : Event
deriving DecidableEq, Repr

namespace Row

def text (row : Row) : List Char := List.replicate row.indent ' ' ++ row.event.text.toList

def ofText? (line : List Char) : Option Row :=
  (Event.ofText? (line.dropWhile (· = ' '))).map (.mk (line.takeWhile (· = ' ')).length)

/-- A row is read back from its text. -/
theorem ofText?_text {row : Row} (h : row.event.Legible) : ofText? row.text = some row := by
  obtain ⟨cs, hcs⟩ := row.event.exists_text_eq
  have hblank : ∀ c ∈ List.replicate row.indent ' ', (c = ' ' : Bool) := fun c hc =>
    decide_eq_true (List.eq_of_mem_replicate hc)
  have hdrop : (row.event.text.toList).dropWhile (· = ' ') = row.event.text.toList := by
    rw [hcs]
    rfl
  have htake : (row.event.text.toList).takeWhile (· = ' ') = [] := by
    rw [hcs]
    rfl
  rw [ofText?, text, List.dropWhile_append_of_pos hblank, List.takeWhile_append_of_pos hblank, hdrop,
    htake, Event.ofText?_text h, List.append_nil, List.length_replicate]
  rfl

example : ofText? "  <symbol> &lt; </symbol>".toList = some ⟨2, .terminal .symbol "<"⟩ := by
  decide

theorem newline_notMem {row : Row} (h : row.event.Legible) : '\n' ∉ row.text := by
  rw [text, List.mem_append, List.mem_replicate]
  rintro (⟨-, hc⟩ | hc)
  · cases hc
  · exact Event.newline_notMem h hc

end Row

/-- The rows of some events, where `depth` tags are open. -/
def rows (depth : Nat) : List Event → List Row
  | [] => []
  | event :: events => ⟨2 * (event.depths depth).1, event⟩ :: rows (event.depths depth).2 events

theorem map_event_rows (depth : Nat) (events : List Event) :
    (rows depth events).map (·.event) = events := by
  induction events generalizing depth with
  | nil => rfl
  | cons event events ih => rw [rows, List.map_cons, ih]

/-- A trace has one line for each of its rows. -/
theorem toList_render (events : Array Event) :
    (render events).toList = (rows 0 events.toList).flatMap (·.text ++ ['\n']) := by
  suffices ∀ (events : List Event) (text : String) (depth : Nat),
      (events.foldl (fun state event =>
        (state.1.pushn ' ' (2 * (event.depths state.2).1) ++ event.text ++ "\n",
          (event.depths state.2).2)) (text, depth)).1.toList =
      text.toList ++ (rows depth events).flatMap (·.text ++ ['\n']) by
    rw [render, ← Array.foldl_toList]
    exact this events.toList "" 0
  intro events
  induction events with
  | nil => simp [rows]
  | cons event events ih =>
    intro text depth
    rw [List.foldl_cons, ih, rows, List.flatMap_cons]
    simp [Row.text, Text.toList_pushn]

/-- The rows that a trace is written for. -/
def ofText? (text : String) : Option (List Row) := Text.readLines? Row.ofText? text

/-- A trace is read back from its text. -/
theorem ofText?_render {events : Array Event} (h : ∀ event ∈ events.toList, event.Legible) :
    ofText? (render events) = some (rows 0 events.toList) := by
  have hrows : ∀ row ∈ rows 0 events.toList, row.event.Legible := fun row hrow =>
    h row.event (map_event_rows 0 events.toList ▸ List.mem_map_of_mem hrow)
  exact Text.readLines?_eq_some (toList_render events)
    (fun row hrow => Row.newline_notMem (hrows row hrow))
    (fun row hrow => Row.ofText?_text (hrows row hrow))

/-! ### Documents -/

/-- What stands where `depth` tags are open: tokens, and elements with their contents. -/
inductive Content : Nat → List Row → Prop
  | nil (depth : Nat) : Content depth []
  | token {depth : Nat} {event : Event} {rows : List Row} : event.token?.isSome →
    Content depth rows → Content depth (⟨2 * depth, event⟩ :: rows)
  | element {depth : Nat} {tag : String} {inside rows : List Row} : Content (depth + 1) inside →
    Content depth rows →
      Content depth (⟨2 * depth, .open tag⟩ :: (inside ++ ⟨2 * depth, .close tag⟩ :: rows))

/-- A document is an element alone. -/
def Document (tag : String) (rows : List Row) : Prop :=
  ∃ inside, Content 1 inside ∧ rows = ⟨0, .open tag⟩ :: (inside ++ [⟨0, .close tag⟩])

/-- The events of tokens among those of some rows. -/
def terminals (rows : List Row) : List Event := (rows.map (·.event)).filter (·.token?.isSome)

end Trace
end JackLang
