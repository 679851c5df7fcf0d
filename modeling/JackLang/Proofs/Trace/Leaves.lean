import JackLang.Proofs.Syntax.Enclosure
import JackLang.Proofs.Trace.Document
import JackLang.Trace.Productions

/-! What the events of a trace show. An event of a name carries the declaration that the name resolves
to where it stands (`Trace.Event.Shows`); events that show some leaves in their order, with tags around
them that nest, are `Trace.Written` for the leaves. -/

namespace JackLang

open Syntax (Leaf Outline)

/-! ### Resolution of a name at a place -/

namespace Syntax.Outline

/-- The kind and the index of a name in one scope. The index is the number of names of the same kind
that are declared before it. -/
def resolveIn? (ds : List (String × VarKind)) (name : String) : Option (VarKind × Nat) :=
  ((ds.mapIdx fun i d => (d.1, d.2, (ds.take i).countP (·.2 = d.2))).find? (·.1 = name)).map (·.2)

/-- The kind and the index of a name; the names of the subroutine come first. -/
def resolve? (o : Outline) (name : String) : Option (VarKind × Nat) :=
  (resolveIn? o.subroutineLevel name).or (resolveIn? o.classLevel name)

theorem resolveIn?_map (ds : List Declared) (name : String) :
    resolveIn? (ds.map fun d => (d.name, d.kind)) name =
      (Declared.find? ds name).map fun v => (v.kind, v.index) := by
  have hnumbered : ((ds.map fun d => (d.name, d.kind)).mapIdx fun i d =>
      (d.1, d.2, ((ds.map fun d => (d.name, d.kind)).take i).countP (·.2 = d.2))) =
      (Declared.numbered ds).map fun v => (v.name, v.kind, v.index) := by
    apply List.ext_getElem
    · simp [Declared.numbered]
    · intro i _ _
      simp [Declared.numbered, ← List.map_take, List.countP_map, Declared.count, Function.comp_def]
  rw [resolveIn?, hnumbered, List.find?_map, Declared.find?, Option.map_map]
  rfl

end Syntax.Outline

namespace Environment

variable {env : Environment} {kind? : Option SubroutineKind} {name : String} {d : Declared}

theorem resolve?_outline :
    (env.outline kind?).resolve? name = (env.find? name).map fun v => (v.kind, v.index) := by
  rw [Outline.resolve?, outline, Outline.resolveIn?_map, Outline.resolveIn?_map, find?,
    Option.orElse_eq_orElse, Option.orElse_eq_or, Option.map_or]

theorem name_of_find? {v : Variable} (h : env.find? name = some v) : v.name = name := by
  rw [find?, Option.orElse_eq_orElse, Option.orElse_eq_or, Option.or_eq_some_iff] at h
  rcases h with h | ⟨-, h⟩
  · exact (Declared.mem_numbered_of_find? h).2
  · exact (Declared.mem_numbered_of_find? h).2

/-- A name that has just been declared stands for its declaration. -/
theorem find?_declare (h : (env.declare d).Proper)
    (hclass : d.kind.isClassLevel → env.subroutineLevel = []) :
    (env.declare d).find? d.name = some (env.next d) := by
  have hproper : env.Proper := Proper.of_declareAll (show (env.declareAll [d]).Proper from h)
  have hname := ((proper_declare_iff hproper).1 h).1
  rw [← Declared.find?_eq_none_iff] at hname
  by_cases hkind : d.kind.isClassLevel
  · rw [level, if_pos hkind] at hname
    have hnil : Declared.find? [] d.name = none := rfl
    simp [find?, declare, next, count, level, hkind, hclass hkind, Declared.find?_concat, hname, hnil]
  · rw [level, if_neg hkind] at hname
    simp [find?, declare, next, count, level, hkind, Declared.find?_concat, hname]

end Environment

namespace Trace

/-! ### Events and leaves -/

/-- An event shows a leaf that stands behind those of an outline. The name of a variable comes with
what it resolves to, and is marked where it is declared. -/
inductive Event.Shows (o : Outline) : Leaf → Event → Prop
  | token {token : Token} : token.category ≠ .identifier → Shows o ⟨token, .plain⟩ (.ofToken token)
  | declared {kind : VarKind} {name : String} :
    (o.declare name kind).resolve? name = some (kind, o.count kind) →
      Shows o (.name (.declares kind) name)
        (.identifier name .varName (some (kind, o.count kind)) true)
  | variable {role : Syntax.Role} {name : String} {binding : VarKind × Nat} :
    role ∈ [.assigned, .read, .called] → o.resolve? name = some binding →
      Shows o (.name role name) (.identifier name .varName (some binding) false)
  | className {name : String} {defined : Bool} :
    Shows o (.name .plain name) (.identifier name .className none defined)
  /-- The class before the name of a subroutine that is called. -/
  | qualifier {name : String} : o.resolve? name = none →
    Shows o (.name .called name) (.identifier name .className none false)
  | subroutineName {role : Syntax.Role} {name : String} {defined : Bool} : role ∈ [.plain, .called] →
    Shows o (.name role name) (.identifier name .subroutineName none defined)

theorem Event.Shows.token?_eq {o : Outline} {leaf : Leaf} {event : Event} (h : event.Shows o leaf) :
    event.token? = some (leaf.token.category, leaf.token.value) := by
  cases h <;> rfl

/-- Events that show some leaves in their order, behind those of an outline; the tags among them
nest. -/
inductive Written : Outline → List Leaf → List Event → Prop
  | nil (o : Outline) : Written o [] []
  | token {o : Outline} {leaf : Leaf} {leaves : List Leaf} {event : Event} {events : List Event} :
    event.Shows o leaf → Written (o.read leaf) leaves events →
      Written o (leaf :: leaves) (event :: events)
  | element {o : Outline} {tag : String} {inside leaves : List Leaf} {shown events : List Event} :
    Event.IsTag tag → Written o inside shown → Written (inside.foldl Outline.read o) leaves events →
      Written o (inside ++ leaves) (.open tag :: (shown ++ .close tag :: events))

/-- Leaves, each with the outline of those before it. -/
def places (o : Outline) : List Leaf → List (Outline × Leaf)
  | [] => []
  | leaf :: leaves => (o, leaf) :: places (o.read leaf) leaves

theorem places_append (o : Outline) (xs ys : List Leaf) :
    places o (xs ++ ys) = places o xs ++ places (xs.foldl Outline.read o) ys := by
  induction xs generalizing o with
  | nil => rfl
  | cons leaf xs ih =>
    rw [List.cons_append, places, ih]
    rfl

namespace Written

variable {o : Outline} {xs ys : List Leaf} {es fs : List Event}

theorem append (hxs : Written o xs es) (hys : Written (xs.foldl Outline.read o) ys fs) :
    Written o (xs ++ ys) (es ++ fs) := by
  induction hxs with
  | nil => exact hys
  | token hevent _ ih => exact .token hevent (ih hys)
  | element htag hinside _ _ ih =>
    rw [List.append_assoc, List.cons_append, List.append_assoc, List.cons_append]
    exact .element htag hinside (ih (by rwa [← List.foldl_append]))

/-- The rows of such events are the content of an element, and leave as many tags open. -/
theorem content (h : Written o xs es) (depth : Nat) (events : List Event) :
    rows depth (es ++ events) = rows depth es ++ rows depth events ∧ Content depth (rows depth es) := by
  induction h generalizing depth events with
  | nil => exact ⟨rfl, .nil depth⟩
  | @token _ _ _ event _ hevent _ ih =>
    have hsome : event.token?.isSome := by rw [hevent.token?_eq]; rfl
    have hdepths : event.depths depth = (depth, depth) := by cases hevent <;> rfl
    rw [List.cons_append, rows, rows, hdepths, (ih depth events).1]
    exact ⟨rfl, .token hsome (ih depth events).2⟩
  | @element _ tag _ _ shown rest _ _ _ ihinside ih =>
    have hopen : (Event.open tag).depths depth = (depth, depth + 1) := rfl
    have hclose : (Event.close tag).depths (depth + 1) = (depth, depth) := rfl
    have hrest (events : List Event) : rows depth (.open tag :: (shown ++ .close tag :: events)) =
        ⟨2 * depth, .open tag⟩ :: (rows (depth + 1) shown ++ ⟨2 * depth, .close tag⟩ ::
          rows depth events) := by
      rw [rows, hopen, (ihinside (depth + 1) _).1, rows, hclose]
    rw [List.cons_append, List.append_assoc, List.cons_append, hrest, hrest, (ih depth events).1]
    exact ⟨by simp, .element (ihinside (depth + 1) []).2 (ih depth []).2⟩

/-- Token by token the events show the leaves. -/
theorem forall₂ (h : Written o xs es) : List.Forall₂ (fun place event => event.Shows place.1 place.2)
    (places o xs) (es.filter (·.token?.isSome)) := by
  induction h with
  | nil => exact .nil
  | token hevent _ ih =>
    rw [List.filter_cons_of_pos (by rw [hevent.token?_eq]; rfl)]
    exact .cons hevent ih
  | element _ _ _ ihinside ih =>
    rw [places_append, List.filter_cons_of_neg (by simp [Event.token?]), List.filter_append,
      List.filter_cons_of_neg (by simp [Event.token?])]
    exact List.rel_append ihinside ih

/-- The tokens of the events are those of the leaves. -/
theorem map_token? (h : Written o xs es) : (es.filter (·.token?.isSome)).map (·.token?) =
    xs.map fun leaf => some (leaf.token.category, leaf.token.value) := by
  have hshows := h.forall₂
  clear h
  generalize es.filter (·.token?.isSome) = events at hshows ⊢
  induction xs generalizing o events with
  | nil =>
    cases hshows
    rfl
  | cons leaf xs ih =>
    obtain - | ⟨hevent, hevents⟩ := hshows
    rw [List.map_cons, List.map_cons, hevent.token?_eq, ih _ hevents]

/-- All events can be told from their lines if the leaves are of one line. -/
theorem legible (h : Written o xs es) (hxs : ∀ leaf ∈ xs, '\n' ∉ leaf.token.value.toList) :
    ∀ event ∈ es, event.Legible := by
  induction h with
  | nil => exact List.forall_mem_nil _
  | token hevent _ ih =>
    rw [List.forall_mem_cons] at hxs ⊢
    refine ⟨?_, ih hxs.2⟩
    cases hevent <;> exact hxs.1
  | element htag _ _ ihinside ih =>
    rw [List.forall_mem_append] at hxs
    rw [List.forall_mem_cons, List.forall_mem_append, List.forall_mem_cons]
    exact ⟨htag, ihinside hxs.1, htag, ih hxs.2⟩

end Written
/-! ### Steps of a trace -/

/-- Behind some events come those that show leaves, which lead from one outline to another. -/
structure Shown (o : Outline) (leaves : List Leaf) (o' : Outline) (events events' : Events) : Prop where
  outline : leaves.foldl Outline.read o = o'
  exists_eq : ∃ added, events'.toList = events.toList ++ added ∧ Written o leaves added

namespace Shown

variable {o o' o'' : Outline} {xs ys : List Leaf} {e e' e'' : Events}

theorem refl (o : Outline) (e : Events) : Shown o [] o e e :=
  ⟨rfl, [], (List.append_nil _).symm, .nil o⟩

theorem trans (h : Shown o xs o' e e') (h' : Shown o' ys o'' e' e'') :
    Shown o (xs ++ ys) o'' e e'' := by
  obtain ⟨rfl, added, he', hadded⟩ := h
  obtain ⟨rfl, added', he'', hadded'⟩ := h'
  refine ⟨List.foldl_append, added ++ added', ?_, hadded.append hadded'⟩
  rw [he'', he', List.append_assoc]

/-- A tag around events. -/
theorem tagged {tag : String} (htag : Event.IsTag tag) (h : Shown o xs o' (e.open tag) e') :
    Shown o xs o' e (e'.close tag) := by
  obtain ⟨houtline, added, he', hadded⟩ := h
  refine ⟨houtline, .open tag :: (added ++ [.close tag]), ?_, ?_⟩
  · have hopen : (e.open tag).toList = e.toList ++ [.open tag] := Array.toList_push ..
    have hclose : (e'.close tag).toList = e'.toList ++ [.close tag] := Array.toList_push ..
    rw [hclose, he', hopen, List.append_assoc, List.append_assoc, List.singleton_append]
  · have h := Written.element htag hadded (.nil _)
    rwa [List.append_nil] at h

theorem event {leaf : Leaf} {event : Event} (h : event.Shows o leaf) :
    Shown o [leaf] (o.read leaf) e (e.add event) :=
  ⟨rfl, [event], Array.toList_push .., .token h (.nil _)⟩

theorem symbol (s : Symbol) : Shown o [.symbol s] o e (e.symbol s) := event (.token nofun)

theorem keyword {k : Keyword} (h : k ∉ [.constructor, .function, .method]) :
    Shown o [.keyword k] o e (e.keyword k) := by
  have hevent : Shown o [.keyword k] (o.read (.keyword k)) e (e.keyword k) := event (.token nofun)
  rwa [Syntax.read_keyword h] at hevent

theorem className (name : String) (defined : Bool) :
    Shown o [.name .plain name] o e (e.className name defined) := event .className

theorem subroutineName (name : String) (defined : Bool) :
    Shown o [.name .plain name] o e (e.subroutineName name defined) :=
  event (.subroutineName (by simp))

/-- The use of a variable, under the name that it was found by. -/
theorem varName {role : Syntax.Role} (hrole : role ∈ [.assigned, .read, .called]) {v : Variable}
    (hv : o.resolve? v.name = some (v.kind, v.index)) :
    Shown o [.name role v.name] o e (e.varName v false) := by
  have hevent : Shown o [.name role v.name] (o.read (.name role v.name)) e (e.varName v false) :=
    event (.variable hrole hv)
  rwa [Syntax.read_name (by rintro kind rfl; simp at hrole)] at hevent

end Shown
end Trace
end JackLang
