import JackLang.Proofs.Compilation
import JackLang.Proofs.Places
import JackLang.Proofs.Trace.Productions

/-! Traces of sources. Read line by line, the trace of a source that compiles is a document whose
tokens are those of the source, and every name of a variable in it comes with the declaration that the
name resolves to where it stands (`Compilation.trace_faithful`). -/

namespace JackLang

open Trace (terminals places)

namespace Trace

/-- Events in a tag of their own, and the rows that they are written on. -/
theorem rows_element (tag : String) {leaves : List Syntax.Leaf} {inside : List Event}
    (h : Written {} leaves inside) :
    Document tag (rows 0 (.open tag :: (inside ++ [.close tag]))) ∧
      terminals (rows 0 (.open tag :: (inside ++ [.close tag]))) =
        inside.filter (·.token?.isSome) := by
  obtain ⟨hrows, hcontent⟩ := h.content 1 [.close tag]
  have hopen : rows 0 (.open tag :: (inside ++ [.close tag])) =
      ⟨0, .open tag⟩ :: rows 1 (inside ++ [.close tag]) := rfl
  refine ⟨⟨rows 1 inside, hcontent, by rw [hopen, hrows]; rfl⟩, ?_⟩
  rw [terminals, map_event_rows]
  simp [Event.token?]

end Trace

/-- No leaf of a source goes over the end of a line. -/
theorem Syntax.Class.newline_notMem {source : String} {c : Syntax.Class}
    (h : c.tokens = (TokenStream.ofText source).texts) :
    ∀ leaf ∈ c.leaves, '\n' ∉ leaf.token.value.toList := by
  intro leaf hleaf
  have htext : leaf.token ∈ (TokenStream.ofText source).texts := by
    rw [← h, ← c.texts_leaves]
    exact List.mem_map_of_mem hleaf
  obtain ⟨token, htoken, heq⟩ := List.mem_map.1 htext
  exact heq ▸ TokenStream.newline_notMem htoken

namespace Compilation

/-- **Faithful traces.** The trace of a source that compiles is a document: every tag is closed by its
like, with rows indented by two blanks for each tag around them. Its tokens are those of the source to
its end, and show the leaves of its tree: the name of a variable has the kind and the index of the
declaration that it resolves to there, and is marked where it is declared. -/
theorem trace_faithful {name source : String} {output : Output}
    (h : (ofText name source true).outcome = .ok output) :
    ∃ (text : String) (rows : List Trace.Row) (c : Syntax.Class),
      output.trace? = some text ∧ Trace.ofText? text = some rows ∧ Trace.Document "class" rows ∧
        (TokenStream.ofText source).fault? = none ∧
        (terminals rows).map (·.token?) =
          (TokenStream.ofText source).texts.map (fun t => some (t.category, t.value)) ∧
        (∀ c' : Syntax.Class, c'.tokens = (TokenStream.ofText source).texts ↔ c' = c) ∧
        List.Forall₂ (fun place event => event.Shows place.1 place.2) (places {} c.leaves)
          (terminals rows) := by
  obtain ⟨t, hparse, rfl⟩ := outcome_eq_ok_iff.1 h
  obtain ⟨hfault, c, htokens, hvalid, hresolve⟩ := parse_sound hparse
  have hfits := (Syntax.Class.fits_iff_valid (htokens ▸ identifier_this_notMem)).2 hvalid
  obtain ⟨inside, htrace, hwritten⟩ := Syntax.Class.written_trace hresolve hfits
  have hlegible : ∀ event ∈ t.trace.toList, event.Legible := by
    have hclass : Trace.Event.IsTag "class" := by decide
    rw [htrace, List.forall_mem_cons, List.forall_mem_append, List.forall_mem_singleton]
    exact ⟨hclass, hwritten.legible (Syntax.Class.newline_notMem htokens), hclass⟩
  obtain ⟨hdocument, hterminals⟩ := Trace.rows_element "class" hwritten
  rw [← htrace] at hdocument hterminals
  refine ⟨_, _, c, rfl, Trace.ofText?_render hlegible, hdocument, hfault, ?_, fun c' => ?_, ?_⟩
  · rw [hterminals, hwritten.map_token?, TokenStream.ofText, ← htokens, ← c.texts_leaves, Syntax.texts,
      List.map_map]
    rfl
  · exact ⟨fun h => Syntax.Class.tokens_injective (h.trans htokens.symm), fun h => h ▸ htokens⟩
  · rw [hterminals]
    exact hwritten.forall₂

theorem trace_faithful_counter : ∃ output text rows,
    (ofText "Counter" Syntax.Counter.source true).outcome = .ok output ∧
      output.trace? = some text ∧ Trace.ofText? text = some rows ∧ Trace.Document "class" rows ∧
      List.Forall₂ (fun place event => event.Shows place.1 place.2)
        (places {} Syntax.Counter.tree.leaves) (terminals rows) := by
  obtain ⟨output, h⟩ := exists_output (by decide +kernel) Syntax.Counter.tokens_tree
    Syntax.Counter.valid_tree
  obtain ⟨text, rows, c, htext, hrows, hdocument, -, -, hc, hshows⟩ := trace_faithful h
  obtain rfl := (hc _).1 Syntax.Counter.tokens_tree
  exact ⟨output, text, rows, h, htext, hrows, hdocument, hshows⟩

/-- The variables in the trace of a class of counters. -/
example : (Syntax.Counter.tree.resolve?.map fun t => t.trace.toList.filterMap fun
      | .identifier name .varName binding defined => some (name, binding, defined)
      | _ => none) =
    some [("n", some (.field, 0), true), ("d", some (.argument, 1), true),
      ("d", some (.argument, 1), false), ("n", some (.field, 0), false),
      ("n", some (.field, 0), false), ("d", some (.argument, 1), false),
      ("n", some (.field, 0), false)] := by
  decide

end Compilation
end JackLang
