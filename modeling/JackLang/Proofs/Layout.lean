import JackLang.Proofs.Acceptance
import JackLang.Proofs.Lockstep.Productions

/-! Layout does not matter. Two sources with the same tokens, wherever these stand and whatever stands
between them, compile alike: to the same code and the same trace, or with the same error at the same
token (`Compilation.outcome_alike`). -/

namespace JackLang

/-! ### Errors at related places -/

/-- Errors that say the same, each of its own place, where `P` relates the places. -/
inductive Error.Alike (P : Span → Span → Prop) : Error → Error → Prop
  | lexical {a b : Span} (message : String) : P a b →
    Alike P (.lexical a message) (.lexical b message)
  | syntactic {a b : Span} (expected found : String) : P a b →
    Alike P (.syntactic a expected found) (.syntactic b expected found)
  | duplicate {a b : Span} (name : String) : P a b → Alike P (.duplicate name a) (.duplicate name b)
  | undefined {a b : Span} (name : String) : P a b → Alike P (.undefined name a) (.undefined name b)
  | operand (message : String) : Alike P (.operand message) (.operand message)
  /-- A message that names the place. -/
  | operandAt {a b : Span} (before after : String) : P a b →
    Alike P (.operand (before ++ a.text ++ after)) (.operand (before ++ b.text ++ after))

theorem Fault.Alike.report {P : Span → Span → Prop} {fault fault' : Fault}
    (h : fault.Alike P fault') : fault.report.Alike P fault'.report := by
  cases h with
  | unexpected expected found hplace => exact .syntactic _ _ hplace
  | integerTooLarge value hplace => exact .lexical _ hplace
  | stringTooLong hplace => exact .lexical _ hplace
  | characterTooLarge c hplace => exact .lexical _ hplace
  | duplicate name hplace => exact .duplicate name hplace
  | undefined name hplace => exact .undefined name hplace
  | @tooManyVariables a b kind hplace =>
    have hmessage (span : Span) : (Fault.tooManyVariables kind span).report =
        .operand (s!"too many {kind.text} variables at " ++ span.text ++ s!" (limit {maxCount})") := by
      simp only [Fault.report, String.append_assoc, toString]
    rw [hmessage, hmessage]
    exact .operandAt _ _ hplace
  | tooManyFields className fields => exact .operand _

/-! ### Places of the same token -/

namespace TokenStream

/-- Where the token number `k` stands; the end of the input comes behind the last one. -/
def place? (s : TokenStream) (k : Nat) : Option Span :=
  (s.tokens.map (·.span) ++ [s.position])[k]?

/-- Two places, one in each of two streams, of the same token or of the end of the input. -/
def SamePlace (s t : TokenStream) (a b : Span) : Prop :=
  ∃ k, s.place? k = some a ∧ t.place? k = some b

variable {s t : TokenStream}

theorem length_texts (s : TokenStream) : s.texts.length = s.tokens.length := List.length_map ..

/-- Streams with the same tokens stand beside each other, if the second ends in no fault. -/
theorem beside_samePlace (ht : t.fault? = none) (h : s.texts = t.texts) :
    s.Beside (SamePlace s t) t := by
  have hlength : s.tokens.length = t.tokens.length := by rw [← s.length_texts, h, t.length_texts]
  refine ⟨?_, fun _ => ⟨hlength, ht, s.tokens.length, ?_, ?_⟩⟩
  · -- The tokens before a place count its number, so they are kept beside those that follow.
    suffices ∀ before before' tokens tokens', s.tokens = before ++ tokens →
        t.tokens = before' ++ tokens' → before.length = before'.length →
        tokens.map (·.token) = tokens'.map (·.token) → Alongside (SamePlace s t) tokens tokens' from
      this [] [] _ _ rfl rfl rfl h
    intro before before' tokens
    induction tokens generalizing before before' with
    | nil => exact fun _ _ _ _ _ => .nil _
    | cons token tokens ih =>
      rintro (_ | ⟨token', tokens'⟩) hs ht hlength hmap
      · cases hmap
      · obtain ⟨text, a⟩ := token
        obtain ⟨_, b⟩ := token'
        obtain ⟨rfl, hrest⟩ : text = _ ∧ _ := List.cons.inj hmap
        refine .cons text ⟨before.length, ?_, ?_⟩
          (ih (before ++ [⟨text, a⟩]) (before' ++ [⟨text, b⟩]) tokens' ?_ ?_ ?_ hrest)
        · simp [place?, hs]
        · simp [place?, ht, hlength]
        · simpa using hs
        · simpa using ht
        · simpa using hlength
  · simp [place?]
  · simp [place?, hlength]

end TokenStream

/-! ### Compilation -/

namespace Compilation

/-- **Layout does not matter.** Of two sources with the same tokens to their ends both compile, to
the same class, code and trace, or both get an error: the same one at the same token. -/
theorem outcome_alike {source source' : String} (h : (TokenStream.ofText source).fault? = none)
    (h' : (TokenStream.ofText source').fault? = none)
    (htexts : (TokenStream.ofText source).texts = (TokenStream.ofText source').texts)
    (name name' : String) (traced : Bool) :
    (∃ compiled output, compile (Line.ofText source) traced = .ok compiled ∧
        compile (Line.ofText source') traced = .ok compiled ∧
        (ofText name source traced).outcome = .ok output ∧
        (ofText name' source' traced).outcome = .ok output) ∨
      ∃ error error', (ofText name source traced).outcome = .error error ∧
        (ofText name' source' traced).outcome = .error error' ∧
        error.Alike ((TokenStream.ofText source).SamePlace (.ofText source')) error' := by
  have hbeside := TokenStream.beside_samePlace h' htexts
  simp only [ofText, ofLines]
  obtain ⟨compiled, hok, hok'⟩ | ⟨fault, fault', herror, herror', hfaults⟩ | ⟨fault, -, hfault⟩ :=
    compile_alike traced hbeside
  · rw [hok, hok']
    exact .inl ⟨compiled, _, rfl, rfl, rfl, rfl⟩
  · rw [herror, herror']
    exact .inr ⟨_, _, rfl, rfl, hfaults.report⟩
  · cases hfault.symm.trans h

/-- A name is missing, on one line or behind a comment and a line break. -/
theorem outcome_alike_missing_name : ∃ source source' : String,
    (ofText "A" source false).outcome =
        .error (.syntactic ⟨1, 20⟩ "identifier" "symbol ';'") ∧
      (ofText "A" source' false).outcome =
        .error (.syntactic ⟨3, 1⟩ "identifier" "symbol ';'") ∧
      Error.Alike ((TokenStream.ofText source).SamePlace (.ofText source'))
        (.syntactic ⟨1, 20⟩ "identifier" "symbol ';'")
        (.syntactic ⟨3, 1⟩ "identifier" "symbol ';'") := by
  let source := "class A { field int; }"
  let source' := "class A \x7b // no name\n  field int\n; \x7d"
  have herror : (ofText "A" source false).outcome =
      .error (.syntactic ⟨1, 20⟩ "identifier" "symbol ';'") := by decide +kernel
  have herror' : (ofText "A" source' false).outcome =
      .error (.syntactic ⟨3, 1⟩ "identifier" "symbol ';'") := by decide +kernel
  obtain ⟨_, _, -, -, hok, -⟩ | ⟨error, error', h, h', halike⟩ :=
    @outcome_alike source source' (by decide +kernel) (by decide +kernel) (by decide +kernel)
      "A" "A" false
  · cases herror.symm.trans hok
  · cases herror.symm.trans h
    cases herror'.symm.trans h'
    exact ⟨source, source', herror, herror', halike⟩

end Compilation
end JackLang
