import JackLang.Proofs.Parser.Reading
import JackLang.Proofs.Syntax.Leaves

/-! Predictive parsing. A parser predicts a language of leaves if it never goes wrong before it must:
what it has read where it fails can still become a word, no word goes on with the token that it
rejects, and where it succeeds no other word goes on as the stream does (`Predicts`). What may stand
behind a word is a condition on the next token. The rules follow the ways in which parsers are put
together; each word of a sequence is told apart before the next begins (`Predicts.bind`). -/

namespace JackLang.Parser

open TokenStream Syntax
open scoped Computability

/-! ### Words that go on -/

/-- A word begins with some tokens, and then goes on with the next or ends. -/
def Begins (us ts : List Token) (next : Option Token) : Prop :=
  ∃ rest, us = ts ++ rest ∧ rest.head? = next

section begins

variable {us vs ts ts' : List Token} {t : Token} {next : Option Token} {s s' : TokenStream}

theorem begins_nil_iff : Begins us [] next ↔ us.head? = next := by
  simp [Begins]

theorem begins_cons_iff {u : Token} : Begins (u :: us) [t] next ↔ u = t ∧ us.head? = next := by
  simp [Begins]

theorem begins_append_iff : Begins (vs ++ us) (vs ++ ts) next ↔ Begins us ts next := by
  simp [Begins]

/-- What goes on behind more tokens goes on with them. -/
theorem Begins.of_reads (hr : s.Reads ts' s') (h : Begins us (ts ++ ts') s'.current?) :
    Begins us ts s.current? := by
  obtain ⟨rest, rfl, hrest⟩ := h
  refine ⟨ts' ++ rest, List.append_assoc .., ?_⟩
  cases ts' with
  | nil =>
    obtain rfl := reads_nil_iff.1 hr
    exact hrest
  | cons t ts' => exact hr.current?_eq.symm

theorem Begins.head?_eq (hr : s.Reads ts s') (h : Begins us ts s'.current?) :
    us.head? = s.current? := by
  rw [← List.nil_append ts] at h
  exact begins_nil_iff.1 (h.of_reads hr)

end begins

/-! ### Predictive parsers -/

/-- What a fault behind some leaves is blamed on. -/
abbrev Blame := Fault → List Leaf → Prop

section

variable {α β σ : Type}

/-- A parser that has read a word of a language, where no other word goes on as the stream does. -/
def Takes (L : Language Leaf) (Follow : Option Token → Prop) (h : List Leaf) (s s' : TokenStream)
    (Q : List Leaf → Prop) : Prop :=
  ∃ ls ∈ L, s.Reads (texts ls) s' ∧ Q (h ++ ls) ∧
    ∀ us ∈ L, ∀ r, Follow r.head? → Begins (texts us ++ r) (texts ls) s'.current? → texts us = texts ls

/-- How a parser fails behind some leaves: at a fault of the stream, for a reason that is blamed on
the leaves, or at a token that no word goes on with. -/
inductive Fails (B : Blame) (L : Language Leaf) (Follow : Option Token → Prop) (h : List Leaf)
    (s : TokenStream) (fault : Fault) (s' : TokenStream) : Prop
  | stream : s.fault? = some fault → Fails B L Follow h s fault s'
  | blamed (ls us : List Leaf) : ls ++ us ∈ L → s.Reads (texts ls) s' → B fault (h ++ ls) →
    Fails B L Follow h s fault s'
  | rejected (ls us : List Leaf) {expected : Expectation} : ls ++ us ∈ L → s.Reads (texts ls) s' →
    fault = .unexpected s'.span expected s'.current? → expected ≠ .token →
    (∀ us ∈ L, ∀ r, Follow r.head? → ¬ Begins (texts us ++ r) (texts ls) s'.current?) →
    Fails B L Follow h s fault s'

/-- A parser at a place of a stream, where the leaves before it are known. -/
structure Predicts (origin : TokenStream) (B : Blame) (L : Language Leaf)
    (Follow : Option Token → Prop) (Q : α → List Leaf → Prop) (p : Parser α) (h : List Leaf)
    (s : TokenStream) : Prop where
  takes : ∀ ⦃a s'⦄, origin.Reads (texts h) s → p.run s = .ok a s' → Takes L Follow h s s' (Q a)
  fails : ∀ ⦃fault s'⦄, origin.Reads (texts h) s → p.run s = .error fault s' →
    Fails B L Follow h s fault s'

variable {origin : TokenStream} {B B' : Blame} {L L₁ L₂ : Language Leaf}
  {Follow Follow₁ : Option Token → Prop} {Q Q' : α → List Leaf → Prop} {Q₁ : β → List Leaf → Prop}
  {p q : Parser α} {h : List Leaf} {s s' : TokenStream}

namespace Predicts

/-! ### Looking at the stream -/

theorem congr (hrun : p.run s = q.run s) (hq : Predicts origin B L Follow Q q h s) :
    Predicts origin B L Follow Q p h s where
  takes _ _ hat hp := hq.takes hat (hrun ▸ hp)
  fails _ _ hat hp := hq.fails hat (hrun ▸ hp)

/-- What is only looked at comes first. -/
theorem look {x : Parser β} {f : β → Parser α} {b : β} (hx : x.run s = .ok b s)
    (hf : Predicts origin B L Follow Q (f b) h s) : Predicts origin B L Follow Q (x >>= f) h s :=
  hf.congr (bind_of_ok hx)

theorem of_at (hp : origin.Reads (texts h) s → Predicts origin B L Follow Q p h s) :
    Predicts origin B L Follow Q p h s where
  takes _ _ hat hrun := (hp hat).takes hat hrun
  fails _ _ hat hrun := (hp hat).fails hat hrun

/-- Words that cannot begin here may be left out. -/
theorem narrow (hsub : ∀ us ∈ L₁, us ∈ L)
    (hstart : ∀ us ∈ L, ∀ r, Follow r.head? → (texts us ++ r).head? = s.current? →
      ∃ vs ∈ L₁, texts vs = texts us)
    (hp : Predicts origin B L₁ Follow Q p h s) : Predicts origin B L Follow Q p h s where
  takes a s' hat hrun := by
    obtain ⟨ls, hls, hr, hQ, hunique⟩ := hp.takes hat hrun
    refine ⟨ls, hsub ls hls, hr, hQ, fun us hus r hfollow hbegins => ?_⟩
    obtain ⟨vs, hvs, heq⟩ := hstart us hus r hfollow (hbegins.head?_eq hr)
    rw [← heq] at hbegins ⊢
    exact hunique vs hvs r hfollow hbegins
  fails fault s' hat hrun := by
    cases hp.fails hat hrun with
    | stream hfault => exact .stream hfault
    | blamed ls us hmem hr hB => exact .blamed ls us (hsub _ hmem) hr hB
    | rejected ls us hmem hr hfault hexpected hrejects =>
      refine .rejected ls us (hsub _ hmem) hr hfault hexpected fun us hus r hfollow hbegins => ?_
      obtain ⟨vs, hvs, heq⟩ := hstart us hus r hfollow (hbegins.head?_eq hr)
      rw [← heq] at hbegins
      exact hrejects vs hvs r hfollow hbegins

/-- Of two languages, one has no words that can begin here. -/
theorem left (hL₂ : ∀ us ∈ L₂, ∀ r, Follow r.head? → (texts us ++ r).head? ≠ s.current?)
    (hp : Predicts origin B L₁ Follow Q p h s) : Predicts origin B (L₁ + L₂) Follow Q p h s := by
  refine hp.narrow (fun us hus => .inl hus) fun us hus r hfollow hstart => ?_
  rcases (Language.mem_add _ _ _).1 hus with hus | hus
  · exact ⟨us, hus, rfl⟩
  · exact absurd hstart (hL₂ us hus r hfollow)

theorem right (hL₁ : ∀ us ∈ L₁, ∀ r, Follow r.head? → (texts us ++ r).head? ≠ s.current?)
    (hp : Predicts origin B L₂ Follow Q p h s) : Predicts origin B (L₁ + L₂) Follow Q p h s := by
  rw [add_comm]
  exact hp.left hL₁

/-- What is known of the leaves read may be weakened. -/
theorem mono (hB : ∀ fault ls us, ls ++ us ∈ L → B fault (h ++ ls) → B' fault (h ++ ls))
    (hFollow : ∀ t, Follow₁ t → Follow t) (hQ : ∀ a ls, ls ∈ L → Q a (h ++ ls) → Q' a (h ++ ls))
    (hp : Predicts origin B L Follow Q p h s) : Predicts origin B' L Follow₁ Q' p h s where
  takes a s' hat hrun := by
    obtain ⟨ls, hls, hr, hQa, hunique⟩ := hp.takes hat hrun
    exact ⟨ls, hls, hr, hQ a ls hls hQa, fun us hus r hfollow =>
      hunique us hus r (hFollow _ hfollow)⟩
  fails fault s' hat hrun := by
    cases hp.fails hat hrun with
    | stream hfault => exact .stream hfault
    | blamed ls us hmem hr hblame => exact .blamed ls us hmem hr (hB _ _ _ hmem hblame)
    | rejected ls us hmem hr hfault hexpected hrejects =>
      exact .rejected ls us hmem hr hfault hexpected fun us hus r hfollow =>
        hrejects us hus r (hFollow _ hfollow)

/-! ### Sequences -/

theorem pure {a : α} (hQ : Q a h) : Predicts origin B 1 Follow Q (pure a) h s where
  takes b s' _ hrun := by
    obtain ⟨rfl, rfl⟩ := pure_eq_ok.1 hrun
    refine ⟨[], Language.nil_mem_one, .nil, by rwa [List.append_nil], fun us hus _ _ _ => ?_⟩
    rw [(Language.mem_one us).1 hus]
  fails _ _ _ hrun := by cases hrun

/-- A parser that fails where it stands for a reason that is blamed on what has been read. -/
theorem blame {fault : Fault} (hrun : p.run s = .error fault s) (hL : ∃ us, us ∈ L)
    (hB : B fault h) : Predicts origin B L Follow Q p h s where
  takes _ _ _ hp := by cases hrun.symm.trans hp
  fails _ _ _ hp := by
    cases hrun.symm.trans hp
    obtain ⟨us, hus⟩ := hL
    exact .blamed [] us hus .nil (by rwa [List.append_nil])

/-- A token that no word begins with is rejected. -/
theorem unexpected {expected : Expectation} (hL : ∃ us, us ∈ L)
    (hexpected : expected ≠ .token)
    (hstart : ∀ us ∈ L, ∀ r, Follow r.head? → (texts us ++ r).head? ≠ s.current?) :
    Predicts origin B L Follow Q (unexpected expected) h s where
  takes _ _ _ hrun := absurd hrun unexpected_ne_ok
  fails _ _ _ hrun := by
    cases hrun
    obtain ⟨us, hus⟩ := hL
    refine .rejected [] us hus .nil rfl hexpected fun us hus r hfollow hbegins => ?_
    exact hstart us hus r hfollow (begins_nil_iff.1 hbegins)

/-- One part after the other. -/
theorem bind {x : Parser β} {f : β → Parser α} (hL₂ : ∃ us, us ∈ L₂)
    (hFollow : ∀ us ∈ L₂, ∀ r, Follow r.head? → Follow₁ (texts us ++ r).head?)
    (hx : Predicts origin B L₁ Follow₁ Q₁ x h s)
    (hf : ∀ b ls s₁, ls ∈ L₁ → s.Reads (texts ls) s₁ → Q₁ b (h ++ ls) →
      Predicts origin B L₂ Follow Q (f b) (h ++ ls) s₁) :
    Predicts origin B (L₁ * L₂) Follow Q (x >>= f) h s where
  takes a s' hat hrun := by
    obtain ⟨b, s₁, hb, hrun⟩ := bind_eq_ok.1 hrun
    obtain ⟨ls, hls, hr, hQb, hunique⟩ := hx.takes hat hb
    have hat' : origin.Reads (texts (h ++ ls)) s₁ := texts_append h ls ▸ hat.append hr
    obtain ⟨ls', hls', hr', hQa, hunique'⟩ := (hf b ls s₁ hls hr hQb).takes hat' hrun
    refine ⟨ls ++ ls', Language.append_mem_mul hls hls', ?_, ?_, fun us hus r hfollow hbegins => ?_⟩
    · rw [texts_append]
      exact hr.append hr'
    · rwa [← List.append_assoc]
    · obtain ⟨us₁, hus₁, us₂, hus₂, rfl⟩ := Language.mem_mul.1 hus
      rw [texts_append, texts_append, List.append_assoc] at hbegins
      have heq := hunique us₁ hus₁ _ (hFollow us₂ hus₂ r hfollow) (hbegins.of_reads hr')
      rw [heq, begins_append_iff] at hbegins
      rw [texts_append, texts_append, heq, hunique' us₂ hus₂ r hfollow hbegins]
  fails fault s' hat hrun := by
    rw [EStateM.run_bind] at hrun
    cases hb : x.run s with
    | error fault' s₁ =>
      rw [hb] at hrun
      cases hrun
      obtain ⟨us₂, hus₂⟩ := hL₂
      cases hx.fails hat hb with
      | stream hfault => exact .stream hfault
      | blamed ls us hmem hr hB =>
        refine .blamed ls (us ++ us₂) ?_ hr hB
        rw [← List.append_assoc]
        exact Language.append_mem_mul hmem hus₂
      | rejected ls us hmem hr hfault hexpected hrejects =>
        refine .rejected ls (us ++ us₂) ?_ hr hfault hexpected fun us hus r hfollow hbegins => ?_
        · rw [← List.append_assoc]
          exact Language.append_mem_mul hmem hus₂
        · obtain ⟨us₁, hus₁, us₂, hus₂, rfl⟩ := Language.mem_mul.1 hus
          rw [texts_append, List.append_assoc] at hbegins
          exact hrejects us₁ hus₁ _ (hFollow us₂ hus₂ r hfollow) hbegins
    | ok b s₁ =>
      rw [hb] at hrun
      obtain ⟨ls, hls, hr, hQb, hunique⟩ := hx.takes hat hb
      have hat' : origin.Reads (texts (h ++ ls)) s₁ := texts_append h ls ▸ hat.append hr
      cases (hf b ls s₁ hls hr hQb).fails hat' hrun with
      | stream hfault => exact .stream (hr.fault?_eq ▸ hfault)
      | blamed ls' us hmem hr' hB =>
        refine .blamed (ls ++ ls') us ?_ ?_ ?_
        · rw [List.append_assoc]
          exact Language.append_mem_mul hls hmem
        · rw [texts_append]
          exact hr.append hr'
        · rwa [← List.append_assoc]
      | rejected ls' us hmem hr' hfault hexpected hrejects =>
        refine .rejected (ls ++ ls') us ?_ ?_ hfault hexpected fun us hus r hfollow hbegins => ?_
        · rw [List.append_assoc]
          exact Language.append_mem_mul hls hmem
        · rw [texts_append]
          exact hr.append hr'
        · obtain ⟨us₁, hus₁, us₂, hus₂, rfl⟩ := Language.mem_mul.1 hus
          rw [texts_append, texts_append, List.append_assoc] at hbegins
          have heq := hunique us₁ hus₁ _ (hFollow us₂ hus₂ r hfollow) (hbegins.of_reads hr')
          rw [heq, begins_append_iff] at hbegins
          exact hrejects us₂ hus₂ r hfollow hbegins

/-- A last part that reads nothing. -/
theorem bind_one {x : Parser β} {f : β → Parser α} (hx : Predicts origin B L Follow Q₁ x h s)
    (hf : ∀ b ls s₁, ls ∈ L → s.Reads (texts ls) s₁ → Q₁ b (h ++ ls) →
      Predicts origin B 1 Follow Q (f b) (h ++ ls) s₁) :
    Predicts origin B L Follow Q (x >>= f) h s := by
  rw [← mul_one L]
  refine bind ⟨[], Language.nil_mem_one⟩ ?_ hx hf
  intro us hus r hfollow
  rw [(Language.mem_one us).1 hus]
  exact hfollow

theorem bind_pure {x : Parser β} {f : β → α} (hx : Predicts origin B L Follow Q₁ x h s)
    (hQ : ∀ b ls, ls ∈ L → Q₁ b (h ++ ls) → Q (f b) (h ++ ls)) :
    Predicts origin B L Follow Q (x >>= fun b => Pure.pure (f b)) h s :=
  bind_one hx fun b ls _ hls _ hQb => pure (hQ b ls hls hQb)

theorem map {f : β → α} {x : Parser β} (hx : Predicts origin B L Follow Q₁ x h s)
    (hQ : ∀ b ls, ls ∈ L → Q₁ b (h ++ ls) → Q (f b) (h ++ ls)) :
    Predicts origin B L Follow Q (f <$> x) h s := by
  rw [← bind_pure_comp]
  exact bind_pure hx hQ

end Predicts

/-! ### One token -/

/-- The only word of a language. -/
def word (leaves : List Leaf) : Language Leaf := {leaves}

theorem mem_word_iff {ls us : List Leaf} : us ∈ word ls ↔ us = ls := Iff.rfl

theorem mem_word_mul_iff {leaf : Leaf} {us : List Leaf} :
    us ∈ word [leaf] * L ↔ ∃ vs ∈ L, us = leaf :: vs := by
  rw [Language.mem_mul]
  refine ⟨?_, ?_⟩
  · rintro ⟨_, rfl, vs, hvs, rfl⟩
    exact ⟨vs, hvs, rfl⟩
  · rintro ⟨vs, hvs, rfl⟩
    exact ⟨[leaf], rfl, vs, hvs, rfl⟩

/-- The words that a function writes. -/
def wordsOf (f : β → List Leaf) : Language Leaf := Set.range f

theorem mem_wordsOf_iff {f : β → List Leaf} {us : List Leaf} : us ∈ wordsOf f ↔ ∃ b, f b = us :=
  Iff.rfl

theorem word_mul_wordsOf {leaf : Leaf} {f : β → List Leaf} :
    word [leaf] * wordsOf f = wordsOf (leaf :: f ·) := by
  ext us
  rw [mem_word_mul_iff, mem_wordsOf_iff]
  refine ⟨?_, ?_⟩
  · rintro ⟨_, ⟨b, rfl⟩, rfl⟩
    exact ⟨b, rfl⟩
  · rintro ⟨b, rfl⟩
    exact ⟨f b, ⟨b, rfl⟩, rfl⟩

theorem wordsOf_mul_wordsOf {f : α → List Leaf} {g : β → List Leaf} :
    wordsOf f * wordsOf g = wordsOf fun p : α × β => f p.1 ++ g p.2 := by
  ext us
  rw [Language.mem_mul, mem_wordsOf_iff]
  refine ⟨?_, ?_⟩
  · rintro ⟨_, ⟨a, rfl⟩, _, ⟨b, rfl⟩, rfl⟩
    exact ⟨(a, b), rfl⟩
  · rintro ⟨⟨a, b⟩, rfl⟩
    exact ⟨f a, ⟨a, rfl⟩, g b, ⟨b, rfl⟩, rfl⟩

theorem kstar_wordsOf {f : β → List Leaf} : (wordsOf f)∗ = wordsOf fun bs : List β => bs.flatMap f := by
  ext us
  rw [Language.mem_kstar, mem_wordsOf_iff]
  refine ⟨?_, ?_⟩
  · rintro ⟨uss, rfl, huss⟩
    induction uss with
    | nil => exact ⟨[], rfl⟩
    | cons us uss ih =>
      obtain ⟨b, rfl⟩ := huss us List.mem_cons_self
      obtain ⟨bs, hbs⟩ := ih fun vs hvs => huss vs (List.mem_cons_of_mem _ hvs)
      exact ⟨b :: bs, congrArg (f b ++ ·) hbs⟩
  · rintro ⟨bs, rfl⟩
    refine ⟨bs.map f, List.flatMap_def, fun us hus => ?_⟩
    obtain ⟨b, -, rfl⟩ := List.mem_map.1 hus
    exact ⟨b, rfl⟩

/-- A name in some role. -/
def names (role : Role) : Language Leaf := wordsOf ([.name role ·])

theorem exists_mem_names (role : Role) : ∃ us, us ∈ names role := ⟨_, "", rfl⟩

theorem mem_names_mul_iff {role : Role} {us : List Leaf} :
    us ∈ names role * L ↔ ∃ name, ∃ vs ∈ L, us = .name role name :: vs := by
  rw [Language.mem_mul]
  refine ⟨?_, ?_⟩
  · rintro ⟨_, ⟨name, rfl⟩, vs, hvs, rfl⟩
    exact ⟨name, vs, hvs, rfl⟩
  · rintro ⟨name, vs, hvs, rfl⟩
    exact ⟨_, ⟨name, rfl⟩, vs, hvs, rfl⟩

/-- Words between two symbols. -/
def between (opening closing : Symbol) (L : Language Leaf) : Language Leaf :=
  word [.symbol opening] * (L * word [.symbol closing])

theorem exists_mem_mul (h₁ : ∃ us, us ∈ L₁) (h₂ : ∃ us, us ∈ L₂) : ∃ us, us ∈ L₁ * L₂ := by
  obtain ⟨us₁, hus₁⟩ := h₁
  obtain ⟨us₂, hus₂⟩ := h₂
  exact ⟨_, Language.append_mem_mul hus₁ hus₂⟩

theorem exists_mem_kstar (L : Language Leaf) : ∃ us, us ∈ L∗ := ⟨[], Language.nil_mem_kstar L⟩

theorem exists_mem_word (leaves : List Leaf) : ∃ us, us ∈ word leaves := ⟨leaves, rfl⟩

theorem exists_mem_between {opening closing : Symbol} (h : ∃ us, us ∈ L) :
    ∃ us, us ∈ between opening closing L :=
  exists_mem_mul (exists_mem_word _) (exists_mem_mul h (exists_mem_word _))

theorem between_mul {opening closing : Symbol} :
    between opening closing L₁ * L₂ =
      word [.symbol opening] * (L₁ * (word [.symbol closing] * L₂)) := by
  rw [between, mul_assoc, mul_assoc]

theorem mem_between_iff {opening closing : Symbol} {us : List Leaf} :
    us ∈ between opening closing L ↔ ∃ vs ∈ L, us = enclosed opening closing vs := by
  rw [between, mem_word_mul_iff]
  simp only [Language.mem_mul, mem_word_iff]
  refine ⟨?_, ?_⟩
  · rintro ⟨_, ⟨vs, hvs, _, rfl, rfl⟩, rfl⟩
    exact ⟨vs, hvs, rfl⟩
  · rintro ⟨vs, hvs, rfl⟩
    exact ⟨_, ⟨vs, hvs, _, rfl, rfl⟩, rfl⟩

/-- Nothing is asked of what follows. -/
def Anything (_ : Option Token) : Prop := True

/-- Nothing is known of what has been read. -/
def Unknown (_ : α) (_ : List Leaf) : Prop := True

/-- What stands behind the leaves before a place. -/
theorem getElem?_of_reads (hat : origin.Reads (texts h) s) :
    origin.tokens[h.length]? = s.tokens.head? := by
  rw [← length_texts, ← List.head?_drop, hat.drop_eq]

theorem getElem?_of_at {t : Token} (hat : origin.Reads (texts h) s) (ht : s.current? = some t) :
    origin.tokens[h.length]? = some ⟨t, s.span⟩ := by
  obtain ⟨⟨token, place⟩, hhead, rfl⟩ := Option.map_eq_some_iff.1 ht
  rw [getElem?_of_reads hat, hhead, TokenStream.span, hhead]
  rfl

/-- The token behind the first leaf of a place. -/
theorem getElem?_succ_of_at {leaf : Leaf} (hat : origin.Reads (texts (h ++ [leaf])) s) :
    origin.tokens[h.length + 1]?.map (·.token) = s.current? := by
  have := getElem?_of_reads hat
  rw [List.length_append, List.length_singleton] at this
  rw [this, current?]

namespace Predicts

theorem followed (hp : Predicts origin B L Anything Q p h s) : Predicts origin B L Follow Q p h s :=
  hp.mono (fun _ _ _ _ hB => hB) (fun _ _ => trivial) fun _ _ _ hQ => hQ

/-- To consume a known token is to read it. -/
theorem advance (leaf : Leaf) {Q : Unit → List Leaf → Prop} (ht : s.current? = some leaf.token)
    (hQ : Q () (h ++ [leaf])) : Predicts origin B (word [leaf]) Anything Q advance h s where
  takes a s' _ hrun := by
    refine ⟨[leaf], rfl, (advance_eq_ok_iff ht).1 hrun, hQ, fun us hus _ _ _ => ?_⟩
    rw [mem_word_iff.1 hus]
  fails fault s' _ hrun := by
    rw [advance_run ht] at hrun
    have hfault : s.tail.fault? = some fault := fault?_of_start_eq_error hrun
    exact .stream hfault

/-- A known token at the start of every word that can begin here. The token behind it may tell which
words are left, and which part a name plays in them. -/
theorem advance_bind (leaf : Leaf) (L₁ : Language Leaf) {f : Unit → Parser α}
    (ht : s.current? = some leaf.token)
    (hsub : ∀ us ∈ L₁, leaf :: us ∈ L)
    (hstart : ∀ us ∈ L, ∀ r, Follow r.head? →
      Begins (texts us ++ r) [leaf.token] s.tail.current? →
        ∃ vs ∈ L₁, texts us = leaf.token :: texts vs)
    (hf : Predicts origin B L₁ Follow Q (f ()) (h ++ [leaf]) s.tail) :
    Predicts origin B L Follow Q (Parser.advance >>= f) h s := by
  have hbegins {us : List Leaf} {r : List Token} {ls : List Leaf} {s' : TokenStream} (hus : us ∈ L)
      (hfollow : Follow r.head?) (hr : s.tail.Reads (texts ls) s')
      (hb : Begins (texts us ++ r) (texts (leaf :: ls)) s'.current?) :
      ∃ vs ∈ L₁, texts us = leaf.token :: texts vs ∧ Begins (texts vs ++ r) (texts ls) s'.current? := by
    rw [texts_cons, ← List.singleton_append] at hb
    obtain ⟨vs, hvs, heq⟩ := hstart us hus r hfollow (hb.of_reads hr)
    refine ⟨vs, hvs, heq, ?_⟩
    rw [heq, ← List.singleton_append, List.append_assoc] at hb
    exact begins_append_iff.1 hb
  have hread {s₁ : TokenStream} (hat : origin.Reads (texts h) s) (hr : s.Reads [leaf.token] s₁) :
      s₁ = s.tail ∧ origin.Reads (texts (h ++ [leaf])) s.tail := by
    obtain ⟨-, -, rfl⟩ := reads_singleton_iff.1 hr
    exact ⟨rfl, texts_append h [leaf] ▸ hat.append hr⟩
  constructor
  · intro a s' hat hrun
    obtain ⟨⟨⟩, s₁, hadvance, hrun⟩ := bind_eq_ok.1 hrun
    have hr := (advance_eq_ok_iff ht).1 hadvance
    obtain ⟨rfl, hat'⟩ := hread hat hr
    obtain ⟨ls, hls, hr', hQ, hunique⟩ := hf.takes hat' hrun
    refine ⟨leaf :: ls, hsub ls hls, hr.cons_of hr', ?_, fun us hus r hfollow hb => ?_⟩
    · rwa [List.append_cons]
    · obtain ⟨vs, hvs, heq, hb⟩ := hbegins hus hfollow hr' hb
      rw [heq, texts_cons, hunique vs hvs r hfollow hb]
  · intro fault s' hat hrun
    rw [EStateM.run_bind] at hrun
    cases hadvance : Parser.advance.run s with
    | error fault' s₁ =>
      rw [hadvance] at hrun
      cases hrun
      rw [advance_run ht] at hadvance
      have hfault : s.tail.fault? = some fault := fault?_of_start_eq_error hadvance
      exact .stream hfault
    | ok _ s₁ =>
      rw [hadvance] at hrun
      have hr := (advance_eq_ok_iff ht).1 hadvance
      obtain ⟨rfl, hat'⟩ := hread hat hr
      cases hf.fails hat' hrun with
      | stream hfault => exact .stream hfault
      | blamed ls us hmem hr' hB =>
        refine .blamed (leaf :: ls) us (hsub _ hmem) (hr.cons_of hr') ?_
        rwa [List.append_cons]
      | rejected ls us hmem hr' hfault hexpected hrejects =>
        refine .rejected (leaf :: ls) us (hsub _ hmem) (hr.cons_of hr') hfault hexpected ?_
        intro us hus r hfollow hb
        obtain ⟨vs, hvs, -, hb⟩ := hbegins hus hfollow hr' hb
        exact hrejects vs hvs r hfollow hb

theorem advance_word_bind (leaf : Leaf) {f : Unit → Parser α} (ht : s.current? = some leaf.token)
    (hf : Predicts origin B L Follow Q (f ()) (h ++ [leaf]) s.tail) :
    Predicts origin B (word [leaf] * L) Follow Q (Parser.advance >>= f) h s := by
  refine advance_bind leaf L ht (fun us hus => mem_word_mul_iff.2 ⟨us, hus, rfl⟩) ?_ hf
  intro us hus r _ _
  obtain ⟨vs, hvs, rfl⟩ := mem_word_mul_iff.1 hus
  exact ⟨vs, hvs, rfl⟩

theorem expectSymbol (symbol : Symbol) :
    Predicts origin B (word [.symbol symbol]) Anything Unknown (expectSymbol symbol) h s := by
  refine .look currentSymbol_run ?_
  split
  · next hsymbol => exact .advance (.symbol symbol) (symbol?_eq_some_iff.1 hsymbol) trivial
  · next hsymbol =>
    refine .unexpected ⟨[.symbol symbol], rfl⟩ nofun fun us hus r _ hstart => ?_
    rw [mem_word_iff.1 hus] at hstart
    exact hsymbol (symbol?_eq_some_iff.2 hstart.symm)

theorem expectKeyword (k : Keyword) :
    Predicts origin B (word [.keyword k]) Anything Unknown (expectKeyword k) h s := by
  refine .look currentKeyword_run ?_
  split
  · next hk => exact .advance (.keyword k) (keyword?_eq_some_iff.1 hk) trivial
  · next hk =>
    refine .unexpected ⟨[.keyword k], rfl⟩ nofun fun us hus r _ hstart => ?_
    rw [mem_word_iff.1 hus] at hstart
    exact hk (keyword?_eq_some_iff.2 hstart.symm)

theorem expectSymbol_bind {symbol : Symbol} {f : Unit → Parser α} (hL : ∃ us, us ∈ L)
    (hf : ∀ s₁, s.Reads [.symbol symbol] s₁ →
      Predicts origin B L Follow Q (f ()) (h ++ [.symbol symbol]) s₁) :
    Predicts origin B (word [.symbol symbol] * L) Follow Q (Parser.expectSymbol symbol >>= f) h s := by
  refine bind hL (fun _ _ _ _ => trivial) (expectSymbol symbol) fun _ ls s₁ hls hr _ => ?_
  obtain rfl := mem_word_iff.1 hls
  exact hf s₁ hr

/-- A part that a symbol closes. -/
theorem closed_bind {x : Parser β} {f : β → Parser α} {symbol : Symbol} (hL : ∃ us, us ∈ L)
    (hx : Predicts origin B L₁ Follow₁ Q₁ x h s) (hclose : Follow₁ (some (.symbol symbol)))
    (hf : ∀ b ls s₁, ls ∈ L₁ → Q₁ b (h ++ ls) →
      Predicts origin B L Follow Q (f b) (h ++ ls ++ [.symbol symbol]) s₁) :
    Predicts origin B (L₁ * (word [.symbol symbol] * L)) Follow Q
      (x >>= fun b => Parser.expectSymbol symbol >>= fun _ => f b) h s := by
  obtain ⟨us, hus⟩ := hL
  refine bind ⟨_, mem_word_mul_iff.2 ⟨us, hus, rfl⟩⟩ ?_ hx fun b ls s₁ hls _ hQ =>
    expectSymbol_bind ⟨us, hus⟩ fun s₂ _ => hf b ls s₂ hls hQ
  intro us hus r _
  obtain ⟨vs, -, rfl⟩ := mem_word_mul_iff.1 hus
  exact hclose

theorem closed {x : Parser β} {f : β → α} {symbol : Symbol}
    (hx : Predicts origin B L₁ Follow₁ Q₁ x h s) (hclose : Follow₁ (some (.symbol symbol)))
    (hQ : ∀ b ls, ls ∈ L₁ → Q₁ b (h ++ ls) → Q (f b) (h ++ ls ++ [.symbol symbol])) :
    Predicts origin B (L₁ * word [.symbol symbol]) Follow Q
      (x >>= fun b => Parser.expectSymbol symbol >>= fun _ => Pure.pure (f b)) h s := by
  rw [← mul_one (word _)]
  exact closed_bind ⟨[], Language.nil_mem_one⟩ hx hclose fun b ls s₁ hls hQb => pure (hQ b ls hls hQb)

/-- A name is found at the place where it is said to be. -/
def Named (origin : TokenStream) (h : List Leaf) (role : Role) (named : String × Span)
    (h' : List Leaf) : Prop :=
  h' = h ++ [.name role named.1] ∧
    origin.tokens[h.length]? = some ⟨.identifier named.1, named.2⟩

theorem identifier (role : Role) :
    Predicts origin B (names role) Anything (Named origin h role) identifier h s := by
  refine .of_at fun hat => .look current_run ?_
  split
  · next name hname =>
    refine .look span_run ?_
    have hword : Predicts origin B (word [.name role name]) Anything (Named origin h role)
        (Parser.advance >>= fun _ => Pure.pure (name, s.span)) h s :=
      bind_pure (advance (Q := Unknown) (.name role name) hname trivial)
        fun _ ls hls _ => ⟨congrArg (h ++ ·) (mem_word_iff.1 hls), getElem?_of_at hat hname⟩
    refine hword.narrow (fun us hus => ⟨name, (mem_word_iff.1 hus).symm⟩) fun us hus r _ hstart => ?_
    obtain ⟨name', rfl⟩ := hus
    have hcurrent := hstart.trans hname
    cases hcurrent
    exact ⟨_, rfl, rfl⟩
  · next hname =>
    refine .unexpected ⟨[.name role ""], "", rfl⟩ nofun fun us hus r _ hstart => ?_
    obtain ⟨name, rfl⟩ := hus
    exact hname name hstart.symm

end Predicts

/-! ### Repetition -/

/-- The items of a repetition: each begins with a token that may stand behind another item, and what
may stand behind them all may stand behind each. -/
structure Separates (I : Language Leaf) (Follow FollowItem : Option Token → Prop) : Prop where
  starts : ∀ us ∈ I, ∃ leaf vs, us = leaf :: vs ∧ FollowItem (some leaf.token)
  follow : ∀ t, Follow t → FollowItem t

/-- A word of a language begins with the next token. -/
def Starts (L : Language Leaf) (t : Option Token) : Prop := ∃ us ∈ L, (texts us).head? = t

section repetition

variable {I : Language Leaf} {FollowItem : Option Token → Prop}

theorem Separates.followItem (hI : Separates I Follow FollowItem) :
    ∀ us ∈ I∗, ∀ r, Follow r.head? → FollowItem (texts us ++ r).head? := by
  intro us hus r hfollow
  rw [← Language.one_add_self_mul_kstar_eq_kstar, Language.mem_add] at hus
  rcases hus with hus | hus
  · rw [(Language.mem_one us).1 hus]
    exact hI.follow _ hfollow
  · obtain ⟨item, hitem, us', -, rfl⟩ := Language.mem_mul.1 hus
    obtain ⟨leaf, vs, rfl, hleaf⟩ := hI.starts item hitem
    exact hleaf

/-- Items with commas between them. -/
def listed (I : Language Leaf) : Language Leaf := I * (word [.symbol .comma] * I)∗

theorem listed_wordsOf {f : β → List Leaf} : listed (wordsOf f) =
    wordsOf fun p : β × List β => separated ((p.1 :: p.2).map f) := by
  rw [listed, word_mul_wordsOf, kstar_wordsOf, wordsOf_mul_wordsOf]
  simp only [List.map_cons, separated, List.flatMap_map]

/-- A list that may be empty. -/
theorem one_add_listed_wordsOf {f : β → List Leaf} :
    1 + listed (wordsOf f) = wordsOf fun bs : List β => separated (bs.map f) := by
  ext us
  rw [Language.mem_add, Language.mem_one, listed_wordsOf, mem_wordsOf_iff, mem_wordsOf_iff]
  refine ⟨?_, ?_⟩
  · rintro (rfl | ⟨⟨b, bs⟩, rfl⟩)
    · exact ⟨[], rfl⟩
    · exact ⟨b :: bs, rfl⟩
  · rintro ⟨_ | ⟨b, bs⟩, rfl⟩
    · exact .inl rfl
    · exact .inr ⟨(b, bs), rfl⟩

theorem separates_comma (hcomma : FollowItem (some (.symbol .comma)))
    (hFollow : ∀ t, Follow t → FollowItem t) :
    Separates (word [.symbol .comma] * I) Follow FollowItem where
  starts us hus := by
    obtain ⟨vs, -, rfl⟩ := mem_word_mul_iff.1 hus
    exact ⟨_, vs, rfl, hcomma⟩
  follow := hFollow

theorem not_starts_comma (h : s.current? ≠ some (.symbol .comma)) :
    ¬ Starts (word [.symbol .comma] * I) s.current? := by
  rintro ⟨us, hus, hstart⟩
  obtain ⟨vs, -, rfl⟩ := mem_word_mul_iff.1 hus
  exact h hstart.symm

namespace Predicts

/-- A repetition whose step is done where no item begins. -/
theorem iterate {step : σ → Parser (ForInStep σ)} {Q : σ → List Leaf → Prop} {state : σ}
    (hI : Separates I Follow FollowItem)
    (hstep : ∀ state h s, Q state h →
      (¬ Follow s.current? ∧ Predicts origin B I FollowItem
        (fun r h' => ∃ state', r = .yield state' ∧ Q state' h') (step state) h s) ∨
      (¬ Starts I s.current? ∧ (step state).run s = .ok (.done state) s))
    (hQ : Q state h) : Predicts origin B I∗ Follow Q (iterate step state) h s := by
  suffices ∀ (left : List Located) state h s, Q state h → s.tokens.length ≤ left.length →
      Predicts origin B I∗ Follow Q (iterate.rounds step left state) h s from
    .congr (q := iterate.rounds step s.tokens state) rfl (this _ state h s hQ (Nat.le_refl _))
  intro left
  -- The words that are left where nothing begins: the empty one.
  have hdone {h : List Leaf} {s : TokenStream} {state : σ} (hQ : Q state h)
      (hnone : ¬ Starts I s.current?) : Predicts origin B I∗ Follow Q (Pure.pure state) h s := by
    refine (pure hQ).narrow (fun us hus => ?_) fun us hus r hfollow hstart => ?_
    · rw [(Language.mem_one us).1 hus]
      exact Language.nil_mem_kstar I
    · rw [← Language.one_add_self_mul_kstar_eq_kstar, Language.mem_add] at hus
      rcases hus with hus | hus
      · exact ⟨us, hus, rfl⟩
      · obtain ⟨item, hitem, us', -, rfl⟩ := Language.mem_mul.1 hus
        obtain ⟨leaf, vs, rfl, -⟩ := hI.starts item hitem
        exact absurd ⟨_, hitem, hstart⟩ hnone
  induction left with
  | nil =>
    intro state h s hQ hleft
    refine hdone hQ fun ⟨us, hus, hstart⟩ => ?_
    obtain ⟨leaf, vs, rfl, -⟩ := hI.starts us hus
    rw [current?_eq_none_iff.2 (List.length_eq_zero_iff.1 (Nat.le_zero.1 hleft))] at hstart
    cases hstart
  | cons token left ih =>
    intro state h s hQ hleft
    rcases hstep state h s hQ with ⟨hcurrent, hitem⟩ | ⟨hnone, hrun⟩
    · have hmore : Predicts origin B (I * I∗) Follow Q
          (iterate.rounds step (token :: left) state) h s := by
        refine bind (exists_mem_kstar I) hI.followItem hitem fun r ls s₁ hls hr hr' => ?_
        obtain ⟨state', rfl, hQ'⟩ := hr'
        refine ih state' _ s₁ hQ' ?_
        obtain ⟨leaf, vs, rfl, -⟩ := hI.starts ls hls
        have := hr.length_le
        simp only [texts_cons, List.length_cons] at this hleft
        omega
      refine hmore.narrow (fun us hus => ?_) fun us hus r hfollow hstart => ?_
      · rw [← Language.one_add_self_mul_kstar_eq_kstar]
        exact .inr hus
      · rw [← Language.one_add_self_mul_kstar_eq_kstar, Language.mem_add] at hus
        rcases hus with hus | hus
        · rw [(Language.mem_one us).1 hus, texts_nil, List.nil_append] at hstart
          exact absurd (hstart ▸ hfollow) hcurrent
        · exact ⟨us, hus, rfl⟩
    · exact .look hrun (hdone hQ hnone)

/-- Items that are found one after the other, where `P` holds before each. -/
theorem many {item? : Parser (Option α)} {P : List Leaf → Prop}
    (hI : Separates I Follow FollowItem)
    (hitem : ∀ h s, P h →
      (¬ Follow s.current? ∧ Predicts origin B I FollowItem
        (fun a? h' => ∃ a, a? = some a ∧ P h') item? h s) ∨
      (¬ Starts I s.current? ∧ item?.run s = .ok none s))
    (hP : P h) : Predicts origin B I∗ Follow (fun _ => P) (many item?) h s := by
  refine bind_pure (iterate (Q := fun _ => P) hI (fun items h s hP => ?_) hP) fun _ _ _ h => h
  rcases hitem h s hP with ⟨hcurrent, hsome⟩ | ⟨hnone, hrun⟩
  · refine .inl ⟨hcurrent, bind_one hsome fun a? ls s₁ _ _ ha => ?_⟩
    obtain ⟨a, rfl, hP⟩ := ha
    exact pure ⟨_, rfl, hP⟩
  · exact .inr ⟨hnone, bind_of_ok hrun⟩

/-! ### Commas -/

theorem comma_bind {f : Bool → Parser α} (hcomma : s.current? = some (.symbol .comma))
    (hf : Predicts origin B L Follow Q (f true) (h ++ [.symbol .comma]) s.tail) :
    Predicts origin B (word [.symbol .comma] * L) Follow Q (comma >>= f) h s := by
  have hrun : (comma >>= f).run s = (Parser.advance >>= fun _ => f true).run s := by
    rw [comma, bind_assoc, bind_of_ok currentSymbol_run, if_pos (symbol?_eq_some_iff.2 hcomma),
      bind_assoc]
    rfl
  exact .congr hrun (advance_word_bind (.symbol .comma) hcomma hf)

/-- Items with commas between them. -/
theorem commaSeparated {item : Parser α} (hcomma : FollowItem (some (.symbol .comma)))
    (hFollow : ∀ t, Follow t → FollowItem t) (hend : ¬ Follow (some (.symbol .comma)))
    (hitem : ∀ h s, Predicts origin B I FollowItem Unknown item h s) :
    Predicts origin B (listed I) Follow Unknown (commaSeparated item) h s := by
  have hseparates := separates_comma (I := I) hcomma hFollow
  refine bind (exists_mem_kstar _) hseparates.followItem (hitem h s) fun first ls s₁ _ _ _ => ?_
  refine bind_pure (many (P := fun _ => True) hseparates (fun h s _ => ?_) trivial)
    fun _ _ _ _ => trivial
  by_cases hcurrent : s.current? = some (.symbol .comma)
  · refine .inl ⟨hcurrent ▸ hend, comma_bind hcurrent ?_⟩
    exact bind_pure (hitem _ _) fun a _ _ _ => ⟨a, rfl, trivial⟩
  · refine .inr ⟨not_starts_comma hcurrent, ?_⟩
    exact bind_of_ok (comma_eq_ok.2 (.inr ⟨rfl, hcurrent, rfl⟩))

end Predicts

end repetition
end

end JackLang.Parser
