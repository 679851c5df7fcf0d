import JackLang.Proofs.Scanning

/-! Any requests to a lexer, in any order. What has been looked at stays the next token, so the
tokens that are made current are those of the source, one after the other, however often the next
one is looked at in between (`Lexer.lookahead_transparent`). -/

namespace JackLang

namespace Lexer

inductive Request
  | hasNext | peek | advance | current
deriving DecidableEq, Repr

inductive Answer
  /-- Whether a token follows. -/
  | next (found : Bool)
  | token (token? : Option Located)
  | fault (fault : Fault)
deriving DecidableEq, Repr

/-- The answer to a request, and the lexer after it. -/
def serve (l : Lexer) : Request → Answer × Lexer
  | .hasNext =>
    match hasNext l with
    | .ok found l => (.next found, l)
    | .error fault l => (.fault fault, l)
  | .peek =>
    match peek l with
    | .ok token? l => (.token token?, l)
    | .error fault l => (.fault fault, l)
  | .advance =>
    match advance l with
    | .ok token? l => (.token token?, l)
    | .error fault l => (.fault fault, l)
  | .current => (.token l.current, l)

/-- The answers to requests in order, and the lexer after them. -/
def serveAll (l : Lexer) : List Request → List Answer × Lexer
  | [] => ([], l)
  | r :: requests =>
    let (answer, l) := l.serve r
    let (answers, l) := l.serveAll requests
    (answer :: answers, l)

/-- No request fails. -/
def Succeeds (l : Lexer) (requests : List Request) : Prop :=
  ∀ fault, .fault fault ∉ (l.serveAll requests).1

/-- The tokens that requests to advance are answered with. -/
def advances : List Request → List Answer → List (Option Located)
  | .advance :: requests, .token token? :: answers => token? :: advances requests answers
  | _ :: requests, _ :: answers => advances requests answers
  | _, _ => []

/-! ### One request -/

section serve

variable {l l' : Lexer} {r : Request} {token? : Option Located} {fault : Fault} {s : Scanner}

theorem peek_of_peeked {token : Located} (h : l.peeked = some token) :
    l.peek = .ok (some token) l := by rw [peek, h]

theorem peek_of_scan (h : l.peeked = none) (hscan : l.scanner.scan = .ok token? s) :
    l.peek = .ok token? { l with scanner := s, peeked := token? } := by rw [peek, h, hscan]

theorem peek_of_scan_fault (h : l.peeked = none) (hscan : l.scanner.scan = .error fault s) :
    l.peek = .error fault { l with scanner := s } := by rw [peek, h, hscan]

/-- The answer to a request, from the token that is next and the current one. -/
def Request.answer (next? current? : Option Located) : Request → Answer
  | .hasNext => .next next?.isSome
  | .peek | .advance => .token next?
  | .current => .token current?

theorem Request.answer_ne_fault (r : Request) (next? current? : Option Located) (fault : Fault) :
    r.answer next? current? ≠ .fault fault := by
  cases r <;> simp only [answer, ne_eq, reduceCtorEq, not_false_eq_true]

/-- The lexer that has the next token looked at, after a request for it. -/
def commit (l : Lexer) (token? : Option Located) : Request → Lexer
  | .advance => { l with peeked := none, current := token? }
  | .hasNext | .peek | .current => l

theorem serve_of_peek (h : l.peek = .ok token? l') (hr : r ≠ .current) :
    l.serve r = (r.answer token? l.current, l'.commit token? r) := by
  have hbind {α : Type} (f : Option Located → EStateM Fault Lexer α) :
      (peek >>= f) l = f token? l' := by
    show EStateM.bind peek f l = _
    rw [EStateM.bind, h]
  cases r with
  | current => exact absurd rfl hr
  | hasNext => rw [serve, hasNext, hbind]; rfl
  | peek => rw [serve, h]; rfl
  | advance => rw [serve, advance, hbind]; rfl

theorem serve_of_fault (h : l.peek = .error fault l') (hr : r ≠ .current) :
    l.serve r = (.fault fault, l') := by
  have hbind {α : Type} (f : Option Located → EStateM Fault Lexer α) :
      (peek >>= f) l = .error fault l' := by
    show EStateM.bind peek f l = _
    rw [EStateM.bind, h]
  cases r with
  | current => exact absurd rfl hr
  | hasNext => rw [serve, hasNext, hbind]
  | peek => rw [serve, h]
  | advance => rw [serve, advance, hbind]

end serve

end Lexer

/-! ### What is before a scanner -/

namespace Scanner

variable {s s' : Scanner}

/-- The tokens that were read before stand in front of those that a scanner has before it. -/
theorem stream_before (s : Scanner) (before : List Located) :
    s.stream before =
      ⟨before.reverse ++ (s.stream []).tokens, (s.stream []).position, (s.stream []).fault?⟩ := by
  induction hsize : s.size using Nat.strongRecOn generalizing s before with
  | ind size ih =>
    cases hscan : s.scan with
    | ok token? s' =>
      cases token? with
      | none =>
        rw [stream_of_end hscan, stream_of_end hscan]
        simp
      | some token =>
        have hlt : s'.size < size := hsize ▸ scan_size_lt hscan
        rw [stream_of_token hscan, stream_of_token hscan, ih _ hlt s' (token :: before) rfl,
          ih _ hlt s' [token] rfl]
        simp
    | error fault s' =>
      rw [stream_of_error hscan, stream_of_error hscan]
      simp

/-- The end of the input stays there. -/
theorem scan_of_scan_end (h : s.scan = .ok none s') : s'.scan = .ok none s' := by
  obtain ⟨rest, line, column, comment, lines⟩ := s
  simp only [scan] at h
  fun_induction scan.go rest line column comment lines with
  | case6 rest line column comment column' hline =>
    cases h
    rfl
  | case3 _ _ _ _ _ _ _ _ _ ih => exact ih h
  | case1 | case2 | case4 | case5 => cases h

end Scanner

namespace Lexer

/-! ### The lexer against the stream -/

variable {l l' : Lexer} {stream : TokenStream} {k : Nat} {requests : List Request}

/-- The token that is current when so many have been. -/
def currentOf (tokens : List Located) : Nat → Option Located
  | 0 => none
  | k + 1 => tokens[k]?

/-- A lexer on a stream, of which so many tokens, and perhaps the end, have been made current. -/
structure Stands (stream : TokenStream) (k : Nat) (l : Lexer) : Prop where
  current : l.current = currentOf stream.tokens k
  ahead : l.peeked.toList ++ (l.scanner.stream []).tokens = stream.tokens.drop k
  fault? : (l.scanner.stream []).fault? = stream.fault?
  within : stream.fault? = none ∨ k ≤ stream.tokens.length

theorem stands_ofLines (lines : List Line) : Stands (.ofLines lines) 0 (ofLines lines) :=
  ⟨rfl, rfl, rfl, .inr (Nat.zero_le _)⟩

/-- To look ahead is to find the next token of the stream, or the fault behind all of them. -/
theorem Stands.peek (h : l.Stands stream k) :
    (∃ l' : Lexer, l.peek = .ok stream.tokens[k]? l' ∧ l'.Stands stream k ∧
        l'.peeked = stream.tokens[k]? ∧ (stream.fault? = none ∨ k < stream.tokens.length)) ∨
      ∃ fault l', l.peek = .error fault l' ∧ stream.fault? = some fault ∧
        stream.tokens.length ≤ k := by
  obtain ⟨hcurrent, hahead, hfault, hwithin⟩ := h
  have hfound {token : Located} {tokens : List Located}
      (heq : token :: tokens = stream.tokens.drop k) :
      stream.tokens[k]? = some token ∧ k < stream.tokens.length := by
    have hk : stream.tokens[k]? = some token := by
      rw [← List.head?_drop, ← heq]
      rfl
    exact ⟨hk, (List.getElem?_eq_some_iff.1 hk).1⟩
  cases hpeeked : l.peeked with
  | some token =>
    rw [hpeeked] at hahead
    obtain ⟨htoken, hk⟩ := hfound hahead
    refine .inl ⟨l, ?_, ⟨hcurrent, hpeeked ▸ hahead, hfault, hwithin⟩, hpeeked.trans htoken.symm,
      .inr hk⟩
    rw [peek_of_peeked hpeeked, htoken]
  | none =>
    rw [hpeeked, Option.toList_none, List.nil_append] at hahead
    cases hscan : l.scanner.scan with
    | error fault s' =>
      rw [Scanner.stream_of_error hscan] at hahead hfault
      exact .inr ⟨fault, { l with scanner := s' }, peek_of_scan_fault hpeeked hscan, hfault.symm,
        List.drop_eq_nil_iff.1 hahead.symm⟩
    | ok token? s' =>
      cases token? with
      | none =>
        have hnone : stream.tokens[k]? = none := by
          rw [← List.head?_drop, ← hahead, Scanner.stream_of_end hscan]
          rfl
        have hend : stream.fault? = none := by rw [← hfault, Scanner.stream_of_end hscan]
        rw [Scanner.stream_of_end hscan, ← Scanner.stream_of_end (Scanner.scan_of_scan_end hscan)]
          at hahead hfault
        rw [hnone]
        exact .inl ⟨{ l with scanner := s', peeked := none }, peek_of_scan hpeeked hscan,
          ⟨hcurrent, hahead, hfault, hwithin⟩, rfl, .inl hend⟩
      | some token =>
        rw [Scanner.stream_of_token hscan, Scanner.stream_before] at hahead hfault
        obtain ⟨htoken, hk⟩ := hfound hahead
        rw [htoken]
        exact .inl ⟨{ l with scanner := s', peeked := some token }, peek_of_scan hpeeked hscan,
          ⟨hcurrent, hahead, hfault, hwithin⟩, rfl, .inr hk⟩

/-- How many tokens have been made current after a request. -/
def Request.count (k : Nat) : Request → Nat
  | .advance => k + 1
  | .hasNext | .peek | .current => k

theorem Stands.commit (h : l.Stands stream k) (hpeeked : l.peeked = stream.tokens[k]?)
    (hk : stream.fault? = none ∨ k < stream.tokens.length) (r : Request) :
    (l.commit stream.tokens[k]? r).Stands stream (r.count k) := by
  cases r with
  | hasNext | peek | current => exact h
  | advance =>
    refine ⟨rfl, ?_, h.fault?, hk⟩
    have hahead := h.ahead
    rw [hpeeked] at hahead
    show (l.scanner.stream []).tokens = stream.tokens.drop (k + 1)
    rw [← List.tail_drop, ← hahead]
    cases htoken : stream.tokens[k]? with
    | some token => rfl
    | none =>
      rw [htoken, Option.toList_none, List.nil_append,
        List.drop_eq_nil_of_le (List.getElem?_eq_none_iff.1 htoken)] at hahead
      rw [Option.toList_none, List.nil_append, hahead]
      rfl

/-- A request is answered from the stream, unless it is about what follows and meets the fault. -/
theorem Stands.serve (h : l.Stands stream k) (r : Request) :
    (∃ l' : Lexer, l.serve r = (r.answer stream.tokens[k]? (currentOf stream.tokens k), l') ∧
        l'.Stands stream (r.count k) ∧
        (r = .current ∨ stream.fault? = none ∨ k < stream.tokens.length)) ∨
      ∃ fault l', l.serve r = (.fault fault, l') ∧ r ≠ .current ∧ stream.fault? = some fault ∧
        stream.tokens.length ≤ k := by
  by_cases hr : r = .current
  · subst hr
    refine .inl ⟨l, ?_, h, .inl rfl⟩
    rw [Lexer.serve, Request.answer, h.current]
  rcases h.peek with ⟨l', hpeek, hl', hpeeked, hk⟩ | ⟨fault, l', hpeek, hfault, hk⟩
  · refine .inl ⟨l'.commit stream.tokens[k]? r, ?_, hl'.commit hpeeked hk r, .inr hk⟩
    rw [serve_of_peek hpeek hr, h.current]
  · exact .inr ⟨fault, l', serve_of_fault hpeek hr, hr, hfault, hk⟩

/-! ### Runs -/

theorem serveAll_cons (l : Lexer) (r : Request) (requests : List Request) :
    l.serveAll (r :: requests) = ((l.serve r).1 :: ((l.serve r).2.serveAll requests).1,
      ((l.serve r).2.serveAll requests).2) := rfl

theorem succeeds_cons {r : Request} : l.Succeeds (r :: requests) ↔
    (∀ fault, (l.serve r).1 ≠ .fault fault) ∧ (l.serve r).2.Succeeds requests := by
  simp only [Succeeds, serveAll_cons, List.mem_cons, not_or, ne_comm (a := (l.serve r).1)]
  exact forall_and

/-- What is to be found in the stream, tokens or the end, for requests to succeed. -/
def reach : List Request → Nat
  | [] => 0
  | .advance :: requests => reach requests + 1
  | .hasNext :: requests | .peek :: requests => max 1 (reach requests)
  | .current :: requests => reach requests

theorem reach_le_of_sublist {requests' : List Request} (h : requests'.Sublist requests) :
    reach requests' ≤ reach requests := by
  induction h with
  | slnil => exact Nat.le_refl _
  | cons r _ ih => cases r <;> simp only [reach] <;> omega
  | cons_cons r _ ih => cases r <;> simp only [reach] <;> omega

theorem count_le_reach (requests : List Request) :
    requests.count .advance ≤ reach requests := by
  induction requests with
  | nil => exact Nat.le_refl _
  | cons r requests ih => cases r <;> simp [reach] <;> omega

/-- Requests succeed if the stream ends well, or if they do not reach behind its last token. -/
theorem Stands.succeeds_iff (h : l.Stands stream k) : l.Succeeds requests ↔
    stream.fault? = none ∨ k + reach requests ≤ stream.tokens.length := by
  induction requests generalizing l k with
  | nil => exact ⟨fun _ => h.within, fun _ _ => List.not_mem_nil⟩
  | cons r requests ih =>
    rw [succeeds_cons]
    rcases h.serve r with ⟨l', hserve, hl', hk⟩ | ⟨fault, l', hserve, hr, hfault, hk⟩
    · rw [hserve, ih hl', and_iff_right (r.answer_ne_fault _ _)]
      by_cases hend : stream.fault? = none
      · simp only [hend, true_or]
      · simp only [hend, false_or] at hk ⊢
        cases r <;> simp only [Request.count, reach, reduceCtorEq, false_or] at hk ⊢ <;> omega
    · have hreach : 1 ≤ reach (r :: requests) := by
        cases r <;> simp only [reach, ne_eq, not_true_eq_false] at hr ⊢ <;> omega
      rw [hserve, hfault]
      refine ⟨fun hnot => absurd rfl (hnot.1 fault), fun hle => ?_⟩
      rcases hle with hend | hle
      · cases hend
      · omega

/-- Each request is answered from the tokens that those before it have left. -/
theorem Stands.answer (h : l.Stands stream k) (hsucceeds : l.Succeeds requests) {i : Nat}
    {r : Request} (hr : requests[i]? = some r) :
    (l.serveAll requests).1[i]? =
      some (r.answer stream.tokens[k + (requests.take i).count .advance]?
        (currentOf stream.tokens (k + (requests.take i).count .advance))) := by
  induction requests generalizing l k i with
  | nil => cases hr
  | cons r' requests ih =>
    rw [succeeds_cons] at hsucceeds
    rcases h.serve r' with ⟨l', hserve, hl', -⟩ | ⟨fault, l', hserve, -⟩
    · rw [hserve] at hsucceeds
      rw [serveAll_cons, hserve]
      cases i with
      | zero =>
        cases hr
        rfl
      | succ i =>
        rw [List.getElem?_cons_succ] at hr ⊢
        rw [ih hl' hsucceeds.2 hr, List.take_succ_cons, List.count_cons]
        cases r' <;> simp [Request.count, Nat.add_comm, Nat.add_left_comm]
    · exact absurd (congrArg Prod.fst hserve) (hsucceeds.1 fault)

theorem Stands.advances (h : l.Stands stream k) (hsucceeds : l.Succeeds requests) :
    advances requests (l.serveAll requests).1 =
      (List.range (requests.count .advance)).map (stream.tokens[k + ·]?) := by
  induction requests generalizing l k with
  | nil => rfl
  | cons r requests ih =>
    rw [succeeds_cons] at hsucceeds
    rcases h.serve r with ⟨l', hserve, hl', -⟩ | ⟨fault, l', hserve, -⟩
    · rw [hserve] at hsucceeds
      rw [serveAll_cons, hserve]
      cases r with
      | advance =>
        rw [Request.answer, Lexer.advances, ih hl' hsucceeds.2, List.count_cons_self,
          List.range_succ_eq_map, List.map_cons, List.map_map]
        simp [Request.count, Function.comp_def, Nat.add_assoc, Nat.add_comm 1]
      | hasNext | peek | current =>
        show Lexer.advances requests (l'.serveAll requests).1 = _
        rw [ih hl' hsucceeds.2]
        simp [Request.count]
    · exact absurd (congrArg Prod.fst hserve) (hsucceeds.1 fault)

/-- **Lookahead.** If no request to a lexer on some lines fails, then the tokens made current are
those of the lines in order, with none behind them; whether a token follows, and which, is answered
for the one that is made current next; and the current token is that of the last advance. So these
depend on the number of advances only, and a request that is left out makes no other one fail. -/
theorem lookahead_transparent {lines : List Line} {requests : List Request}
    (h : (ofLines lines).Succeeds requests) :
    advances requests ((ofLines lines).serveAll requests).1 =
        (List.range (requests.count .advance)).map ((TokenStream.ofLines lines).tokens[·]?) ∧
      ((TokenStream.ofLines lines).fault? = none ∨
        requests.count .advance ≤ (TokenStream.ofLines lines).tokens.length) ∧
      (∀ before r after, requests = before ++ r :: after →
        ((ofLines lines).serveAll requests).1[before.length]? =
          some (r.answer (TokenStream.ofLines lines).tokens[before.count .advance]?
            (currentOf (TokenStream.ofLines lines).tokens (before.count .advance)))) ∧
      (∀ requests', requests'.count .advance = requests.count .advance →
        (ofLines lines).Succeeds requests' →
        advances requests' ((ofLines lines).serveAll requests').1 =
          advances requests ((ofLines lines).serveAll requests).1) ∧
      ∀ requests' : List Request, requests'.Sublist requests →
        (ofLines lines).Succeeds requests' := by
  have hstands := stands_ofLines lines
  have hadvances {requests : List Request} (h : (ofLines lines).Succeeds requests) :
      advances requests ((ofLines lines).serveAll requests).1 =
        (List.range (requests.count .advance)).map ((TokenStream.ofLines lines).tokens[·]?) := by
    rw [hstands.advances h]
    simp only [Nat.zero_add]
  have hreach := hstands.succeeds_iff.1 h
  rw [Nat.zero_add] at hreach
  refine ⟨hadvances h, hreach.imp_right (Nat.le_trans (count_le_reach requests)), ?_, ?_, ?_⟩
  · rintro before r after rfl
    have hanswer := hstands.answer h (i := before.length) (r := r) (by simp)
    rwa [List.take_left, Nat.zero_add] at hanswer
  · intro requests' hcount h'
    rw [hadvances h, hadvances h', hcount]
  · intro requests' hsub
    rw [hstands.succeeds_iff, Nat.zero_add]
    exact hreach.imp_right (Nat.le_trans (reach_le_of_sublist hsub))

/-- Four requests about one word and the end behind it. -/
theorem lookahead_transparent_word :
    advances [.peek, .advance, .hasNext, .current, .advance]
      ((ofLines [.text ['a']]).serveAll [.peek, .advance, .hasNext, .current, .advance]).1 =
        [some ⟨.identifier "a", ⟨1, 1⟩⟩, none] := by
  have hsucceeds : (ofLines [.text ['a']]).Succeeds
      [.peek, .advance, .hasNext, .current, .advance] := by
    intro fault
    have hanswers : ((ofLines [.text ['a']]).serveAll
        [.peek, .advance, .hasNext, .current, .advance]).1 =
        [.token (some ⟨.identifier "a", ⟨1, 1⟩⟩), .token (some ⟨.identifier "a", ⟨1, 1⟩⟩),
          .next false, .token (some ⟨.identifier "a", ⟨1, 1⟩⟩), .token none] := by decide +kernel
    rw [hanswers]
    simp
  have hstream : (TokenStream.ofLines [.text ['a']]).tokens =
      [⟨.identifier "a", ⟨1, 1⟩⟩] := by decide +kernel
  rw [(lookahead_transparent hsucceeds).1, hstream]
  decide

end Lexer

end JackLang
