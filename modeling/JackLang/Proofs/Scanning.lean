import JackLang.Proofs.TokenStream

/-! What a scanner does with the lines it has, whatever lines come behind them. It reads them in
order and none before it needs it: either it meets a fault among its lines, and then all the others
are of no account (`Scanner.stream_extend`), or it gets to their end and asks for more. -/

namespace JackLang.Scanner

variable {s s' : Scanner} {token : Located} {before : List Located}

/-- A scanner with more lines behind its own. -/
def extend (s : Scanner) (more : List Line) : Scanner := { s with lines := s.lines ++ more }

theorem extend_nil (s : Scanner) : s.extend [] = s := by rw [extend, List.append_nil]

theorem position_extend (s : Scanner) (more : List Line) :
    (s.extend more).position = s.position := rfl

/-- The number of the last line. -/
def lastLine (s : Scanner) : Nat := s.line + s.lines.length

/-- Nothing is unread. -/
structure Finished (s : Scanner) : Prop where
  rest : s.rest = []
  lines : s.lines = []

/-! ### One token -/

/-- How a scan ends that does not depend on the lines behind: with a token, with a fault, or at the
end of its own lines. -/
inductive Reaches (s : Scanner) : Prop
  | token (token : Located) (s' : Scanner) : s'.Readable → s'.lastLine = s.lastLine →
    (∀ more, (s.extend more).scan = .ok (some token) (s'.extend more)) → Reaches s
  | fault (fault : Fault) (s' : Scanner) :
    (∀ more, (s.extend more).scan = .error fault (s'.extend more)) → Reaches s
  | finish (s' : Scanner) : s'.Finished → s'.line = s.lastLine →
    (∀ more, (s.extend more).scan = (s'.extend more).scan) → Reaches s

theorem reaches (hs : s.Readable) : s.Reaches := by
  obtain ⟨rest, line, column, comment, lines⟩ := s
  fun_induction scan.go rest line column comment lines with
  | case1 lines rest line column comment token rest' column' hline =>
    refine .token token ⟨rest', line, column', none, lines⟩ hs rfl fun more => ?_
    rw [scan, extend, scan.go, hline]
    rfl
  | case2 lines rest line column comment fault rest' column' hline =>
    refine .fault fault ⟨rest', line, column', none, lines⟩ fun more => ?_
    rw [scan, extend, scan.go, hline]
    rfl
  | case3 rest line column comment column' comment' hline chars lines ih =>
    -- The scan goes on with the next line.
    have hnext more : (extend ⟨rest, line, column, comment, .text chars :: lines⟩ more).scan =
        (extend ⟨chars, line + 1, 0, comment', lines⟩ more).scan := by
      rw [scan, scan, extend, extend, List.cons_append, scan.go, hline]
    have hlast : lastLine ⟨chars, line + 1, 0, comment', lines⟩ =
        lastLine ⟨rest, line, column, comment, .text chars :: lines⟩ := by
      simp only [lastLine, List.length_cons]
      omega
    cases ih (List.forall_mem_of_forall_mem_cons hs) with
    | token token s' hs' hline' h =>
      exact .token token s' hs' (hline'.trans hlast) fun more => (hnext more).trans (h more)
    | fault fault s' h => exact .fault fault s' fun more => (hnext more).trans (h more)
    | finish s' hs' hline' h =>
      exact .finish s' hs' (hline'.trans hlast) fun more => (hnext more).trans (h more)
  | case4 =>
    obtain ⟨chars, hline⟩ := hs _ List.mem_cons_self
    cases hline
  | case5 rest line column comment column' start hline =>
    refine .finish ⟨[], line, column', some start, []⟩ ⟨rfl, rfl⟩ rfl fun more => ?_
    rw [scan, scan, extend, extend, scan.go, scan.go, hline, scanLine]
  | case6 rest line column comment column' hline =>
    refine .finish ⟨[], line, column', none, []⟩ ⟨rfl, rfl⟩ rfl fun more => ?_
    rw [scan, scan, extend, extend, scan.go, scan.go, hline, scanLine]

/-! ### Streams -/

theorem stream_eq (s : Scanner) (before : List Located) : s.stream before =
    match s.scan with
    | .ok (some token) s' => s'.stream (token :: before)
    | .ok none s' => ⟨before.reverse, s'.position, none⟩
    | .error fault s' => ⟨before.reverse, s'.position, some fault⟩ := by
  rw [stream]
  split
  · next h => simp only [h]
  · next h => simp only [h]
  · next h => simp only [h]

theorem stream_of_token (h : s.scan = .ok (some token) s') :
    s.stream before = s'.stream (token :: before) := by
  rw [stream_eq, h]

theorem stream_of_error {fault : Fault} (h : s.scan = .error fault s') :
    s.stream before = ⟨before.reverse, s'.position, some fault⟩ := by
  rw [stream_eq, h]

theorem stream_of_end (h : s.scan = .ok none s') :
    s.stream before = ⟨before.reverse, s'.position, none⟩ := by
  rw [stream_eq, h]

theorem stream_congr (h : s.scan = s'.scan) : s.stream before = s'.stream before := by
  rw [stream_eq, h, ← stream_eq]

/-- The tokens of a stream that were read before come first. -/
theorem reverse_prefix_stream (s : Scanner) (before : List Located) :
    before.reverse <+: (s.stream before).tokens := by
  fun_induction s.stream before with
  | case1 s before token s' h _ ih =>
    rw [List.reverse_cons] at ih
    exact (List.prefix_append _ _).trans ih
  | case2 | case3 => exact List.prefix_refl _

/-- Either a fault among its lines ends the stream of a scanner, or the stream goes on behind the
tokens of these lines with what comes then. -/
theorem stream_extend (hs : s.Readable) (before : List Located) :
    (∃ stream fault, stream.fault? = some fault ∧
        ∀ more, (s.extend more).stream before = stream) ∨
      ∃ (s' : Scanner) (read : List Located), s'.Finished ∧ s'.line = s.lastLine ∧
        ∀ more, (s.extend more).stream before = (s'.extend more).stream read := by
  induction hsize : s.size using Nat.strongRecOn generalizing s before with
  | ind size ih =>
    cases reaches hs with
    | token token s' hs' hline h =>
      have hscan : s.scan = .ok (some token) s' := by
        rw [← s.extend_nil, ← s'.extend_nil]
        exact h []
      have hrest := ih s'.size (hsize ▸ scan_size_lt hscan) hs' (token :: before) rfl
      simp only [stream_of_token (h _), ← hline]
      exact hrest
    | fault fault s' h =>
      refine .inl ⟨⟨before.reverse, s'.position, some fault⟩, fault, rfl, fun more => ?_⟩
      rw [stream_of_error (h more), position_extend]
    | finish s' hs' hline h =>
      exact .inr ⟨s', before, hs', hline, fun more => stream_congr (h more)⟩

end JackLang.Scanner
