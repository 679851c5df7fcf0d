import JackLang.Proofs.Procedure.Runs

/-! Runs that consume a token before they come back to a site. Each site has a rank. Between two
advances of the lexer a run may go on to sites of lower rank only (`Falls`), so it cannot come by
the same site twice (`Falls.exists_advance`): neither a loop nor a chain of calls goes round on the
spot. -/

namespace JackLang

/-- Lower for what comes later if nothing is consumed: a call stands below the production that makes
it, or the round of a loop, and a loop below the production it is in and the calls before it. -/
def Site.rank : Site → Nat
  | .loop .arguments => 1
  | .loop .operators => 2
  | .termBody => 3
  | .term => 4
  | .expression => 5
  | .arguments => 6
  | .call => 7
  | .loop .names => 8
  | .declaration => 9
  | .letStatement | .ifStatement | .whileStatement | .doStatement | .returnStatement => 10
  | .loop .statements => 11
  | .statements => 12
  | .loop .locals => 13
  | .loop .parameters => 14
  | .parameters => 15
  | .subroutine => 16
  | .loop .subroutines => 17
  | .loop .classVars => 18
  | .classDeclaration => 19

/-- Above every site. -/
def Site.top : Nat := 20

theorem Site.rank_lt_top (site : Site) : site.rank < top := by
  cases site with
  | loop loop => cases loop <;> decide
  | _ => decide

namespace Procedure

/-- The sites in some events are below a ceiling, which is the top behind an advance and otherwise
the site before. The second number is the ceiling behind the events. -/
inductive Falls : Nat → List Event → Nat → Prop
  | nil (c : Nat) : Falls c [] c
  | advance {c c' : Nat} {events : List Event} (current? : Option Located) :
    Falls Site.top events c' → Falls c (.advance current? :: events) c'
  | reach {c c' : Nat} {events : List Event} {site : Site} (view : View) :
    site.rank < c → Falls site.rank events c' → Falls c (.reach site view :: events) c'

variable {c c₁ c' : Nat} {events events' before between after : List Event} {site : Site}
  {view : View}

theorem Falls.append (h : Falls c events c₁) (h' : Falls c₁ events' c') :
    Falls c (events ++ events') c' := by
  induction h with
  | nil => exact h'
  | advance current? _ ih => exact .advance current? (ih h')
  | reach view hrank _ ih => exact .reach view hrank (ih h')

theorem Falls.behind (h : Falls c (events ++ events') c') : ∃ c₁, Falls c₁ events' c' := by
  induction events generalizing c with
  | nil => exact ⟨c, h⟩
  | cons event events ih =>
    cases h with
    | advance _ h => exact ih h
    | reach _ _ h => exact ih h

/-- The ceiling rises by an advance only. -/
theorem Falls.advances_ne_nil (h : Falls c events c') (hc : c < c') :
    Event.advances events ≠ [] := by
  induction h with
  | nil => exact absurd hc (Nat.lt_irrefl _)
  | advance => exact List.cons_ne_nil _ _
  | reach _ hrank _ ih => exact ih (Nat.lt_trans hrank hc)

theorem Falls.exists_advance_or (h : Falls c (between ++ .reach site view :: after) c') :
    (∃ current?, .advance current? ∈ between) ∨ site.rank < c := by
  induction between generalizing c with
  | nil =>
    cases h with
    | reach _ hrank _ => exact .inr hrank
  | cons event between ih =>
    cases h with
    | advance current? _ => exact .inl ⟨current?, List.mem_cons_self⟩
    | reach _ hrank h =>
      obtain ⟨current?, hmem⟩ | hlt := ih h
      · exact .inl ⟨current?, List.mem_cons_of_mem _ hmem⟩
      · exact .inr (Nat.lt_trans hlt hrank)

/-- The lexer advances before a run comes back to a site. -/
theorem Falls.exists_advance {view' : View}
    (h : Falls c (before ++ .reach site view :: (between ++ .reach site view' :: after)) c') :
    ∃ current?, .advance current? ∈ between := by
  obtain ⟨c₁, h⟩ := h.behind
  cases h with
  | reach _ _ h => exact h.exists_advance_or.resolve_right (Nat.lt_irrefl _)

end Procedure
end JackLang
