import LinReal.Proofs.Solver.Budgets

/-! Traces. The trace of a search is the list of its pivots, in the order in which they are made. It is read off the rounds; that
    it is what the search does is proved of it: its pivots, one after the other, lead from the first state to the last, and nothing
    else moves or counts as a pivot. -/

namespace LinReal

/-- A pivot: `leaving` is moved to `target` by moving `entering`, and the two are exchanged. -/
structure Exchange where
  leaving : Var
  entering : Var
  target : DeltaRat
deriving DecidableEq, Repr

namespace Solver

variable {τ β : Type}

/-- The pivot of the next round, if it makes one. -/
def roundExchange? (s : Solver τ) : Option Exchange :=
  match s.takeViolated with
  | (none, _) => none
  | (some (x, v), s) =>
    match s.partner? x v.side with
    | .ok (some y) => some ⟨x, y, v.bound.value⟩
    | _ => none

/-- The pivot of the next pass, if it makes one. -/
def passExchange? (budget : Budget β) (b : β) (s : Solver τ) : Option Exchange :=
  match s.openRound with
  | .ok s => if (budget.ask b).1 then none else s.roundExchange?
  | .error _ => none

/-- The trace of passes. -/
def exchanges [DecidableEq τ] (budget : Budget β) : Nat → β → Solver τ → List Exchange
  | 0, _, _ => []
  | n + 1, b, s => (s.passExchange? budget b).toList ++
    match s.pass budget b with
    | .ok (none, b, s) => exchanges budget n b s
    | _ => []

/-- The trace of a search. -/
def searchExchanges [DecidableEq τ] (s : Solver τ) (n : Nat) (budget : Budget β) (b : β) : List Exchange :=
  if s.queue.isEmpty then []
  else
    match s.beginRepair with
    | .ok (none, s) => s.exchanges budget n b
    | _ => []

variable {s t u : Solver τ} {x : Var} {v : Violation τ} {taken : Option (Var × Violation τ)} {budget : Budget β} {b b' : β}
  {o : Outcome τ} {p : Option (Outcome τ)} {c : Conflict τ} {answer : Option (Conflict τ)} {m n : Nat} {es fs : List Exchange}

/-! ### Routes -/

/-- The pivots `es` lead from `s` to a state; between them nothing moves, and no pivot is counted. -/
inductive Route (s : Solver τ) : List Exchange → Solver τ → Prop where
  | start : Route s [] s
  | rest {es : List Exchange} {t u : Solver τ} (h : Route s es t) (hi : Idle t u) (hp : u.tally.pivots = t.tally.pivots) :
    Route s es u
  | pivot {es : List Exchange} {t u : Solver τ} (h : Route s es t) (e : Exchange)
    (hu : t.pivot e.leaving e.entering e.target = .ok u) : Route s (es ++ [e]) u

theorem Route.trans (h₁ : Route s es t) (h₂ : Route t fs u) : Route s (es ++ fs) u := by
  induction h₂ with
  | start => exact (List.append_nil es).symm ▸ h₁
  | rest _ hi hp ih => exact ih.rest hi hp
  | pivot _ e hu ih => exact List.append_assoc es _ [e] ▸ ih.pivot e hu

/-- Every pivot of a route is counted. -/
theorem Route.pivots (h : Route s es t) : t.tally.pivots = s.tally.pivots + es.length := by
  induction h with
  | start => rfl
  | rest _ _ hp ih => rw [hp, ih]
  | pivot _ e hu ih => rw [pivots_pivot hu, ih, List.length_append, List.length_singleton, Nat.add_assoc]

/-! ### Rounds -/

theorem roundExchange?_of_partner {y : Var} (ht : s.takeViolated = (some (x, v), t)) (hp : t.partner? x v.side = .ok (some y)) :
    s.roundExchange? = some ⟨x, y, v.bound.value⟩ := by
  rw [roundExchange?, ht]
  simp only [hp]

theorem roundExchange?_of_blocked (ht : s.takeViolated = (some (x, v), t)) (hp : t.partner? x v.side = .ok none) :
    s.roundExchange? = none := by
  rw [roundExchange?, ht]
  simp only [hp]

theorem roundExchange?_of_satisfied (ht : s.takeViolated = (none, t)) : s.roundExchange? = none := by
  rw [roundExchange?, ht]

theorem route_counted (ht : s.takeViolated = (taken, t)) (hu : u = { t with rounds := t.rounds + 1 }) : Route s [] u :=
  Route.start.rest (idle_counted ht hu) (pivots_counted ht hu)

theorem passExchange?_of_stopped (hu : s.openRound = .ok u) (hask : (budget.ask b).1 = true) :
    s.passExchange? budget b = none := by
  rw [passExchange?, hu]
  simp only [hask, if_true]

theorem passExchange?_of_allowed (hu : s.openRound = .ok u) (hask : (budget.ask b).1 = false) :
    s.passExchange? budget b = u.roundExchange? := by
  rw [passExchange?, hu]
  simp only [hask, Bool.false_eq_true, if_false]

variable [DecidableEq τ]

theorem round_route (h : s.round = .ok (p, t)) : Route s s.roundExchange?.toList t := by
  cases round_inv h with
  | satisfied ht =>
    rw [roundExchange?_of_satisfied ht]
    exact Route.start.rest (idle_takeViolated ht) (pivots_of_record (record_takeViolated ht))
  | blocked ht hu hp hc =>
    subst hu
    rw [roundExchange?_of_blocked ht hp]
    exact (route_counted ht rfl).rest (idle_note _ _) (pivots_note_of_ne _ (by decide))
  | refuted ht hu hp hw hc =>
    subst hu
    rw [roundExchange?_of_partner ht hp]
    exact ((route_counted ht rfl).pivot _ hw).rest (idle_note _ _) (pivots_note_of_ne _ (by decide))
  | moved ht hu hp hw hc =>
    subst hu
    rw [roundExchange?_of_partner ht hp]
    exact (route_counted ht rfl).pivot _ hw

/-! ### Passes -/

theorem pass_route (h : s.pass budget b = .ok (p, b', t)) : Route s (s.passExchange? budget b).toList t := by
  obtain ⟨-, hpass⟩ := pass_inv h
  cases hpass with
  | stopped hu hask =>
    rw [passExchange?_of_stopped hu hask]
    exact Route.start.rest (idle_openRound hu) (pivots_openRound hu)
  | allowed hu hask ht =>
    rw [passExchange?_of_allowed hu hask]
    exact (Route.start.rest (idle_openRound hu) (pivots_openRound hu)).trans (round_route ht)

theorem exchanges_of_goes (h : s.pass budget b = .ok (none, b', t)) :
    s.exchanges budget (n + 1) b = (s.passExchange? budget b).toList ++ t.exchanges budget n b' := by
  rw [exchanges, h]

theorem exchanges_of_ends (h : s.pass budget b = .ok (some o, b', t)) :
    s.exchanges budget (n + 1) b = (s.passExchange? budget b).toList := by
  rw [exchanges, h]
  exact List.append_nil _

theorem runRounds_route (h : s.runRounds budget n b = .ok (o, b', t)) : Route s (s.exchanges budget n b) t := by
  induction n generalizing s b with
  | zero => cases h
  | succ n ih =>
    obtain ⟨⟨p, d, u⟩, hu, h⟩ := bind_eq_ok.mp h
    cases p with
    | none =>
      rw [exchanges_of_goes hu]
      exact (pass_route hu).trans (ih h)
    | some p =>
      cases h
      rw [exchanges_of_ends hu]
      exact pass_route hu

/-- Passes that end have the same trace with more fuel. -/
theorem exchanges_mono (hnm : n ≤ m) (h : s.runRounds budget n b = .ok (o, b', t)) :
    s.exchanges budget m b = s.exchanges budget n b := by
  induction n generalizing s b m with
  | zero => cases h
  | succ n ih =>
    obtain ⟨m, rfl⟩ : ∃ k, m = k + 1 := ⟨m - 1, by omega⟩
    obtain ⟨⟨p, d, u⟩, hu, h⟩ := bind_eq_ok.mp h
    cases p with
    | none => rw [exchanges_of_goes hu, exchanges_of_goes hu, ih (Nat.le_of_succ_le_succ hnm) h]
    | some p => rw [exchanges_of_ends hu, exchanges_of_ends hu]

/-! ### Searches -/

theorem searchExchanges_of_idle (he : s.queue.isEmpty = true) : s.searchExchanges n budget b = [] := by
  rw [searchExchanges, if_pos he]

theorem searchExchanges_of_early (he : s.queue.isEmpty = false) (hu : s.beginRepair = .ok (some c, u)) :
    s.searchExchanges n budget b = [] := by
  rw [searchExchanges, if_neg (Bool.eq_false_iff.mp he), hu]

theorem searchExchanges_of_begin (he : s.queue.isEmpty = false) (hu : s.beginRepair = .ok (none, u)) :
    s.searchExchanges n budget b = u.exchanges budget n b := by
  rw [searchExchanges, if_neg (Bool.eq_false_iff.mp he), hu]

theorem route_beginRepair (h : s.beginRepair = .ok (answer, t)) : Route s [] t :=
  Route.start.rest (idle_beginRepair h) (pivots_beginRepair h)

/-- The trace of a search leads from its first state to its last, and the search has counted the pivots of the trace. -/
theorem repairUpTo_route (h : s.repairUpTo n budget b = .ok (o, b', t)) :
    Route s (s.searchExchanges n budget b) t ∧ t.tally.pivots = s.tally.pivots + (s.searchExchanges n budget b).length := by
  have hroute : Route s (s.searchExchanges n budget b) t := by
    cases repairUpTo_inv h with
    | idle he =>
      rw [searchExchanges_of_idle he]
      exact Route.start.rest ⟨rfl, rfl, rfl, rfl⟩ rfl
    | early he hu ht =>
      rw [searchExchanges_of_early he hu]
      exact (route_beginRepair hu).rest (idle_leaveRepair ht) (pivots_leaveRepair ht)
    | passes he hu hw ht =>
      rw [searchExchanges_of_begin he hu]
      exact ((route_beginRepair hu).trans (runRounds_route hw)).rest (idle_leaveRepair ht) (pivots_leaveRepair ht)
  exact ⟨hroute, hroute.pivots⟩

end Solver

end LinReal
