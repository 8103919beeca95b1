import LinReal.Proofs.Solver.Searches

/-! What a search does, step by step. The four ways of a round, the two of a pass and the three of a search are said here once, as
    what their success tells; what holds of every search is then read off the step that could break it. Seen from outside a search
    is a walk: some pivots, between which nothing moves, and a conflict that it answers is one of a row met on the way. -/

namespace LinReal.Solver

variable {τ β : Type} {s t u : Solver τ} {ds : List (Var × LinearForm)} {x : Var} {v : Violation τ} {c : Conflict τ}
  {budget : Budget β} {b b' : β} {n : Nat} {o : Outcome τ} {p : Option (Outcome τ)}

/-! ### Walks -/

/-- Pivots lead from `s` to a state, and between them nothing moves. -/
inductive Walk (s : Solver τ) : Solver τ → Prop where
  | start : Walk s s
  | rest {t u : Solver τ} (h : Walk s t) (hi : Idle t u) : Walk s u
  | pivot {t u : Solver τ} {l e : Var} {v : DeltaRat} (h : Walk s t) (hu : t.pivot l e v = .ok u) : Walk s u

theorem Idle.walk (h : Idle s t) : Walk s t := Walk.start.rest h

theorem Walk.trans (h₁ : Walk s t) (h₂ : Walk t u) : Walk s u := by
  induction h₂ with
  | start => exact h₁
  | rest _ hi ih => exact ih.rest hi
  | pivot _ hu ih => exact ih.pivot hu

theorem Walk.kept (h : Walk s t) (hs : s.Coherent ds) :
    t.Coherent ds ∧ Carries s t ∧ t.store.safe = s.store.safe := by
  induction h with
  | start => exact ⟨hs, .refl s, rfl⟩
  | rest _ hi ih =>
    obtain ⟨hcoh, hcarries, hsafe⟩ := ih
    exact ⟨hcoh.idle hi, hcarries.trans hi.carries, by rw [hi.store, hsafe]⟩
  | pivot _ hu ih =>
    obtain ⟨hcoh, hcarries, hsafe⟩ := ih
    obtain ⟨f, a, hf, ha⟩ := pivot_requires hu
    obtain ⟨u', hu', hpivoted, hshaped⟩ := pivot_ok hcoh.shaped hf ha _
    cases hu.symm.trans hu'
    exact ⟨hpivoted.coherent hcoh hshaped, hcarries.trans hpivoted.frame.carries, hpivoted.frame.safe.trans hsafe⟩

theorem Requeued.idle (h : Requeued s t) : Idle s t := by
  obtain ⟨queue, rfl, -⟩ := h.exists_eq
  exact idle_queue s queue

theorem idle_inspect (h : s.inspect x = .ok t) : Idle s t := (inspect_inv h).2.idle

theorem idle_inspectAll {xs : List Var} (h : s.inspectAll xs = .ok t) : Idle s t := (requeued_inspectAll h).idle

/-- A round is opened without a change, or the heuristic stage is left. -/
theorem openRound_inv (h : s.openRound = .ok t) :
    t = s ∨ t = ({ s with queue := s.queue.switch } : Solver τ).note .antiCycle := by
  unfold openRound at h
  simp only at h
  split at h
  · obtain ⟨defect, -, h⟩ := bind_eq_ok.mp h
    cases defect with
    | some d => cases h
    | none =>
      simp only at h
      split at h
      · exact Or.inr (Except.ok.inj h).symm
      · exact Or.inl (Except.ok.inj h).symm
  · split at h
    · exact Or.inr (Except.ok.inj h).symm
    · exact Or.inl (Except.ok.inj h).symm

theorem idle_openRound (h : s.openRound = .ok t) : Idle s t := by
  rcases openRound_inv h with rfl | rfl
  · exact .refl _
  · exact ⟨rfl, rfl, rfl, rfl⟩

theorem idle_leaveRepair (h : s.leaveRepair o = .ok t) : Idle s t := by
  cases o with
  | sat =>
    cases h
    exact ⟨rfl, rfl, rfl, rfl⟩
  | unsat c =>
    obtain ⟨u, hu, h⟩ := bind_eq_ok.mp h
    cases h
    have hi : Idle s u := Idle.trans (t := s.endRepair) ⟨rfl, rfl, rfl, rfl⟩ (idle_inspectAll hu)
    exact hi.trans ⟨rfl, rfl, rfl, rfl⟩
  | interrupted => exact (idle_queue s s.queue.cleared).trans (idle_inspectAll (t := t) h)

variable {taken : Option (Var × Violation τ)}

theorem idle_takeViolated (h : s.takeViolated = (taken, t)) : Idle s t := by
  unfold takeViolated at h
  split at h <;> (cases h; exact idle_queue s _)

theorem idle_counted (ht : s.takeViolated = (taken, t)) (hu : u = { t with rounds := t.rounds + 1 }) : Idle s u := by
  rw [hu]
  exact (idle_takeViolated ht).trans ⟨rfl, rfl, rfl, rfl⟩

theorem violation?_of_takeViolated (h : s.takeViolated = (some (x, v), t)) : s.violation? x = some v := by
  unfold takeViolated at h
  split at h
  · cases h
  · obtain ⟨v', hv, hxv⟩ := Option.map_eq_some_iff.mp (Prod.mk.inj h).1
    cases hxv
    exact hv

theorem Idle.violation? (h : Idle s t) (x : Var) : t.violation? x = s.violation? x := by
  rw [Solver.violation?, h.isBasic, h.store, Solver.violation?]

variable [DecidableEq τ]

/-! ### The ways of a search -/

/-- The ways of a round: no queued variable is violated; one is, and its row shows a conflict; it is moved onto its bound, and
    then the row of its partner shows one; or it is moved, and the search goes on. -/
inductive RoundStep (s : Solver τ) : Option (Outcome τ) → Solver τ → Prop where
  | satisfied {t : Solver τ} (ht : s.takeViolated = (none, t)) : RoundStep s (some .sat) t
  | blocked {t u : Solver τ} {x : Var} {v : Violation τ} {c : Conflict τ} (ht : s.takeViolated = (some (x, v), t))
      (hu : u = { t with rounds := t.rounds + 1 }) (hp : u.partner? x v.side = .ok none) (hc : u.explain x v = .ok c) :
      RoundStep s (some (.unsat c)) (u.note .updateConflict)
  | refuted {t u w : Solver τ} {x y : Var} {v : Violation τ} {c : Conflict τ} (ht : s.takeViolated = (some (x, v), t))
      (hu : u = { t with rounds := t.rounds + 1 }) (hp : u.partner? x v.side = .ok (some y))
      (hw : u.pivot x y v.bound.value = .ok w) (hc : w.conflictOf y = .ok (some c)) :
      RoundStep s (some (.unsat c)) (w.note .updateConflict)
  | moved {t u w : Solver τ} {x y : Var} {v : Violation τ} (ht : s.takeViolated = (some (x, v), t))
      (hu : u = { t with rounds := t.rounds + 1 }) (hp : u.partner? x v.side = .ok (some y))
      (hw : u.pivot x y v.bound.value = .ok w) (hc : w.conflictOf y = .ok none) : RoundStep s none w

theorem round_inv (h : s.round = .ok (p, t)) : RoundStep s p t := by
  unfold round at h
  split at h
  · rename_i u hu
    cases h
    exact .satisfied hu
  · rename_i x v u hu
    obtain ⟨partner, hp, h⟩ := bind_eq_ok.mp h
    cases partner with
    | none =>
      obtain ⟨c, hc, h⟩ := bind_eq_ok.mp h
      cases h
      exact .blocked hu rfl hp hc
    | some y =>
      obtain ⟨w, hw, h⟩ := bind_eq_ok.mp h
      obtain ⟨conflict, hc, h⟩ := bind_eq_ok.mp h
      cases conflict with
      | none =>
        cases h
        exact .moved hu rfl hp hw hc
      | some c =>
        cases h
        exact .refuted hu rfl hp hw hc

theorem RoundStep.round_eq (h : RoundStep s p t) : s.round = .ok (p, t) := by
  cases h with
  | satisfied ht => rw [round, ht]
  | blocked ht hu hp hc =>
    subst hu
    rw [round, ht]
    exact bind_eq_ok.mpr ⟨none, hp, bind_eq_ok.mpr ⟨_, hc, rfl⟩⟩
  | refuted ht hu hp hw hc =>
    subst hu
    rw [round, ht]
    exact bind_eq_ok.mpr ⟨some _, hp, bind_eq_ok.mpr ⟨_, hw, bind_eq_ok.mpr ⟨some _, hc, rfl⟩⟩⟩
  | moved ht hu hp hw hc =>
    subst hu
    rw [round, ht]
    exact bind_eq_ok.mpr ⟨some _, hp, bind_eq_ok.mpr ⟨_, hw, bind_eq_ok.mpr ⟨none, hc, rfl⟩⟩⟩

/-- The ways of a pass, after its round was opened: the budget stops the search, or the round is made. -/
inductive PassStep (budget : Budget β) (b : β) (s : Solver τ) : Option (Outcome τ) → Solver τ → Prop where
  | stopped {u : Solver τ} (hu : s.openRound = .ok u) (hask : (budget.ask b).1 = true) :
      PassStep budget b s (some .interrupted) u
  | allowed {u t : Solver τ} {p : Option (Outcome τ)} (hu : s.openRound = .ok u) (hask : (budget.ask b).1 = false)
      (ht : u.round = .ok (p, t)) : PassStep budget b s p t

theorem pass_inv (h : s.pass budget b = .ok (p, b', t)) :
    b' = (budget.ask b).2 ∧ PassStep budget b s p t := by
  obtain ⟨u, hu, h⟩ := bind_eq_ok.mp h
  match hask : budget.ask b with
  | (true, c) =>
    rw [hask] at h
    cases h
    exact ⟨rfl, .stopped hu (by rw [hask])⟩
  | (false, c) =>
    rw [hask] at h
    obtain ⟨⟨p', w⟩, hw, h⟩ := bind_eq_ok.mp h
    cases h
    exact ⟨rfl, .allowed hu (by rw [hask]) hw⟩

theorem pass_of_round (hu : s.openRound = .ok u) (hask : (budget.ask b).1 = false) (ht : u.round = .ok (p, t)) :
    s.pass budget b = .ok (p, (budget.ask b).2, t) := by
  rw [pass, hu, ok_bind, ← Prod.eta (budget.ask b), hask]
  simp only [ht, ok_bind]
  rfl

/-- If no basic variable lies outside its bounds, a pass that the budget allows finds that. -/
theorem pass_of_within (budget : Budget β) (b : β) (h : s.Sound ds) (hall : ∀ x, s.isBasic x = true → s.Within x)
    (hask : (budget.ask b).1 = false) :
    ∃ u t, s.openRound = .ok u ∧ u.takeViolated = (none, t) ∧ s.pass budget b = .ok (some .sat, (budget.ask b).2, t) := by
  obtain ⟨u, hu, hopened, hqueued, hsorted⟩ := openRound_ok h
  rcases takeViolated_cases hqueued hsorted with ⟨htaken, -⟩ | ⟨x, v, q, -, hv, -⟩
  · exact ⟨u, _, hu, htaken, pass_of_round hu hask (RoundStep.round_eq (.satisfied htaken))⟩
  · obtain ⟨hx, hout⟩ := outside_of_violation? hv
    exact absurd (hopened.idle.within.mpr (hall x ((hopened.idle.isBasic x).symm.trans hx))) hout

/-- The ways of a search: there is nothing to repair; the early scan comes upon a conflict; or passes are made. -/
inductive SearchStep (budget : Budget β) (n : Nat) (b : β) (s : Solver τ) : Outcome τ → β → Solver τ → Prop where
  | idle (he : s.queue.isEmpty = true) : SearchStep budget n b s .sat b s.endRepair
  | early {u t : Solver τ} {c : Conflict τ} (he : s.queue.isEmpty = false) (hu : s.beginRepair = .ok (some c, u))
      (ht : u.leaveRepair (.unsat c) = .ok t) : SearchStep budget n b s (.unsat c) b t
  | passes {u w t : Solver τ} {o : Outcome τ} {b' : β} (he : s.queue.isEmpty = false) (hu : s.beginRepair = .ok (none, u))
      (hw : u.runRounds budget n b = .ok (o, b', w)) (ht : w.leaveRepair o = .ok t) : SearchStep budget n b s o b' t

theorem repairUpTo_inv (h : s.repairUpTo n budget b = .ok (o, b', t)) : SearchStep budget n b s o b' t := by
  cases he : s.queue.isEmpty with
  | true =>
    rw [repairUpTo, he] at h
    cases h
    exact .idle he
  | false =>
    rw [repairUpTo, he] at h
    obtain ⟨⟨c, u⟩, hu, h⟩ := bind_eq_ok.mp h
    cases c with
    | some c =>
      obtain ⟨r, hr, h⟩ := bind_eq_ok.mp h
      cases hr
      obtain ⟨w, hw, h⟩ := bind_eq_ok.mp h
      cases h
      exact .early he hu hw
    | none =>
      obtain ⟨⟨o', c', w⟩, hw, h⟩ := bind_eq_ok.mp h
      obtain ⟨t', ht, h⟩ := bind_eq_ok.mp h
      cases h
      exact .passes he hu hw ht

/-! ### What a search answers -/

/-- A violated variable without a partner shows the conflict of its row. -/
theorem conflictOf_of_blocked (hv : s.violation? x = some v) (hp : s.partner? x v.side = .ok none)
    (hc : s.explain x v = .ok c) : s.conflictOf x = .ok (some c) := by
  unfold violation? at hv
  split at hv
  · rename_i hx
    obtain ⟨slot, hslot, hslotv⟩ := Option.bind_eq_some_iff.mp hv
    rw [conflictOf, if_pos hx, Store.slot_eq_ok_iff.mpr hslot, ok_bind]
    simp only [hslotv, hp, hc, ok_bind]
    rfl
  · cases hv

/-- On a walk from `s`, the row of some variable shows the conflict `c`. -/
def Shows (s : Solver τ) (c : Conflict τ) : Prop := ∃ t x, Walk s t ∧ t.conflictOf x = .ok (some c)

/-- A walk leads from `s` to `t`, and the conflict that it answers, if any, is one shown on the way. -/
structure Traced (s t : Solver τ) (answer : Option (Conflict τ)) : Prop where
  walk : Walk s t
  shows : ∀ c, answer = some c → s.Shows c

variable {answer : Option (Conflict τ)}

theorem Walk.traced (h : Walk s t) : Traced s t none := ⟨h, fun _ hc => by cases hc⟩

theorem Walk.found (h : Walk s t) (hc : s.Shows c) : Traced s t (some c) := ⟨h, fun _ hc' => Option.some.inj hc' ▸ hc⟩

theorem Traced.rest (h : Traced s t answer) (hi : Idle t u) : Traced s u answer := ⟨h.walk.rest hi, h.shows⟩

theorem Traced.after (h : Traced t u answer) (hw : Walk s t) : Traced s u answer where
  walk := hw.trans h.walk
  shows c hc := by
    obtain ⟨w, x, hwalk, hx⟩ := h.shows c hc
    exact ⟨w, x, hw.trans hwalk, hx⟩

theorem round_traced (h : s.round = .ok (p, t)) : Traced s t (p.bind (·.conflict?)) := by
  cases round_inv h with
  | satisfied ht => exact (idle_takeViolated ht).walk.traced
  | blocked ht hu hp hc =>
    have hi := idle_counted ht hu
    have hv := (hi.violation? _).trans (violation?_of_takeViolated ht)
    exact (hi.walk.rest (idle_note _ _)).found ⟨_, _, hi.walk, conflictOf_of_blocked hv hp hc⟩
  | refuted ht hu hp hw hc =>
    have hwalk := (idle_counted ht hu).walk.pivot hw
    exact (hwalk.rest (idle_note _ _)).found ⟨_, _, hwalk, hc⟩
  | moved ht hu hp hw hc => exact ((idle_counted ht hu).walk.pivot hw).traced

theorem pass_traced (h : s.pass budget b = .ok (p, b', t)) : Traced s t (p.bind (·.conflict?)) := by
  obtain ⟨-, hpass⟩ := pass_inv h
  cases hpass with
  | stopped hu hask => exact (idle_openRound hu).walk.traced
  | allowed hu hask ht => exact (round_traced ht).after (idle_openRound hu).walk

theorem runRounds_traced (h : s.runRounds budget n b = .ok (o, b', t)) : Traced s t o.conflict? := by
  induction n generalizing s b with
  | zero => cases h
  | succ n ih =>
    obtain ⟨⟨p, d, u⟩, hu, h⟩ := bind_eq_ok.mp h
    cases p with
    | none => exact (ih h).after (pass_traced hu).walk
    | some p =>
      cases h
      exact pass_traced hu

theorem idle_earlyConflict (h : s.earlyConflict = .ok (answer, t)) : Idle s t := by
  obtain ⟨u, answers, hu, -, -, rfl⟩ := earlyConflict_inv h
  exact hu.idle.trans ⟨rfl, rfl, rfl, rfl⟩

theorem idle_beginRepair (h : s.beginRepair = .ok (answer, t)) : Idle s t := by
  have hi : Idle s { s with foundConflict := false, pivotsSinceConflict := 0 } := ⟨rfl, rfl, rfl, rfl⟩
  unfold beginRepair at h
  simp only at h
  split at h
  · exact hi.trans (idle_earlyConflict h)
  · cases h
    exact hi

/-- A conflict that the early scan answers is that of a queued variable. -/
theorem shows_of_earlyConflict (h : s.earlyConflict = .ok (some c, t)) : s.Shows c := by
  obtain ⟨u, answers, hu, hanswers, hc, -⟩ := earlyConflict_inv h
  obtain ⟨p, hsmallest, rfl⟩ := Option.map_eq_some_iff.mp hc.symm
  obtain ⟨answer, hin, hsome⟩ := List.mem_filterMap.mp (Conflict.mem_of_smallest hsmallest)
  obtain ⟨x, -, hx⟩ := exists_of_mapM hanswers hin
  exact ⟨u, x, hu.idle.walk, hx.trans (congrArg _ hsome)⟩

theorem beginRepair_traced (h : s.beginRepair = .ok (answer, t)) : Traced s t answer := by
  refine ⟨(idle_beginRepair h).walk, fun c hc => ?_⟩
  subst hc
  have hi : Idle s { s with foundConflict := false, pivotsSinceConflict := 0 } := ⟨rfl, rfl, rfl, rfl⟩
  unfold beginRepair at h
  simp only at h
  split at h
  · obtain ⟨w, x, hwalk, hx⟩ := shows_of_earlyConflict h
    exact ⟨w, x, hi.walk.trans hwalk, hx⟩
  · cases h

/-- A search is a walk, and a conflict that it answers is shown on the way. -/
theorem repairUpTo_traced (h : s.repairUpTo n budget b = .ok (o, b', t)) : Traced s t o.conflict? := by
  cases repairUpTo_inv h with
  | idle he => exact Walk.traced (Idle.walk ⟨rfl, rfl, rfl, rfl⟩)
  | early he hu ht => exact (beginRepair_traced hu).rest (idle_leaveRepair ht)
  | passes he hu hw ht => exact ((runRounds_traced hw).after (beginRepair_traced hu).walk).rest (idle_leaveRepair ht)

end LinReal.Solver
