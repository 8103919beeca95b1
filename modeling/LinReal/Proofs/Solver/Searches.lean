import LinReal.Proofs.Solver.Records
import LinReal.Proofs.Solver.Rounds

/-! Searches. A search scans for early conflicts, makes passes until one ends it, and tidies up. What its passes keep the
    whole search keeps, so its answer is right however it ended: no variable lies outside its bounds, or the conflict
    is sound. -/

namespace LinReal

theorem Conflict.mem_of_smallest {τ : Type} {cs : List (Conflict τ)} {c : Conflict τ} {n : Nat}
    (h : smallest cs = some (c, n)) : c ∈ cs := by
  cases cs with
  | nil => cases h
  | cons d ds =>
    have hc : c = (_ : Conflict τ × Nat).1 := congrArg Prod.fst (Option.some.inj h).symm
    rw [hc]
    refine List.foldlRecOn (motive := fun p : Conflict τ × Nat => p.1 ∈ d :: ds) ds _ List.mem_cons_self fun p hp e he => ?_
    by_cases hlt : e.size < p.1.size
    · simpa only [hlt, if_true] using List.mem_cons_of_mem d he
    · simpa only [hlt, if_false] using hp

namespace Solver

variable {τ β : Type} {s t u : Solver τ} {ds : List (Var × LinearForm)} {x y : Var} {o : Outcome τ}
  {budget : Budget β} {b b' : β} {n : Nat}

/-- Nothing moves, and stage and rounds stay. -/
structure Paused (s t : Solver τ) : Prop where
  idle : Idle s t
  rounds : t.rounds = s.rounds
  stage : t.queue.stage = s.queue.stage

/-- A round is opened: the heuristic stage is left once its rounds are used up. -/
structure Opened (s t : Solver τ) : Prop where
  idle : Idle s t
  rounds : t.rounds = s.rounds
  stage : t.queue.stage = .heuristic →
    s.queue.stage = .heuristic ∧ s.rounds < s.settings.roundLimit s.variableCount

/-- A pass went on: its round was opened, and a violated variable repaired. -/
structure Turned (s t : Solver τ) : Prop where
  exists_repaired : ∃ u x v y, Opened s u ∧ Repaired u t x v y

theorem idle_queue (s : Solver τ) (q : RepairQueue) : Idle s { s with queue := q } := ⟨rfl, rfl, rfl, rfl⟩

theorem idle_note (s : Solver τ) (e : Event) : Idle s (s.note e) := ⟨rfl, rfl, rfl, rfl⟩

/-! ### Before and after the passes -/

theorem endRepair_sat (h : s.Sound ds) (he : s.queue.isEmpty = true) :
    Searched ds s s.endRepair (some .sat) ∧ s.endRepair.Sound ds := by
  have hidle : Idle s s.endRepair := ⟨rfl, rfl, rfl, rfl⟩
  have hall : ∀ x, s.isBasic x = true → s.Within x := by
    intro x hx
    by_contra hn
    have hin := h.queued x hx hn
    rw [List.isEmpty_iff.mp he] at hin
    cases hin
  exact ⟨(hidle.keeps h.coherent).sat hall, h.coherent.idle hidle, fun x hx hn => absurd (hall x hx) hn, trivial⟩

theorem mem_violators : x ∈ s.violators ↔ x ∈ s.queue.order ∧ s.isBasic x = true ∧ ¬s.Within x := by
  rw [violators, mem_firsts, List.mem_filter, isSome_violation?_iff]

theorem foldl_note_view (e : Event) (cs : List (Conflict τ)) (s : Solver τ) :
    Paused s (cs.foldl (fun s _ => s.note e) s) ∧ (cs.foldl (fun s _ => s.note e) s).queue = s.queue := by
  rw [foldl_note]
  exact ⟨⟨⟨rfl, rfl, rfl, rfl⟩, rfl, rfl⟩, rfl⟩

theorem leaveRepair_ok (h : Searched ds s t (some o)) :
    ∃ u, t.leaveRepair o = .ok u ∧ Idle t u ∧ u.Queued ∧ u.queue.Sorted ∧ (o = .interrupted → Paused t u) := by
  have hcoh := h.keeps.coherent
  have hend : Idle t t.endRepair := ⟨rfl, rfl, rfl, rfl⟩
  cases o with
  | sat =>
    exact ⟨t.endRepair, rfl, hend, fun x hx hn => absurd (h.sat rfl x hx) hn, trivial, fun ho => by cases ho⟩
  | unsat c =>
    obtain ⟨q, hq, hgrows, hin⟩ := inspectBasics_ok (hcoh.idle hend).shaped
    refine ⟨({ t.endRepair with queue := q } : Solver τ).report c, ?_, ⟨rfl, rfl, rfl, rfl⟩, hin, hgrows.sorted trivial,
      fun ho => by cases ho⟩
    simp only [leaveRepair, hq, ok_bind]
    rfl
  | interrupted =>
    obtain ⟨hqueued, -⟩ := h.goes (Or.inr rfl)
    obtain ⟨-, hstage, hsorted⟩ := t.queue.cleared_view
    have hbasic : ∀ x ∈ t.queue.queued.filter t.isBasic, t.isBasic x = true := fun x hx => (List.mem_filter.mp hx).2
    obtain ⟨q, hq, hgrows, hin, -⟩ := inspectAll_ok (hcoh.withQueue t.queue.cleared).shaped hbasic
    refine ⟨{ t with queue := q }, hq, idle_queue t q, fun x hx hn => ?_, hgrows.sorted hsorted,
      fun _ => ⟨idle_queue t q, rfl, hgrows.stage.trans hstage⟩⟩
    exact hin x (List.mem_filter.mpr ⟨RepairQueue.mem_queued.mpr (hqueued x hx hn), hx⟩) hn

theorem leave_searched (h : Searched ds s u (some o)) (hr : u.leaveRepair o = .ok t) :
    Searched ds s t (some o) ∧ t.Sound ds := by
  obtain ⟨u', hu', hidle, hq, hs, -⟩ := leaveRepair_ok h
  cases hr.symm.trans hu'
  have hkeeps := h.keeps.trans (hidle.keeps h.keeps.coherent)
  refine ⟨⟨hkeeps, fun ho x hx => ?_, fun c hc => ?_, fun _ => ⟨hq, hs⟩⟩, hkeeps.coherent, hq, hs⟩
  · exact hidle.within.mpr (h.sat ho x ((hidle.isBasic x).symm.trans hx))
  · rw [hidle.store]
    exact h.unsat c hc

/-! ### Passes -/

theorem openRound_ok (h : s.Sound ds) :
    ∃ t, s.openRound = .ok t ∧ Opened s t ∧ t.Queued ∧ t.queue.Sorted := by
  unfold openRound
  simp only [audit_eq_none h.coherent, ok_bind, ite_self, Bool.and_eq_true, decide_eq_true_eq]
  by_cases hc : s.queue.stage = .heuristic ∧ s.settings.roundLimit s.variableCount ≤ s.rounds
  · exact ⟨{ s with queue := s.queue.switch }.note .antiCycle, if_pos hc,
      ⟨⟨rfl, rfl, rfl, rfl⟩, rfl, fun hst => by cases hst⟩,
      fun x hx hn => RepairQueue.mem_switch.mpr (h.queued x hx hn), RepairQueue.sorted_switch s.queue⟩
  · refine ⟨s, if_neg hc, ⟨.refl s, rfl, fun hst => ⟨hst, ?_⟩⟩, h.queued, h.sorted⟩
    exact Nat.lt_of_not_le fun hle => hc ⟨hst, hle⟩

variable [DecidableEq τ]

/-- A pass keeps the invariant or ends the search; it is interrupted by the budget only. -/
theorem pass_ok (h : s.Sound ds) (budget : Budget β) (b : β) :
    ∃ o b' t, s.pass budget b = .ok (o, b', t) ∧ Searched ds s t o ∧ b' = (budget.ask b).2 ∧
      (o = none → (budget.ask b).1 = false ∧ Turned s t) ∧
      (o = some .interrupted → (budget.ask b).1 = true ∧ Opened s t) := by
  obtain ⟨u, hu, hopened, hqueued, hsorted⟩ := openRound_ok h
  have hkeeps := hopened.idle.keeps h.coherent
  rw [pass, hu, ok_bind]
  match hask : budget.ask b with
  | (true, b') =>
    exact ⟨some .interrupted, b', u, rfl, hkeeps.goes hqueued hsorted (Or.inr rfl), rfl, fun hn => (by cases hn),
      fun _ => ⟨rfl, hopened⟩⟩
  | (false, b') =>
    obtain ⟨o, t, ht, hsearched, hne, hgoes⟩ := round_ok (hkeeps.goes hqueued hsorted (Or.inl rfl)).sound
    refine ⟨o, b', t, by simp only [ht, ok_bind]; rfl, (hkeeps.goes hqueued hsorted (Or.inl rfl)).trans hsearched, rfl,
      fun hn => ⟨rfl, ?_⟩, fun ho => absurd ho hne⟩
    obtain ⟨x, v, y, hrepaired⟩ := hgoes hn
    exact ⟨u, x, v, y, hopened, hrepaired⟩

theorem runRounds_of_goes (h : s.pass budget b = .ok (none, b', t)) :
    s.runRounds budget (n + 1) b = t.runRounds budget n b' := by
  rw [runRounds, h]
  rfl

theorem runRounds_of_ends (h : s.pass budget b = .ok (some o, b', t)) : s.runRounds budget (n + 1) b = .ok (o, b', t) := by
  rw [runRounds, h]
  rfl

theorem runRounds_searched (h : s.Sound ds) (hr : s.runRounds budget n b = .ok (o, b', t)) : Searched ds s t (some o) := by
  induction n generalizing s b with
  | zero => cases hr
  | succ n ih =>
    obtain ⟨p, c, u, hp, hsearched, -⟩ := pass_ok h budget b
    rw [runRounds, hp, ok_bind] at hr
    cases p with
    | none => exact hsearched.trans (ih hsearched.sound hr)
    | some p =>
      cases hr
      exact hsearched

theorem runRounds_mono {m : Nat} (hnm : n ≤ m) (hr : s.runRounds budget n b = .ok (o, b', t)) :
    s.runRounds budget m b = .ok (o, b', t) := by
  induction n generalizing s b m with
  | zero => cases hr
  | succ n ih =>
    obtain ⟨m, rfl⟩ : ∃ k, m = k + 1 := ⟨m - 1, by omega⟩
    rw [runRounds, bind_eq_ok] at hr ⊢
    obtain ⟨p, hp, hr⟩ := hr
    refine ⟨p, hp, ?_⟩
    obtain ⟨o', c, u⟩ := p
    cases o' with
    | none => exact ih (Nat.le_of_succ_le_succ hnm) hr
    | some o' => exact hr

/-! ### The early scan -/

theorem mapM_conflictOf (h : s.Coherent ds) {xs : List Var} (hxs : ∀ x ∈ xs, s.isBasic x = true) :
    ∃ cs, xs.mapM s.conflictOf = .ok cs ∧ ∀ c, some c ∈ cs → c.Sound ds s.store.bounds [] fun _ => True := by
  induction xs with
  | nil => exact ⟨[], rfl, fun c hc => by cases hc⟩
  | cons x xs ih =>
    obtain ⟨c, hc, hsound⟩ := conflictOf_ok h.shaped h.denotes h.solves (hxs x List.mem_cons_self)
    obtain ⟨cs, hcs, hall⟩ := ih fun y hy => hxs y (List.mem_cons_of_mem _ hy)
    refine ⟨c :: cs, by rw [List.mapM_cons, hc, ok_bind, hcs]; rfl, fun c' hc' => ?_⟩
    rcases List.mem_cons.mp hc' with hc' | hc'
    · exact hsound c' hc'.symm
    · exact hall c' hc'

theorem earlyConflict_ok (h : s.Sound ds) :
    ∃ c t, s.earlyConflict = .ok (c, t) ∧ Paused s t ∧ t.Queued ∧ t.queue.Sorted ∧
      ∀ c', c = some c' → c'.Sound ds t.store.bounds [] fun _ => True := by
  obtain ⟨-, hstage, hsorted⟩ := s.queue.cleared_view
  have hcleared := h.coherent.withQueue s.queue.cleared
  have hbasic : ∀ x ∈ s.violators, s.isBasic x = true := fun x hx => (mem_violators.mp hx).2.1
  -- The queue is drained and filled with the violators only, which is all that has to be queued.
  obtain ⟨q, hq, hgrows, hin, -⟩ := inspectAll_ok hcleared.shaped hbasic
  have hcoh := h.coherent.withQueue q
  have hqueued : ({ s with queue := q } : Solver τ).Queued := fun x hx hn =>
    hin x (mem_violators.mpr ⟨h.queued x hx hn, hx, hn⟩) hn
  have hqs : q.Sorted := hgrows.sorted hsorted
  have hqst : q.stage = s.queue.stage := hgrows.stage.trans hstage
  obtain ⟨cs, hcs, hsound⟩ := mapM_conflictOf hcoh hbasic
  obtain ⟨⟨hidle, hrounds, hst⟩, hqueue⟩ :=
    foldl_note_view .earlyConflict (cs.filterMap id) ({ s with queue := q } : Solver τ)
  simp only [earlyConflict, hq, hcs, ok_bind]
  obtain ⟨u, hu⟩ : ∃ u : Solver τ, u = (cs.filterMap id).foldl (fun s _ => s.note .earlyConflict) { s with queue := q } :=
    ⟨_, rfl⟩
  rw [← hu] at hidle hrounds hst hqueue ⊢
  have hpaused : Paused s u := ⟨(idle_queue s q).trans hidle, hrounds, hst.trans hqst⟩
  have huq : u.Queued := by
    intro x hx hn
    rw [hqueue]
    exact hqueued x ((hidle.isBasic x).symm.trans hx) (hidle.within.not.mp hn)
  have hus : u.queue.Sorted := hqueue ▸ hqs
  cases hsm : Conflict.smallest (cs.filterMap id) with
  | none => exact ⟨none, u, rfl, hpaused, huq, hus, fun _ hc => by cases hc⟩
  | some p =>
    obtain ⟨best, n⟩ := p
    have hbest : ∀ c', some best = some c' → c'.Sound ds u.store.bounds [] fun _ => True := by
      intro c' hc'
      cases hc'
      obtain ⟨c, hc, hcb⟩ := List.mem_filterMap.mp (Conflict.mem_of_smallest hsm)
      rw [hidle.store]
      exact hsound best (hcb ▸ hc)
    cases n with
    | zero => exact ⟨some best, u, rfl, hpaused, huq, hus, hbest⟩
    | succ n =>
      exact ⟨some best, u.note .earlyImprovement, rfl, ⟨hpaused.idle.trans (idle_note u _), hpaused.rounds, hpaused.stage⟩,
        huq, hus, hbest⟩

/-! ### Whole searches -/

theorem beginRepair_ok (h : s.Sound ds) :
    ∃ c t, s.beginRepair = .ok (c, t) ∧ Paused s t ∧ t.Queued ∧ t.queue.Sorted ∧
      ∀ c', c = some c' → c'.Sound ds t.store.bounds [] fun _ => True := by
  have hidle : Idle s { s with foundConflict := false, pivotsSinceConflict := 0 } := ⟨rfl, rfl, rfl, rfl⟩
  unfold beginRepair
  simp only
  split
  · obtain ⟨c, t, ht, hpaused, hrest⟩ := earlyConflict_ok (s := { s with foundConflict := false, pivotsSinceConflict := 0 })
      ⟨h.coherent.idle hidle, h.queued, h.sorted⟩
    exact ⟨c, t, ht, ⟨hidle.trans hpaused.idle, hpaused.rounds, hpaused.stage⟩, hrest⟩
  · exact ⟨none, _, rfl, ⟨hidle, rfl, rfl⟩, h.queued, h.sorted, fun _ hc => by cases hc⟩

/-- Without the early scan a search begins with its passes. -/
theorem beginRepair_of_scan_off (h : s.settings.earlyScan = false) :
    s.beginRepair = .ok (none, { s with foundConflict := false, pivotsSinceConflict := 0 }) := by
  unfold beginRepair
  simp only [h, Bool.false_and, Bool.false_eq_true, if_false]

theorem repairUpTo_of_early (he : s.queue.isEmpty = false) {c : Conflict τ} (hu : s.beginRepair = .ok (some c, u)) :
    s.repairUpTo n budget b = (do return (.unsat c, b, ← u.leaveRepair (.unsat c))) := by
  rw [repairUpTo, he, hu]
  rfl

theorem repairUpTo_of_begin (he : s.queue.isEmpty = false) (hu : s.beginRepair = .ok (none, u)) :
    s.repairUpTo n budget b = (do
      let r ← u.runRounds budget n b
      return (r.1, r.2.1, ← r.2.2.leaveRepair r.1)) := by
  rw [repairUpTo, he, hu]
  rfl

/-- A search that ends keeps the invariant, and its answer is right. -/
theorem repairUpTo_searched (h : s.Sound ds) (hr : s.repairUpTo n budget b = .ok (o, b', t)) :
    Searched ds s t (some o) ∧ t.Sound ds := by
  cases he : s.queue.isEmpty with
  | true =>
    rw [repairUpTo, he] at hr
    cases hr
    exact endRepair_sat h he
  | false =>
    obtain ⟨c, u, hu, hpaused, hqueued, hsorted, hsound⟩ := beginRepair_ok h
    have hkeeps := hpaused.idle.keeps h.coherent
    cases c with
    | some c =>
      rw [repairUpTo_of_early he hu, bind_eq_ok] at hr
      obtain ⟨w, hw, hr⟩ := hr
      cases hr
      exact leave_searched (hkeeps.unsat (hsound c rfl)) hw
    | none =>
      rw [repairUpTo_of_begin he hu, bind_eq_ok] at hr
      obtain ⟨r, hrun, hr⟩ := hr
      obtain ⟨w, hw, hr⟩ := bind_eq_ok.mp hr
      cases hr
      have hrun' := runRounds_searched ⟨hkeeps.coherent, hqueued, hsorted⟩ hrun
      exact leave_searched ((hkeeps.goes hqueued hsorted (Or.inl rfl)).trans hrun') hw

end Solver

end LinReal
