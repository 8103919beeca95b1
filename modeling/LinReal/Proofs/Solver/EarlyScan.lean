import LinReal.Proofs.Solver.Budgets
import LinReal.Proofs.Solver.Lockstep

/-! The early scan. Whether the row of a variable shows a conflict, and which, does not depend on the queue; and every variable whose
    row shows one is queued. So a scan of the queue comes upon all conflicts that can be seen without a pivot, and answers a
    smallest one. A queue of one variable is not scanned, but there the first round finds the only conflict. -/

namespace LinReal

/-- A measure that no step of a fold lets grow, and that every step brings below the size of its element, is in the end below the
    sizes of all elements. -/
theorem foldl_le {σ α : Type} {f : σ → α → σ} (measure : σ → Nat) (size : α → Nat)
    (hkeep : ∀ p a, measure (f p a) ≤ measure p) (hnew : ∀ p a, measure (f p a) ≤ size a) (as : List α) (p : σ) :
    measure (as.foldl f p) ≤ measure p ∧ ∀ a ∈ as, measure (as.foldl f p) ≤ size a := by
  induction as generalizing p with
  | nil => exact ⟨Nat.le_refl _, fun a ha => by cases ha⟩
  | cons b bs ih =>
    obtain ⟨hstart, hrest⟩ := ih (f p b)
    refine ⟨hstart.trans (hkeep p b), fun a ha => ?_⟩
    rcases List.mem_cons.mp ha with rfl | ha
    · exact hstart.trans (hnew p a)
    · exact hrest a ha

namespace Conflict

variable {τ : Type} {cs : List (Conflict τ)} {c d : Conflict τ} {n : Nat}

theorem le_of_smallest (h : smallest cs = some (c, n)) (hd : d ∈ cs) : c.size ≤ d.size := by
  cases cs with
  | nil => cases h
  | cons e es =>
    obtain ⟨hstart, hrest⟩ : c.size ≤ e.size ∧ ∀ a ∈ es, c.size ≤ a.size := by
      rw [show c = _ from congrArg Prod.fst (Option.some.inj h).symm]
      refine foldl_le (fun p : Conflict τ × Nat => p.1.size) size (fun p d => ?_) (fun p d => ?_) es (e, 0)
      · by_cases hlt : d.size < p.1.size
        · simpa only [hlt, if_true] using hlt.le
        · simp only [hlt, if_false, Nat.le_refl]
      · by_cases hlt : d.size < p.1.size
        · simp only [hlt, if_true, Nat.le_refl]
        · simpa only [hlt, if_false] using Nat.le_of_not_lt hlt
    rcases List.mem_cons.mp hd with rfl | hd
    · exact hstart
    · exact hrest d hd

theorem exists_smallest (hd : d ∈ cs) : ∃ c n, smallest cs = some (c, n) := by
  cases cs with
  | nil => cases hd
  | cons e es => exact ⟨_, _, rfl⟩

end Conflict

namespace Solver

variable {τ β : Type} {s t u : Solver τ} {ds : List (Var × LinearForm)} {x : Var} {side : Side} {budget : Budget β} {b b' : β}
  {n : Nat} {o : Outcome τ}

/-! ### Conflicts whatever is queued -/

theorem partner?_eq_none_iff :
    s.partner? x side = .ok none ↔ ∃ f, s.tableau.row x = .ok f ∧ ∀ e ∈ f, s.isEligible side e.1 e.2 = false := by
  have hnone : ∀ f : LinearForm, s.queue.stage.choosePartner
      (LinearForm.vars (f.filter fun e => s.isEligible side e.1 e.2)) s.tableau.rowCount = none ↔
      ∀ e ∈ f, s.isEligible side e.1 e.2 = false := by
    intro f
    rw [Stage.choosePartner_eq_none_iff, LinearForm.vars, List.map_eq_nil_iff, List.filter_eq_nil_iff]
    simp only [Bool.not_eq_true]
  rw [partner?, bind_eq_ok]
  constructor
  · rintro ⟨f, hf, hp⟩
    exact ⟨f, hf, (hnone f).mp (Except.ok.inj hp)⟩
  · rintro ⟨f, hf, hp⟩
    exact ⟨f, hf, congrArg Except.ok ((hnone f).mpr hp)⟩

/-- Whether a row has no partner to offer does not depend on the stage. -/
theorem Idle.partner?_eq_none_iff (h : Idle s t) : t.partner? x side = .ok none ↔ s.partner? x side = .ok none := by
  simp only [Solver.partner?_eq_none_iff, isEligible, h.tableau, h.store]

variable [DecidableEq τ] {c d : Conflict τ} {p : Option (Outcome τ)} {answer : Option (Conflict τ)}

theorem conflictOf_eq_some_iff : s.conflictOf x = .ok (some c) ↔
    ∃ v, s.violation? x = some v ∧ s.partner? x v.side = .ok none ∧ s.explain x v = .ok c := by
  constructor
  · intro h
    have hx := conflictOf_requires h
    rw [conflictOf, if_pos hx] at h
    obtain ⟨slot, hslot, h⟩ := bind_eq_ok.mp h
    cases hv : slot.violation? with
    | none =>
      rw [hv] at h
      cases h
    | some v =>
      rw [hv] at h
      obtain ⟨partner, hp, h⟩ := bind_eq_ok.mp h
      cases partner with
      | some y => cases h
      | none =>
        obtain ⟨c', hc, h⟩ := bind_eq_ok.mp h
        cases h
        refine ⟨v, ?_, hp, hc⟩
        rw [violation?, if_pos hx, Store.slot_eq_ok_iff.mp hslot]
        exact hv
  · rintro ⟨v, hv, hp, hc⟩
    exact conflictOf_of_blocked hv hp hc

theorem Idle.conflictOf_eq_some_iff (h : Idle s t) : t.conflictOf x = .ok (some c) ↔ s.conflictOf x = .ok (some c) := by
  simp only [Solver.conflictOf_eq_some_iff, h.violation?, h.partner?_eq_none_iff, h.explain]

/-- A variable whose row shows a conflict is queued. -/
theorem Sound.mem_order (h : s.Sound ds) (hc : s.conflictOf x = .ok (some c)) :
    x ∈ s.queue.order ∧ s.isBasic x = true ∧ ¬s.Within x := by
  obtain ⟨v, hv, -⟩ := Solver.conflictOf_eq_some_iff.mp hc
  obtain ⟨hx, hout⟩ := outside_of_violation? hv
  exact ⟨h.queued x hx hout, hx, hout⟩

/-! ### The least conflict -/

/-- `d` is a conflict that a row shows, and no row shows one with fewer tokens. The tokens of a conflict are distinct. -/
structure Least (s : Solver τ) (d : Conflict τ) : Prop where
  shown : ∃ x, s.conflictOf x = .ok (some d)
  nodup : ∀ x c, s.conflictOf x = .ok (some c) → c.tokens.Nodup
  le : ∀ x c, s.conflictOf x = .ok (some c) → d.size ≤ c.size

theorem Idle.least (hi : Idle s t) (h : t.Least d) : s.Least d where
  shown := h.shown.imp fun _ => hi.conflictOf_eq_some_iff.mp
  nodup x c hc := h.nodup x c (hi.conflictOf_eq_some_iff.mpr hc)
  le x c hc := h.le x c (hi.conflictOf_eq_some_iff.mpr hc)

theorem Coherent.nodup_conflictOf (h : s.Coherent ds) (hc : s.conflictOf x = .ok (some c)) : c.tokens.Nodup := by
  obtain ⟨answer, hanswer, hsound⟩ := conflictOf_ok h.shaped h.denotes h.solves (conflictOf_requires hc)
  cases hc.symm.trans hanswer
  exact (hsound c rfl).nodup

theorem Sound.earlyConflict_least (h : s.Sound ds) (hc : s.conflictOf x = .ok (some c)) :
    ∃ d t, s.earlyConflict = .ok (some d, t) ∧ s.Least d := by
  obtain ⟨answer, t, ht, -⟩ := earlyConflict_ok h
  obtain ⟨u, answers, hu, hanswers, rfl, -⟩ := earlyConflict_inv ht
  have hi := hu.idle
  -- The scan asks every variable whose row shows a conflict.
  have hmem : ∀ {y e}, s.conflictOf y = .ok (some e) → e ∈ answers.filterMap id := by
    intro y e hy
    obtain ⟨answer, hin, hanswer⟩ := mem_of_mapM hanswers (mem_violators.mpr (h.mem_order hy))
    rw [hi.conflictOf_eq_some_iff.mpr hy] at hanswer
    exact List.mem_filterMap.mpr ⟨answer, hin, (Except.ok.inj hanswer).symm⟩
  obtain ⟨d, n, hsmallest⟩ := Conflict.exists_smallest (hmem hc)
  rw [hsmallest] at ht
  refine ⟨d, t, ht, ?_, fun y e hy => h.coherent.nodup_conflictOf hy, fun y e hy => Conflict.le_of_smallest hsmallest (hmem hy)⟩
  obtain ⟨answer, hin, hanswer⟩ := List.mem_filterMap.mp (Conflict.mem_of_smallest hsmallest)
  obtain ⟨y, -, hy⟩ := exists_of_mapM hanswers hin
  exact ⟨y, hi.conflictOf_eq_some_iff.mp (hy.trans (congrArg _ hanswer))⟩

/-! ### Searches that find a conflict at once -/

/-- Every search that may make a pass answers the least conflict of the rows, makes no pivot, and moves nothing. -/
structure Exposes (s : Solver τ) (d : Conflict τ) : Prop where
  least : s.Least d
  search : ∀ {β : Type} (budget : Budget β) b n, (budget.ask b).1 = false → 0 < n →
    ∃ b' t, s.repairUpTo n budget b = .ok (.unsat d, b', t) ∧ Idle s t ∧ t.tally.pivots = s.tally.pivots

theorem Exposes.repair (h : s.Exposes d) : ∃ t, s.repair = .ok (some d, t) ∧ Idle s t ∧ t.tally.pivots = s.tally.pivots := by
  obtain ⟨b, t, ht, hrest⟩ := h.search .unlimited () s.roundBound rfl (Nat.succ_pos _)
  refine ⟨t, ?_, hrest⟩
  rw [Solver.repair, repairWithin, ht]
  rfl

theorem Sound.isEmpty_eq_false (h : s.Sound ds) (hc : s.conflictOf x = .ok (some c)) : s.queue.isEmpty = false := by
  rw [RepairQueue.isEmpty, List.isEmpty_eq_false_iff_exists_mem]
  exact ⟨x, (h.mem_order hc).1⟩

/-- A search begins with fresh counters, and with a scan if that is on and more than one variable is queued. -/
theorem Sound.beginRepair_eq (h : s.Sound ds) : ∃ w, Idle s w ∧ w.Sound ds ∧ s.beginRepair =
    if s.settings.earlyScan && decide (1 < s.queue.size) then w.earlyConflict else .ok (none, w) := by
  exact ⟨{ s with foundConflict := false, pivotsSinceConflict := 0 }, ⟨rfl, rfl, rfl, rfl⟩,
    ⟨h.coherent.idle ⟨rfl, rfl, rfl, rfl⟩, h.queued, h.sorted⟩, rfl⟩

/-- A queue of more than one variable is scanned. -/
theorem Sound.exposes_of_scan (h : s.Sound ds) (hscan : s.settings.earlyScan = true) (hsize : 1 < s.queue.size)
    (hc : s.conflictOf x = .ok (some c)) : ∃ d, s.Exposes d := by
  obtain ⟨w, hi, hws, hbegin⟩ := h.beginRepair_eq
  simp only [hscan, hsize, decide_true, Bool.and_self, if_true] at hbegin
  obtain ⟨d, u, hu, hleast⟩ := hws.earlyConflict_least (hi.conflictOf_eq_some_iff.mpr hc)
  rw [← hbegin] at hu
  obtain ⟨answer, u', hu', hpaused, -, -, hsound⟩ := beginRepair_ok h
  cases hu.symm.trans hu'
  obtain ⟨t, ht, -⟩ := leaveRepair_ok ((hpaused.idle.keeps h.coherent).unsat (hsound d rfl))
  refine ⟨d, hi.least hleast, fun budget b n _ _ => ⟨b, t, ?_, (idle_beginRepair hu).trans (idle_leaveRepair ht),
    (pivots_leaveRepair ht).trans (pivots_beginRepair hu)⟩⟩
  rw [repairUpTo_of_early (h.isEmpty_eq_false hc) hu, ht]
  rfl

/-- A pass that may be made finds the conflict of the only variable that lies outside its bounds. -/
theorem Sound.pass_of_only (h : s.Sound ds) (hc : s.conflictOf x = .ok (some c))
    (honly : ∀ y, s.isBasic y = true → ¬s.Within y → y = x) (hask : (budget.ask b).1 = false) :
    ∃ t, s.pass budget b = .ok (some (.unsat c), (budget.ask b).2, t) ∧ Idle s t ∧ t.tally.pivots = s.tally.pivots := by
  obtain ⟨u, hu, hopened, hqueued, hsorted⟩ := openRound_ok h
  have hiu := hopened.idle
  rcases takeViolated_cases hqueued hsorted with ⟨-, hall⟩ | ⟨y, v, q, htaken, hv, -⟩
  · obtain ⟨-, hx, hout⟩ := h.mem_order hc
    exact absurd (hiu.within.mp (hall x ((hiu.isBasic x).trans hx))) hout
  obtain ⟨r, hr⟩ : ∃ r : Solver τ, r = { u with queue := q, rounds := u.rounds + 1 } := ⟨_, rfl⟩
  have hir : Idle u r := hr ▸ ⟨rfl, rfl, rfl, rfl⟩
  obtain ⟨hy, hyout⟩ := outside_of_violation? hv
  obtain rfl := honly y ((hiu.isBasic y).symm.trans hy) (hiu.within.not.mp hyout)
  obtain ⟨v', hv', hp, hexplain⟩ := Solver.conflictOf_eq_some_iff.mp ((hiu.trans hir).conflictOf_eq_some_iff.mpr hc)
  obtain rfl : v' = v := Option.some.inj ((hv'.symm.trans (hir.violation? y)).trans hv)
  refine ⟨_, pass_of_round hu hask (RoundStep.round_eq (.blocked htaken hr hp hexplain)),
    (hiu.trans hir).trans (idle_note r _), ?_⟩
  rw [pivots_note_of_ne _ (by rintro ⟨⟩), pivots_counted htaken hr, pivots_openRound hu]

/-- A queue of one variable is not scanned, and the first round takes that variable. -/
theorem Sound.exposes_of_single (h : s.Sound ds) (hsize : s.queue.size ≤ 1) (hc : s.conflictOf x = .ok (some c)) :
    s.Exposes c := by
  have honly : ∀ {y}, y ∈ s.queue.order → y = x := by
    intro y hy
    have hin := (h.mem_order hc).1
    obtain ⟨z, hz⟩ := List.length_eq_one_iff.mp (Nat.le_antisymm hsize (List.length_pos_of_mem hin))
    rw [hz, List.mem_singleton] at hin hy
    exact hy.trans hin.symm
  refine ⟨⟨⟨x, hc⟩, fun y e hy => h.coherent.nodup_conflictOf hy, fun y e hy => ?_⟩, fun budget b n hask hn => ?_⟩
  · obtain rfl := honly (h.mem_order hy).1
    cases hc.symm.trans hy
    exact Nat.le_refl _
  obtain ⟨w, hi, hws, hbegin⟩ := h.beginRepair_eq
  simp only [Nat.not_lt.mpr hsize, decide_false, Bool.and_false, Bool.false_eq_true, if_false] at hbegin
  obtain ⟨u, hu, hiu, hpivots⟩ := hws.pass_of_only (hi.conflictOf_eq_some_iff.mpr hc)
    (fun y hy hout => honly (h.queued y ((hi.isBasic y).symm.trans hy) (hi.within.not.mp hout))) hask
  obtain ⟨m, rfl⟩ := Nat.exists_eq_succ_of_ne_zero (Nat.pos_iff_ne_zero.mp hn)
  have hrun := runRounds_of_ends (n := m) hu
  obtain ⟨t, ht, -⟩ := leaveRepair_ok (runRounds_searched hws hrun)
  refine ⟨(budget.ask b).2, t, ?_, (hi.trans hiu).trans (idle_leaveRepair ht), ?_⟩
  · rw [repairUpTo_of_begin (h.isEmpty_eq_false hc) hbegin, hrun, ok_bind, ht]
    rfl
  · rw [pivots_leaveRepair ht, hpivots, pivots_beginRepair hbegin]

theorem Sound.exposes (h : s.Sound ds) (hscan : s.settings.earlyScan = true) (hc : s.conflictOf x = .ok (some c)) :
    ∃ d, s.Exposes d := by
  rcases Nat.lt_or_ge 1 s.queue.size with hsize | hsize
  · exact h.exposes_of_scan hscan hsize hc
  · exact ⟨c, h.exposes_of_single hsize hc⟩

/-! ### After a conflict -/

theorem shown_of_round (h : s.round = .ok (some (.unsat c), t)) : ∃ x, t.conflictOf x = .ok (some c) := by
  cases round_inv h with
  | blocked ht hu hp hc =>
    have hv := ((idle_counted ht hu).violation? _).trans (violation?_of_takeViolated ht)
    exact ⟨_, (idle_note _ _).conflictOf_eq_some_iff.mpr (conflictOf_of_blocked hv hp hc)⟩
  | refuted ht hu hp hw hc => exact ⟨_, (idle_note _ _).conflictOf_eq_some_iff.mpr hc⟩

theorem shown_of_runRounds (h : s.runRounds budget n b = .ok (.unsat c, b', t)) : ∃ x, t.conflictOf x = .ok (some c) := by
  induction n generalizing s b with
  | zero => cases h
  | succ n ih =>
    obtain ⟨⟨p, d, u⟩, hu, h⟩ := bind_eq_ok.mp h
    cases p with
    | none => exact ih h
    | some p =>
      cases h
      obtain ⟨-, hpass⟩ := pass_inv hu
      cases hpass with
      | allowed hu hask ht => exact shown_of_round ht

theorem shown_of_beginRepair (h : s.beginRepair = .ok (some c, t)) : ∃ x, t.conflictOf x = .ok (some c) := by
  have hi := idle_beginRepair h
  unfold beginRepair at h
  simp only at h
  split at h
  · obtain ⟨u, answers, hu, hanswers, hanswer, -⟩ := earlyConflict_inv h
    obtain ⟨⟨d, n⟩, hsmallest, hd⟩ := Option.map_eq_some_iff.mp hanswer.symm
    obtain ⟨answer, hin, hsome⟩ := List.mem_filterMap.mp (Conflict.mem_of_smallest hsmallest)
    obtain ⟨x, -, hx⟩ := exists_of_mapM hanswers hin
    cases hd
    have hiu : Idle s u := Idle.trans (t := { s with foundConflict := false, pivotsSinceConflict := 0 }) ⟨rfl, rfl, rfl, rfl⟩ hu.idle
    exact ⟨x, (hiu.symm.trans hi).conflictOf_eq_some_iff.mpr (hx.trans (congrArg _ hsome))⟩
  · cases h

/-- The state after a search shows the conflict that the search has answered. -/
theorem shown_of_repairUpTo (h : s.repairUpTo n budget b = .ok (.unsat c, b', t)) : ∃ x, t.conflictOf x = .ok (some c) := by
  cases repairUpTo_inv h with
  | early he hu ht =>
    obtain ⟨x, hx⟩ := shown_of_beginRepair hu
    exact ⟨x, (idle_leaveRepair ht).conflictOf_eq_some_iff.mpr hx⟩
  | passes he hu hw ht =>
    obtain ⟨x, hx⟩ := shown_of_runRounds hw
    exact ⟨x, (idle_leaveRepair ht).conflictOf_eq_some_iff.mpr hx⟩

variable {settings : Settings} {admits : Solver τ → Var → DeltaRat → Prop}

/-- With the early scan, if the row of some variable shows a conflict, every search that may make a pass answers at once the
    smallest conflict that a row shows. So it is after a search that has answered a conflict, and the next one is not larger. -/
theorem Reached.exposes_conflicts (h : Reached settings admits ds s) (hscan : s.settings.earlyScan = true) :
    (∀ x c, s.conflictOf x = .ok (some c) → ∃ d, s.Exposes d ∧
      ∃ t, s.repair = .ok (some d, t) ∧ Idle s t ∧ t.tally.pivots = s.tally.pivots) ∧
    ∀ (β : Type) (budget : Budget β) b n c b' t, s.repairUpTo n budget b = .ok (.unsat c, b', t) →
      ∃ d, t.Exposes d ∧ d.size ≤ c.size ∧
        ∃ u, t.repair = .ok (some d, u) ∧ Idle t u ∧ u.tally.pivots = t.tally.pivots := by
  have hs := h.sound
  refine ⟨fun x c hc => ?_, fun β budget b n c b' t ht => ?_⟩
  · obtain ⟨d, hd⟩ := hs.exposes hscan hc
    exact ⟨d, hd, hd.repair⟩
  · obtain ⟨hsearched, hts⟩ := repairUpTo_searched hs ht
    obtain ⟨x, hx⟩ := shown_of_repairUpTo ht
    obtain ⟨d, hd⟩ := hts.exposes (hsearched.keeps.settings ▸ hscan) hx
    exact ⟨d, hd, hd.least.le x c hx, hd.repair⟩

/-- Two rows cannot reach their bounds. The conflict of the one that is queued first has three tokens, that of the other one two; a
    search answers two tokens, and so does the next one. -/
theorem Reached.exposes_conflicts_of_rows : ∃ (s t : Solver Nat) (d : Conflict Nat),
    Reached .standard WithinBounds [(3, [(4, 1)]), (2, [(0, 1), (1, 1)])] s ∧ s.settings.earlyScan = true ∧
      s.queue.order = [2, 3] ∧ s.conflictOf 2 = .ok (some ⟨[2, 0, 1]⟩) ∧ s.conflictOf 3 = .ok (some ⟨[3, 4]⟩) ∧
      s.repairUpTo 9 .unlimited () = .ok (.unsat d, (), t) ∧ Idle s t ∧ d.size ≤ 2 ∧ ∃ e, t.Exposes e ∧ e.size ≤ d.size := by
  have hrun : (do
      let s ← (Solver.new .standard).addRow 2 [(0, 1), (1, 1)]
      let s ← s.addRow 3 [(4, 1)]
      let (_, s) ← s.assertBound .upper 0 (.ofRat 0) 0
      let (_, s) ← s.assertBound .upper 1 (.ofRat 0) 1
      let (_, s) ← s.assertBound .upper 4 (.ofRat 0) 4
      let (_, s) ← s.assertBound .lower 2 (.ofRat 5) 2
      let (_, s) ← s.assertBound .lower 3 (.ofRat 1) 3
      return (s.settings.earlyScan, s.queue.order, ← s.conflictOf 2, ← s.conflictOf 3)) =
      (.ok (true, [2, 3], some ⟨[2, 0, 1]⟩, some ⟨[3, 4]⟩) :
        Except Fault (Bool × List Var × Option (Conflict Nat) × Option (Conflict Nat))) := by decide +kernel
  obtain ⟨s₁, h₁, hrun⟩ := bind_eq_ok.mp hrun
  obtain ⟨s₂, h₂, hrun⟩ := bind_eq_ok.mp hrun
  obtain ⟨⟨_, s₃⟩, h₃, hrun⟩ := bind_eq_ok.mp hrun
  obtain ⟨⟨_, s₄⟩, h₄, hrun⟩ := bind_eq_ok.mp hrun
  obtain ⟨⟨_, s₅⟩, h₅, hrun⟩ := bind_eq_ok.mp hrun
  obtain ⟨⟨_, s₆⟩, h₆, hrun⟩ := bind_eq_ok.mp hrun
  obtain ⟨⟨_, s⟩, h₇, hrun⟩ := bind_eq_ok.mp hrun
  obtain ⟨two, htwo, hrun⟩ := bind_eq_ok.mp hrun
  obtain ⟨three, hthree, hrun⟩ := bind_eq_ok.mp hrun
  have hvalues := Except.ok.inj hrun
  simp only [Prod.mk.injEq] at hvalues
  obtain ⟨hscan, horder, rfl, rfl⟩ := hvalues
  have hs : Reached .standard WithinBounds [(3, [(4, 1)]), (2, [(0, 1), (1, 1)])] s :=
    .call (.call (.call (.call (.call (.call (.call .new (.addRow _ _ h₁)) (.addRow _ _ h₂)) (.assertBound _ _ _ _ h₃))
      (.assertBound _ _ _ _ h₄)) (.assertBound _ _ _ _ h₅)) (.assertBound _ _ _ _ h₆)) (.assertBound _ _ _ _ h₇)
  obtain ⟨d, hd, -⟩ := (hs.exposes_conflicts hscan).1 2 _ htwo
  obtain ⟨b, t, ht, hi, -⟩ := hd.search .unlimited () 9 rfl (by decide)
  obtain ⟨e, he, hle, -⟩ := (hs.exposes_conflicts hscan).2 _ _ _ _ _ _ _ ht
  exact ⟨s, t, d, hs, hscan, horder, htwo, hthree, ht, hi, hd.least.le 3 _ hthree, e, he, hle⟩

end Solver

end LinReal
