import LinReal.Proofs.Solver.AntiCycle
import LinReal.Proofs.Solver.Reached

/-! Searches end. The heuristic stage has a bounded number of rounds, which interruptions do not start afresh, and a round of
    the anti-cycle stage is a turn of the anti-cycle rule. Nothing between two rounds moves a variable, so the rounds of
    interrupted searches make up one run of turns, and that run is short. -/

namespace LinReal

namespace Situation

variable {τ : Type} {bounds : Bounds τ} {solves : (Var → DeltaRat) → Prop} {N : Nat} {p q : Situation} {x y : Var}

def Run.rest (p : Situation) (h : Valid bounds solves p) : Run bounds solves 0 where
  state _ := p
  leaves _ := 0
  enters _ := 0
  turn _ hk := absurd hk (Nat.not_lt_zero _)
  valid _ _ := h

def Run.extend (R : Run bounds solves N) (ht : Turn bounds solves (R.state N) q x y) (hq : Valid bounds solves q) :
    Run bounds solves (N + 1) where
  state k := if k ≤ N then R.state k else q
  leaves k := if k < N then R.leaves k else x
  enters k := if k < N then R.enters k else y
  turn k hk := by
    rcases Nat.lt_succ_iff_lt_or_eq.mp hk with hlt | rfl
    · simp only [hlt.le, Nat.succ_le_of_lt hlt, hlt, if_true]
      exact R.turn k hlt
    · simp only [le_refl, Nat.not_succ_le_self, lt_irrefl, if_true, if_false]
      exact ht
  valid k _ := by
    split
    · rename_i hk
      exact R.valid k hk
    · exact hq

end Situation

namespace Solver

variable {τ β : Type} {s t u : Solver τ} {ds : List (Var × LinearForm)} {settings : Settings} {x y : Var}
  {v : Violation τ} {budget : Budget β} {b : β} {n : Nat}

def situation (s : Solver τ) : Situation := ⟨s.isBasic, s.store.value⟩

theorem Idle.situation (h : Idle s t) : t.situation = s.situation := by
  rw [Solver.situation, Solver.situation, h.store, show t.isBasic = s.isBasic from funext h.isBasic]

/-- A round of the anti-cycle stage is a turn. -/
theorem Repaired.turn (hr : Repaired s t x v y) (h : s.Coherent ds) (hst : s.queue.stage = .antiCycle) :
    Situation.Turn s.store.bounds s.tableau.SolvesDelta s.situation t.situation x y := by
  obtain ⟨hx, hbound, hout⟩ := bounds_of_violation? hr.violation
  obtain ⟨f, a, hf, hya, hel, hsmall⟩ := hr.row
  obtain ⟨q, -, hp⟩ := hr.pivoted
  have hwf := h.shaped.wellFormed
  have hlt : ∀ e ∈ f, e.1 < s.store.size := fun e he => h.shaped.size ▸ hwf.range hf (LinearForm.mem_vars_of_mem he)
  refine ⟨hx, hwf.nonbasic hf (LinearForm.mem_vars_of_mem hya), fun z => hp.isBasic_iff ⟨hwf, h.shaped.size⟩,
    fun z hz hzy => hp.nonbasic hz hzy, hr.least hst, v.side, v.bound, f, a, hbound, hout, hp.leaving,
    fun w hw => hw x f hf, hwf.normal hf, fun z hz => hwf.nonbasic hf hz, hya, fun l hl => ?_, fun e he hey => ?_⟩
  · by_contra hreached
    rw [Bool.not_eq_false] at hreached
    have hno := (isEligible_eq_false_iff (hlt _ hya)).mpr ⟨l, hl, hreached⟩
    rw [hno] at hel
    cases hel
  · exact (isEligible_eq_false_iff (hlt e he)).mp (hsmall hst e he hey)

theorem Coherent.valid (h : t.Coherent ds) (hset : t.Settled) (hb : t.store.bounds = s.store.bounds)
    (hsolves : ∀ w, t.tableau.SolvesDelta w ↔ s.tableau.SolvesDelta w) :
    Situation.Valid s.store.bounds s.tableau.SolvesDelta t.situation :=
  ⟨(hsolves _).mp h.solves, fun z hz => hb ▸ hset z hz⟩

/-! ### Rounds of interrupted searches -/

/-- The number of heuristic rounds of a search. -/
def heuristicRounds (s : Solver τ) : Nat := s.settings.roundLimit s.variableCount

/-- `n` rounds have led from `s` to `t`, the last `N` of them in the anti-cycle stage. -/
structure Progress (ds : List (Var × LinearForm)) (s : Solver τ) (n : Nat) (t : Solver τ) : Prop where
  keeps : Keeps ds s t
  settled : t.Settled
  phase : (t.queue.stage = .heuristic ∧ t.rounds = s.rounds + n ∧ n ≤ s.heuristicRounds) ∨
    (t.queue.stage = .antiCycle ∧ ∃ m N, n = m + N ∧ m ≤ s.heuristicRounds ∧
      ∃ R : Situation.Run s.store.bounds s.tableau.SolvesDelta N, R.state N = t.situation ∧
        ∀ k < N, s.isRegistered (R.leaves k) = true ∧ s.isRegistered (R.enters k) = true)

theorem Keeps.solves_iff (h : Keeps ds s t) (hs : s.Coherent ds) (w : Var → DeltaRat) :
    t.tableau.SolvesDelta w ↔ s.tableau.SolvesDelta w :=
  h.coherent.denotes.delta.trans hs.denotes.delta.symm

theorem Progress.start (h : s.Coherent ds) (hset : s.Settled) : Progress ds s 0 s := by
  refine ⟨(Idle.refl s).keeps h, hset, ?_⟩
  cases hst : s.queue.stage with
  | heuristic => exact Or.inl ⟨rfl, rfl, Nat.zero_le _⟩
  | antiCycle =>
    refine Or.inr ⟨rfl, 0, 0, rfl, Nat.zero_le _, .rest s.situation (h.valid hset rfl fun _ => Iff.rfl), rfl, ?_⟩
    exact fun k hk => absurd hk (Nat.not_lt_zero k)

/-- What moves nothing makes no progress; it may leave the heuristic stage. -/
theorem Progress.rest (hp : Progress ds s n t) (h : s.Coherent ds) (hi : Idle t u) (hr : u.rounds = t.rounds)
    (hst : u.queue.stage = .heuristic → t.queue.stage = .heuristic) : Progress ds s n u := by
  have hkeeps := hp.keeps.trans (hi.keeps hp.keeps.coherent)
  have hset := hi.settled hp.settled
  refine ⟨hkeeps, hset, ?_⟩
  cases hu : u.queue.stage with
  | heuristic =>
    rcases hp.phase with ⟨-, hrounds, hn⟩ | ⟨ht, -⟩
    · exact Or.inl ⟨rfl, hr.trans hrounds, hn⟩
    · exact absurd ((hst hu).symm.trans ht) (by rintro ⟨⟩)
  | antiCycle =>
    rcases hp.phase with ⟨-, -, hn⟩ | ⟨-, m, N, hmN, hm, R, hR, hreg⟩
    · -- The run of turns begins here.
      have hvalid := hkeeps.coherent.valid hset hkeeps.carries.bounds (hkeeps.solves_iff h)
      exact Or.inr ⟨rfl, n, 0, rfl, hn, .rest u.situation hvalid, rfl, fun k hk => absurd hk (Nat.not_lt_zero k)⟩
    · exact Or.inr ⟨rfl, m, N, hmN, hm, R, hR.trans hi.situation.symm, hreg⟩

/-- A pass that goes on is one round of progress. -/
theorem Progress.turn (hp : Progress ds s n t) (h : s.Coherent ds) (ht : Turned t u) (hk : Keeps ds t u) :
    Progress ds s (n + 1) u := by
  obtain ⟨w, x, v, y, hopened, hrepaired⟩ := ht.exists_repaired
  have hw := hp.rest h hopened.idle hopened.rounds fun hst => (hopened.stage hst).1
  have hkeeps := hp.keeps.trans hk
  have hset := hk.settled hp.settled
  obtain ⟨q, hq, hpivoted⟩ := hrepaired.pivoted
  have hst : u.queue.stage = w.queue.stage := hpivoted.frame.queue.stage.trans hq
  refine ⟨hkeeps, hset, ?_⟩
  -- A heuristic round is counted; one of the anti-cycle stage is added to the run of turns.
  rcases hw.phase with ⟨hwst, hrounds, hn⟩ | ⟨hwst, m, N, hmN, hm, R, hR, hreg⟩
  · refine Or.inl ⟨hst.trans hwst, ?_, ?_⟩
    · rw [hpivoted.frame.rounds, ← Nat.add_assoc, ← hrounds]
    · have hlt := (hopened.stage hwst).2
      have hlimit : t.settings.roundLimit t.variableCount = s.heuristicRounds := by
        rw [heuristicRounds, hp.keeps.settings, variableCount, hp.keeps.registered, variableCount]
      rw [hlimit, ← hopened.rounds, hrounds] at hlt
      omega
  · have hcoh := hw.keeps.coherent
    have hturn := hrepaired.turn hcoh hwst
    obtain ⟨f, a, hf, hya, -⟩ := hrepaired.row
    have hregs := hcoh.isRegistered hf
    have hsreg : ∀ {z}, w.isRegistered z = true → s.isRegistered z = true := fun hz => by
      rwa [isRegistered, hw.keeps.registered] at hz
    -- Bounds and solutions of the rows are those that the run began with.
    have hturn' : Situation.Turn s.store.bounds s.tableau.SolvesDelta (R.state N) u.situation x y := by
      rw [hR, ← hw.keeps.carries.bounds,
        show s.tableau.SolvesDelta = w.tableau.SolvesDelta from funext fun _ => propext (hw.keeps.solves_iff h _).symm]
      exact hturn
    have hvalid := hkeeps.coherent.valid hset hkeeps.carries.bounds (hkeeps.solves_iff h)
    refine Or.inr ⟨hst.trans hwst, m, N + 1, by omega, hm, R.extend hturn' hvalid, ?_, fun k hk => ?_⟩
    · simp [Situation.Run.extend]
    · simp only [Situation.Run.extend]
      split
      · rename_i hlt
        exact hreg k hlt
      · exact ⟨hsreg hregs.1, hsreg (hregs.2 y (LinearForm.mem_vars_of_mem hya))⟩

theorem Progress.lt (hp : Progress ds s n t) : n < s.heuristicRounds + 4 ^ s.variableCount := by
  rcases hp.phase with ⟨-, -, hn⟩ | ⟨-, m, N, rfl, hm, R, -, hreg⟩
  · exact Nat.lt_of_le_of_lt hn (Nat.lt_add_of_pos_right (Nat.pow_pos (by decide)))
  · have hcard : s.registered.members.toFinset.card = s.variableCount :=
      (List.toFinset_card_of_nodup s.registered.nodup_members).trans s.registered.length_members
    have hlt := R.length_lt s.registered.members.toFinset fun k hk => by
      rw [List.mem_toFinset, List.mem_toFinset, VarSet.mem_members, VarSet.mem_members]
      exact hreg k hk
    rw [hcard] at hlt
    exact Nat.add_lt_add_of_le_of_lt hm hlt

/-! ### Searches end -/

theorem heuristicRounds_le_roundBound (s : Solver τ) : s.heuristicRounds + 4 ^ s.variableCount ≤ s.roundBound :=
  Nat.le_add_right _ _

variable [DecidableEq τ]

/-- The passes of a search end within the bound. If the budget interrupts them, they have made progress unless it did so
    at once. -/
theorem runRounds_ok (hp : Progress ds s n t) (h : s.Coherent ds) (ht : t.Sound ds) {fuel : Nat}
    (hfuel : s.heuristicRounds + 4 ^ s.variableCount ≤ n + fuel) (budget : Budget β) (b : β) :
    ∃ o b' u, t.runRounds budget fuel b = .ok (o, b', u) ∧ (o = .interrupted → (∃ c, (budget.ask c).1 = true) ∧
      ∃ m, n ≤ m ∧ ((budget.ask b).1 = false → n < m) ∧ Progress ds s m u) := by
  induction fuel generalizing n t b with
  | zero =>
    -- The passes never run out, since as much progress as `hfuel` speaks of is impossible.
    exact absurd hfuel (Nat.not_le.mpr hp.lt)
  | succ fuel ih =>
    obtain ⟨o, b', w, hw, hsearched, -, hgoes, hinterrupted⟩ := pass_ok ht budget b
    rw [runRounds, hw, ok_bind]
    cases o with
    | none =>
      obtain ⟨o, b'', u, hu, hprogress⟩ := ih (hp.turn h (hgoes rfl).2 hsearched.keeps) hsearched.sound (by omega) b'
      refine ⟨o, b'', u, hu, fun ho => ?_⟩
      obtain ⟨hask, m, hm, -, hmp⟩ := hprogress ho
      exact ⟨hask, m, Nat.le_of_succ_le hm, fun _ => hm, hmp⟩
    | some o =>
      refine ⟨o, b', w, rfl, fun ho => ?_⟩
      obtain ⟨hask, hopened⟩ := hinterrupted (congrArg some ho)
      exact ⟨⟨b, hask⟩, n, Nat.le_refl n, fun hno => absurd (hno.symm.trans hask) Bool.noConfusion,
        hp.rest h hopened.idle hopened.rounds fun hst => (hopened.stage hst).1⟩

/-- A search ends within the bound, as `runRounds_ok` says of its passes. -/
theorem repairUpTo_ok (hp : Progress ds s n t) (h : s.Coherent ds) (ht : t.Sound ds) {fuel : Nat}
    (hfuel : s.heuristicRounds + 4 ^ s.variableCount ≤ n + fuel) (budget : Budget β) (b : β) :
    ∃ o b' u, t.repairUpTo fuel budget b = .ok (o, b', u) ∧ (o = .interrupted → (∃ c, (budget.ask c).1 = true) ∧
      ∃ m, n ≤ m ∧ ((budget.ask b).1 = false → n < m) ∧ Progress ds s m u) := by
  cases he : t.queue.isEmpty with
  | true => exact ⟨.sat, b, t.endRepair, by rw [repairUpTo, he]; rfl, fun ho => by cases ho⟩
  | false =>
    obtain ⟨c, w, hw, hpaused, hqueued, hsorted, hsound⟩ := beginRepair_ok ht
    have hkeeps := hpaused.idle.keeps ht.coherent
    cases c with
    | some c =>
      obtain ⟨u, hu, -⟩ := leaveRepair_ok (hkeeps.unsat (hsound c rfl))
      refine ⟨.unsat c, b, u, ?_, fun ho => by cases ho⟩
      rw [repairUpTo_of_early he hw, hu]
      rfl
    | none =>
      have hwp := hp.rest h hpaused.idle hpaused.rounds fun hst => hpaused.stage.symm.trans hst
      have hws : w.Sound ds := ⟨hkeeps.coherent, hqueued, hsorted⟩
      obtain ⟨o, b', w', hw', hprogress⟩ := runRounds_ok hwp h hws hfuel budget b
      obtain ⟨u, hu, -, -, -, hpaused'⟩ := leaveRepair_ok (runRounds_searched hws hw')
      refine ⟨o, b', u, ?_, fun ho => ?_⟩
      · rw [repairUpTo_of_begin he hw, hw', ok_bind, hu]
        rfl
      · obtain ⟨hask, m, hm, hmlt, hmp⟩ := hprogress ho
        have hrest := hpaused' ho
        exact ⟨hask, m, hm, hmlt, hmp.rest h hrest.idle hrest.rounds fun hst => hrest.stage.symm.trans hst⟩

theorem repairUpTo_mono {o : Outcome τ} {b' : β} {m : Nat} (hnm : n ≤ m) (hr : s.repairUpTo n budget b = .ok (o, b', t)) :
    s.repairUpTo m budget b = .ok (o, b', t) := by
  cases he : s.queue.isEmpty with
  | true =>
    rw [repairUpTo, he] at hr ⊢
    exact hr
  | false =>
    rw [repairUpTo, he] at hr ⊢
    simp only [Bool.false_eq_true, if_false] at hr ⊢
    obtain ⟨⟨c, w⟩, hw, hr⟩ := bind_eq_ok.mp hr
    rw [hw, ok_bind]
    cases c with
    | some c => exact hr
    | none =>
      obtain ⟨⟨o', c', u⟩, hu, hr⟩ := bind_eq_ok.mp hr
      simp only
      rw [runRounds_mono hnm hu]
      exact hr

/-- A search that may take as many passes as it needs ends; only its budget interrupts it. -/
theorem repairUpTo_ends (h : s.Sound ds) (hset : s.Settled) (hn : s.roundBound ≤ n) (budget : Budget β) (b : β) :
    ∃ o b' t, s.repairUpTo n budget b = .ok (o, b', t) ∧ (o = .interrupted → ∃ c, (budget.ask c).1 = true) := by
  have hfuel : s.heuristicRounds + 4 ^ s.variableCount ≤ 0 + n := by
    rw [Nat.zero_add]
    exact (heuristicRounds_le_roundBound s).trans hn
  obtain ⟨o, b', t, ht, hinterrupted⟩ := repairUpTo_ok (Progress.start h.coherent hset) h.coherent h hfuel budget b
  exact ⟨o, b', t, ht, fun ho => (hinterrupted ho).1⟩

/-- A search without a budget ends, and is not interrupted. -/
theorem repairUpTo_unlimited_ends (h : s.Sound ds) (hset : s.Settled) :
    ∃ o t, (∀ n, s.roundBound ≤ n → s.repairUpTo n .unlimited () = .ok (o, (), t)) ∧ o ≠ .interrupted := by
  obtain ⟨o, b', t, ht, hinterrupted⟩ := repairUpTo_ends h hset (Nat.le_refl _) .unlimited ()
  refine ⟨o, t, fun n hn => repairUpTo_mono hn ht, fun ho => ?_⟩
  obtain ⟨c, hc⟩ := hinterrupted ho
  cases hc

/-- A repair without a budget answers, and its answer is right. -/
theorem repair_ok (h : s.Sound ds) (hset : s.Settled) :
    ∃ answer t, s.repair = .ok (answer, t) ∧ t.Sound ds ∧ Keeps ds s t ∧ (answer = none → ∀ x, t.Within x) ∧
      ∀ c, answer = some c → c.Sound ds t.store.bounds [] fun _ => True := by
  obtain ⟨o, t, ht, hended⟩ := repairUpTo_unlimited_ends h hset
  have hsearch := ht s.roundBound (Nat.le_refl _)
  obtain ⟨hsearched, hsound⟩ := repairUpTo_searched h hsearch
  have hrepair : s.repair = .ok (o.conflict?, t) := by
    rw [repair, repairWithin, hsearch]
    rfl
  refine ⟨o.conflict?, t, hrepair, hsound, hsearched.keeps, fun ho x => ?_, fun c hc => ?_⟩
  · cases o with
    | sat =>
      cases hx : t.isBasic x with
      | true => exact hsearched.sat rfl x hx
      | false => exact hsearched.keeps.settled hset x hx
    | unsat c => cases ho
    | interrupted => exact absurd rfl hended
  · cases o with
    | unsat c' =>
      obtain rfl := Option.some.inj hc
      exact hsearched.unsat c' rfl
    | sat => cases hc
    | interrupted => cases hc

/-- The first `k` of the searches that may make `limits 0`, `limits 1`, … pivots, made one after the other, were
    interrupted. -/
inductive Interrupted (limits : Nat → Nat) (s : Solver τ) : Nat → Solver τ → Prop where
  | none : Interrupted limits s 0 s
  | next {k t b u} (h : Interrupted limits s k t) (hu : t.repairWithin .pivots (limits k) = .ok (.interrupted, b, u)) :
    Interrupted limits s (k + 1) u

/-- Of searches made one after the other that may make at least one pivot each, some is not interrupted. -/
theorem exists_uninterrupted (hs : s.Sound ds) (hset : s.Settled) {limits : Nat → Nat} (hlimits : ∀ k, 1 ≤ limits k) :
    ∃ k t o b u, Interrupted limits s k t ∧ t.repairWithin .pivots (limits k) = .ok (o, b, u) ∧ o ≠ .interrupted := by
  by_contra hno
  -- If every search is interrupted, each of them makes progress, but progress is bounded.
  have key : ∀ k, ∃ t n, Interrupted limits s k t ∧ k ≤ n ∧ Progress ds s n t ∧ t.Sound ds := by
    intro k
    induction k with
    | zero => exact ⟨s, 0, .none, Nat.le_refl 0, Progress.start hs.coherent hset, hs⟩
    | succ k ih =>
      obtain ⟨t, n, hk, hkn, hp, ht⟩ := ih
      have hfuel : s.heuristicRounds + 4 ^ s.variableCount ≤ n + t.roundBound := by
        have heq : t.roundBound = s.roundBound := by
          rw [roundBound, roundBound, hp.keeps.settings, variableCount, hp.keeps.registered, variableCount]
        rw [heq]
        exact Nat.le_trans (heuristicRounds_le_roundBound s) (Nat.le_add_left _ _)
      obtain ⟨o, b', u, hu, hinterrupted⟩ := repairUpTo_ok hp hs.coherent ht hfuel .pivots (limits k)
      by_cases ho : o = .interrupted
      · obtain ⟨-, m, -, hm, hmp⟩ := hinterrupted ho
        have hask : (Budget.pivots.ask (limits k)).1 = false := beq_false_of_ne (Nat.ne_of_gt (hlimits k))
        exact ⟨u, m, .next hk (ho ▸ hu), Nat.lt_of_le_of_lt hkn (hm hask), hmp, (repairUpTo_searched ht hu).2⟩
      · exact absurd ⟨k, t, o, b', u, hk, hu, ho⟩ hno
  obtain ⟨t, n, -, hkn, hp, -⟩ := key (s.heuristicRounds + 4 ^ s.variableCount)
  exact absurd hp.lt (Nat.not_lt.mpr hkn)

/-- Every search ends within a bound on its passes, with an answer unless its budget interrupts it; and of searches made one
    after the other that may make at least one pivot each, some is not interrupted. -/
theorem Reached.terminates (h : Reached settings WithinBounds ds s) :
    (∀ (β : Type) (budget : Budget β) b, ∃ o b' t, ∀ n, s.roundBound ≤ n → s.repairUpTo n budget b = .ok (o, b', t)) ∧
    (∃ o t, (∀ n, s.roundBound ≤ n → s.repairUpTo n .unlimited () = .ok (o, (), t)) ∧ o ≠ .interrupted) ∧
    ∀ limits : Nat → Nat, (∀ k, 1 ≤ limits k) → ∃ k t o b u, Interrupted limits s k t ∧
      t.repairWithin .pivots (limits k) = .ok (o, b, u) ∧ o ≠ .interrupted := by
  have hs := h.sound
  refine ⟨fun β budget b => ?_, repairUpTo_unlimited_ends hs h.settled, fun limits => exists_uninterrupted hs h.settled⟩
  obtain ⟨o, b', t, ht, -⟩ := repairUpTo_ends hs h.settled (Nat.le_refl _) budget b
  exact ⟨o, b', t, fun n hn => repairUpTo_mono hn ht⟩

/-- A repair that has to stop after its first pivot is interrupted, and goes on to an answer. -/
theorem Reached.terminates_of_sum : ∃ (s t : Solver Nat) (b : Nat),
    Reached .standard WithinBounds [(2, [(0, 1), (1, 1)])] s ∧ s.repairWithin .pivots 1 = .ok (.interrupted, b, t) ∧
      ∃ k t o b u, Interrupted (fun _ => 1) s k t ∧ t.repairWithin .pivots 1 = .ok (o, b, u) ∧ o ≠ .interrupted := by
  have hrun : (do
      let s ← (Solver.new .standard).addRow 2 [(0, 1), (1, 1)]
      let (_, s) ← s.assertBound .lower 2 (.ofRat 2) 0
      let (_, s) ← s.assertBound .upper 0 (.ofRat 0) 1
      let (o, _, _) ← s.repairWithin .pivots 1
      return o) = (.ok .interrupted : Except Fault (Outcome Nat)) := by decide +kernel
  obtain ⟨s₁, h₁, hrun⟩ := bind_eq_ok.mp hrun
  obtain ⟨⟨_, s₂⟩, h₂, hrun⟩ := bind_eq_ok.mp hrun
  obtain ⟨⟨_, s₃⟩, h₃, hrun⟩ := bind_eq_ok.mp hrun
  obtain ⟨⟨o, b, t⟩, ht, ho⟩ := bind_eq_ok.mp hrun
  cases ho
  have hs : Reached .standard WithinBounds [(2, [(0, 1), (1, 1)])] s₃ :=
    .call (.call (.call .new (.addRow _ _ h₁)) (.assertBound _ _ _ _ h₂)) (.assertBound _ _ _ _ h₃)
  exact ⟨s₃, t, b, hs, ht, hs.terminates.2.2 (fun _ => 1) fun _ => Nat.le_refl 1⟩

end Solver

end LinReal
