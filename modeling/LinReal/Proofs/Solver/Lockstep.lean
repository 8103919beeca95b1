import LinReal.Proofs.Solver.Traces

/-! Searches in lockstep. Two solvers that differ in queue, counters and notes at most do the same in the anti-cycle stage: the
    variable that a round takes is the smallest violated one, whatever else is queued, and its partner the smallest eligible one.
    So two searches that are abreast make the same pivots, however their queues have come about, and end alike. -/

namespace LinReal.Solver

variable {τ β : Type} {s s' t t' u : Solver τ} {ds : List (Var × LinearForm)} {x y l e : Var} {v step : DeltaRat} {a : Rat}

/-! ### Moves -/

theorem Idle.symm (h : Idle s t) : Idle t s := ⟨h.settings.symm, h.registered.symm, h.store.symm, h.tableau.symm⟩

theorem Idle.assign (hi : Idle s s') (h : s.assign x v = .ok t) (h' : s'.assign x v = .ok t') : Idle t t' := by
  obtain ⟨store, -, h, h'⟩ := same_of_bind (by rw [hi.store]) h h'
  cases h
  cases h'
  exact ⟨hi.settings, hi.registered, rfl, hi.tableau⟩

theorem Idle.inspect (hi : Idle s s') (h : s.inspect x = .ok t) (h' : s'.inspect x = .ok t') : Idle t t' :=
  ((idle_inspect h).symm.trans hi).trans (idle_inspect h')

theorem Idle.follow (hi : Idle s s') (h : follow x step s y = .ok t) (h' : Solver.follow x step s' y = .ok t') :
    Idle t t' := by
  obtain ⟨f, -, h, h'⟩ := same_of_bind (by rw [hi.tableau]) h h'
  cases hc : f.coeff? x with
  | none =>
    simp only [hc] at h h'
    cases h
    cases h'
    exact hi
  | some a =>
    simp only [hc] at h h'
    obtain ⟨slot, -, h, h'⟩ := same_of_bind (by rw [hi.store]) h h'
    obtain ⟨u, hu, h⟩ := bind_eq_ok.mp h
    obtain ⟨u', hu', h'⟩ := bind_eq_ok.mp h'
    exact (hi.assign hu hu').inspect h h'

theorem Idle.followAll {bs : List Var} (hi : Idle s s') (h : bs.foldlM (Solver.follow x step) s = .ok t)
    (h' : bs.foldlM (Solver.follow x step) s' = .ok t') : Idle t t' := by
  induction bs generalizing s s' with
  | nil =>
    cases h
    cases h'
    exact hi
  | cons b bs ih =>
    rw [List.foldlM_cons] at h h'
    obtain ⟨u, hu, h⟩ := bind_eq_ok.mp h
    obtain ⟨u', hu', h'⟩ := bind_eq_ok.mp h'
    exact ih (hi.follow hu hu') h h'

theorem idle_notePivot (s : Solver τ) : Idle s s.notePivot := by
  obtain ⟨hframe, htableau, -, hstore⟩ := notePivot_view s
  exact ⟨hframe.settings, hframe.registered, hstore, htableau⟩

theorem idle_watch (h : s.watch x = .ok t) : Idle s t := by
  unfold watch at h
  split at h
  · cases h
    exact .refl s
  · obtain ⟨slot, -, h⟩ := bind_eq_ok.mp h
    split at h
    · cases h
      exact .refl s
    · obtain ⟨partner, -, h⟩ := bind_eq_ok.mp h
      cases h
      exact ⟨rfl, rfl, rfl, rfl⟩

theorem Idle.exchange (hi : Idle s s') (h : s.exchange l e a v = .ok t) (h' : s'.exchange l e a v = .ok t') : Idle t t' := by
  obtain ⟨slot, -, h, h'⟩ := same_of_bind (by rw [hi.store]) h h'
  cases hstep : (v - slot.value).div? a with
  | none =>
    simp only [hstep] at h
    cases h
  | some step =>
    simp only [hstep] at h h'
    obtain ⟨s₁, h₁, h⟩ := bind_eq_ok.mp h
    obtain ⟨s₁', h₁', h'⟩ := bind_eq_ok.mp h'
    have hi₁ := hi.assign h₁ h₁'
    obtain ⟨entering, -, h, h'⟩ := same_of_bind (by rw [hi₁.store]) h h'
    obtain ⟨s₂, h₂, h⟩ := bind_eq_ok.mp h
    obtain ⟨s₂', h₂', h'⟩ := bind_eq_ok.mp h'
    have hi₂ := hi₁.assign h₂ h₂'
    obtain ⟨s₃, h₃, h⟩ := bind_eq_ok.mp h
    obtain ⟨s₃', h₃', h'⟩ := bind_eq_ok.mp h'
    rw [hi₂.tableau] at h₃'
    have hi₃ := ((idle_notePivot s₃).symm.trans (hi₂.followAll h₃ h₃')).trans (idle_notePivot s₃')
    obtain ⟨tableau, -, h, h'⟩ := same_of_bind (by rw [hi₃.tableau]) h h'
    have hexchanged : Idle { s₃.notePivot with tableau := tableau } { s₃'.notePivot with tableau := tableau } :=
      ⟨hi₃.settings, hi₃.registered, hi₃.store, rfl⟩
    obtain ⟨s₄, h₄, h⟩ := bind_eq_ok.mp h
    obtain ⟨s₄', h₄', h'⟩ := bind_eq_ok.mp h'
    exact ((idle_watch h).symm.trans (hexchanged.inspect h₄ h₄')).trans (idle_watch h')

theorem Idle.pivot (hi : Idle s s') (h : s.pivot l e v = .ok t) (h' : s'.pivot l e v = .ok t') : Idle t t' := by
  obtain ⟨f, a, hf, ha, h⟩ := exchange_of_pivot h
  obtain ⟨f', a', hf', ha', h'⟩ := exchange_of_pivot h'
  rw [hi.tableau, hf] at hf'
  cases hf'
  rw [ha] at ha'
  cases ha'
  exact hi.exchange h h'

/-- Nothing but queue, counters and notes differs, and the stage does not. -/
structure Alike (s t : Solver τ) : Prop where
  idle : Idle s t
  stage : t.queue.stage = s.queue.stage

theorem Requeued.alike (h : Requeued s t) : Alike s t := by
  obtain ⟨queue, rfl, hstage⟩ := h.exists_eq
  exact ⟨idle_queue s queue, hstage⟩

theorem stage_pivot (h : s.Shaped) (ht : s.pivot l e v = .ok t) : t.queue.stage = s.queue.stage := by
  obtain ⟨r, a, hr, ha⟩ := pivot_requires ht
  obtain ⟨t', ht', hpivoted, -⟩ := pivot_ok h hr ha v
  cases ht.symm.trans ht'
  exact hpivoted.frame.queue.stage

/-- What one solver can pivot, the other can. -/
theorem Alike.pivot (h : Alike s s') (hs : s.Shaped) (hs' : s'.Shaped) (ht : s.pivot l e v = .ok t) :
    ∃ t', s'.pivot l e v = .ok t' ∧ Alike t t' := by
  obtain ⟨r, a, hr, ha⟩ := pivot_requires ht
  obtain ⟨t', ht', -⟩ := pivot_ok hs' (h.idle.tableau ▸ hr) ha v
  exact ⟨t', ht', h.idle.pivot ht ht', by rw [stage_pivot hs' ht', stage_pivot hs ht, h.stage]⟩

/-! ### Conflicts of a row -/

theorem Alike.partner? (h : Alike s t) (x : Var) (side : Side) : t.partner? x side = s.partner? x side := by
  simp only [Solver.partner?, isEligible, h.idle.tableau, h.idle.store, h.stage]

section

variable [DecidableEq τ]

theorem Idle.explain (h : Idle s t) (x : Var) (w : Violation τ) : t.explain x w = s.explain x w := by
  simp only [Solver.explain, blocking, h.tableau, h.store]

theorem Alike.conflictOf (h : Alike s t) (x : Var) : t.conflictOf x = s.conflictOf x := by
  simp only [Solver.conflictOf, h.idle.isBasic, h.idle.store, h.partner?, h.idle.explain]

end

/-! ### Rounds of the anti-cycle stage -/

variable {taken : Option (Var × Violation τ)}

/-- Which violated variable is taken does not depend on what else is queued. -/
theorem Alike.takeViolated (h : Alike s t) (hs : s.Sound ds) (ht : t.Sound ds) (hst : s.queue.stage = .antiCycle)
    (hu : s.takeViolated = (taken, u)) : ∃ w, t.takeViolated = (taken, w) ∧ Alike u w := by
  have hi := h.idle
  rcases takeViolated_cases hs.queued hs.sorted with ⟨hsn, hsall⟩ | ⟨x, v, q, hsx, hxv, hq, -, -, hxleast⟩
  · rcases takeViolated_cases ht.queued ht.sorted with ⟨htn, -⟩ | ⟨y, w, r, hty, hyw, -⟩
    · cases hu.symm.trans hsn
      exact ⟨_, htn, ⟨hi.settings, hi.registered, hi.store, hi.tableau⟩, by
        rw [t.queue.cleared_view.2.1, s.queue.cleared_view.2.1, h.stage]⟩
    · -- One queue holds a violated variable, so the other must.
      obtain ⟨hy, hout⟩ := outside_of_violation? hyw
      exact absurd (hi.within.mpr (hsall y ((hi.isBasic y).symm.trans hy))) hout
  · cases hu.symm.trans hsx
    obtain ⟨hx, hxout⟩ := outside_of_violation? hxv
    rcases takeViolated_cases ht.queued ht.sorted with ⟨-, htall⟩ | ⟨y, w, r, hty, hyw, hr, -, -, hyleast⟩
    · exact absurd (hi.within.mp (htall x ((hi.isBasic x).trans hx))) hxout
    · -- Neither is smaller than the other, since each is the smallest.
      obtain ⟨hy, hyout⟩ := outside_of_violation? hyw
      have hyx : ¬y < x := fun hlt => hyout (hi.within.mpr (hxleast hst y hlt ((hi.isBasic y).symm.trans hy)))
      have hxy : ¬x < y := fun hlt =>
        hxout (hi.within.mp (hyleast (h.stage.trans hst) x hlt ((hi.isBasic x).trans hx)))
      obtain rfl : x = y := Nat.le_antisymm (Nat.le_of_not_lt hyx) (Nat.le_of_not_lt hxy)
      rw [hi.violation?, hxv] at hyw
      cases hyw
      exact ⟨_, hty, ⟨hi.settings, hi.registered, hi.store, hi.tableau⟩, hr.trans (h.stage.trans hq.symm)⟩

theorem Alike.counted (h : Alike s t) :
    Alike { s with rounds := s.rounds + 1 } { t with rounds := t.rounds + 1 } :=
  ⟨⟨h.idle.settings, h.idle.registered, h.idle.store, h.idle.tableau⟩, h.stage⟩

theorem Alike.note (h : Alike s t) (e : Event) : Alike (s.note e) (t.note e) :=
  ⟨⟨h.idle.settings, h.idle.registered, h.idle.store, h.idle.tableau⟩, h.stage⟩

/-- The violated variable is moved by the same pivot. -/
theorem Alike.repaired {s₁ s₂ : Solver τ} {w : Violation τ} (h : Alike s t) (hs : s.Sound ds) (ht : t.Sound ds)
    (hst : s.queue.stage = .antiCycle) (hs₁ : s.takeViolated = (some (x, w), s₁))
    (hp : ({ s₁ with rounds := s₁.rounds + 1 } : Solver τ).partner? x w.side = .ok (some y))
    (hs₂ : ({ s₁ with rounds := s₁.rounds + 1 } : Solver τ).pivot x y v = .ok s₂) :
    ∃ t₁ t₂, t.takeViolated = (some (x, w), t₁) ∧
      ({ t₁ with rounds := t₁.rounds + 1 } : Solver τ).partner? x w.side = .ok (some y) ∧
      ({ t₁ with rounds := t₁.rounds + 1 } : Solver τ).pivot x y v = .ok t₂ ∧ Alike s₂ t₂ := by
  obtain ⟨t₁, ht₁, h₁⟩ := h.takeViolated hs ht hst hs₁
  have hshaped := (hs.coherent.idle (idle_counted hs₁ rfl)).shaped
  have hshaped' := (ht.coherent.idle (idle_counted ht₁ rfl)).shaped
  obtain ⟨t₂, ht₂, h₂⟩ := h₁.counted.pivot hshaped hshaped' hs₂
  exact ⟨t₁, t₂, ht₁, (h₁.counted.partner? x w.side).trans hp, ht₂, h₂⟩

/-- Every round of a search from here is one of the anti-cycle stage. -/
def Ruled (s : Solver τ) : Prop := s.queue.stage = .antiCycle ∨ s.settings.heuristicLimit = some 0

theorem Ruled.opened (h : s.Ruled) (ho : Opened s t) : t.queue.stage = .antiCycle := by
  cases ht : t.queue.stage with
  | antiCycle => rfl
  | heuristic =>
    obtain ⟨hst, hlt⟩ := ho.stage ht
    rcases h with h | h
    · rw [hst] at h
      cases h
    · rw [Settings.roundLimit, h] at hlt
      exact absurd hlt (Nat.not_lt_zero _)

theorem Sound.opened (h : s.Sound ds) (hu : s.openRound = .ok u) : Opened s u ∧ u.Sound ds := by
  obtain ⟨u', hu', hopened, hqueued, hsorted⟩ := openRound_ok h
  cases hu.symm.trans hu'
  exact ⟨hopened, h.coherent.idle hopened.idle, hqueued, hsorted⟩

/-- Two searches that have come equally far. -/
structure Abreast (ds : List (Var × LinearForm)) (s t : Solver τ) : Prop where
  idle : Idle s t
  left : s.Sound ds
  right : t.Sound ds
  leftRuled : s.Ruled
  rightRuled : t.Ruled

theorem Abreast.paused (h : Abreast ds s t) (hu : Paused s u) (hs : u.Sound ds) : Abreast ds u t where
  idle := hu.idle.symm.trans h.idle
  left := hs
  right := h.right
  leftRuled := by
    rw [Ruled, hu.stage, hu.idle.settings]
    exact h.leftRuled
  rightRuled := h.rightRuled

variable [DecidableEq τ] {p : Option (Outcome τ)}

/-- Rounds do the same. -/
theorem Alike.round (h : Alike s t) (hs : s.Sound ds) (ht : t.Sound ds) (hst : s.queue.stage = .antiCycle)
    (hu : s.round = .ok (p, u)) : ∃ w, t.round = .ok (p, w) ∧ Alike u w ∧ t.roundExchange? = s.roundExchange? := by
  cases round_inv hu with
  | satisfied hs₁ =>
    obtain ⟨t₁, ht₁, h₁⟩ := h.takeViolated hs ht hst hs₁
    exact ⟨t₁, RoundStep.round_eq (.satisfied ht₁), h₁, by
      rw [roundExchange?_of_satisfied ht₁, roundExchange?_of_satisfied hs₁]⟩
  | @blocked s₁ _ x v c hs₁ hcounted hp hc =>
    subst hcounted
    obtain ⟨t₁, ht₁, h₁⟩ := h.takeViolated hs ht hst hs₁
    have hp' := (h₁.counted.partner? x v.side).trans hp
    have hc' := (h₁.counted.idle.explain x v).trans hc
    exact ⟨_, RoundStep.round_eq (.blocked ht₁ rfl hp' hc'), h₁.counted.note .updateConflict, by
      rw [roundExchange?_of_blocked ht₁ hp', roundExchange?_of_blocked hs₁ hp]⟩
  | @refuted s₁ _ s₂ x y v c hs₁ hcounted hp hs₂ hc =>
    subst hcounted
    obtain ⟨t₁, t₂, ht₁, hp', ht₂, h₂⟩ := h.repaired hs ht hst hs₁ hp hs₂
    have hc' := (h₂.conflictOf y).trans hc
    exact ⟨_, RoundStep.round_eq (.refuted ht₁ rfl hp' ht₂ hc'), h₂.note .updateConflict, by
      rw [roundExchange?_of_partner ht₁ hp', roundExchange?_of_partner hs₁ hp]⟩
  | @moved s₁ _ _ x y v hs₁ hcounted hp hs₂ hc =>
    subst hcounted
    obtain ⟨t₁, t₂, ht₁, hp', ht₂, h₂⟩ := h.repaired hs ht hst hs₁ hp hs₂
    have hc' := (h₂.conflictOf y).trans hc
    exact ⟨t₂, RoundStep.round_eq (.moved ht₁ rfl hp' ht₂ hc'), h₂, by
      rw [roundExchange?_of_partner ht₁ hp', roundExchange?_of_partner hs₁ hp]⟩

/-! ### Passes -/

variable {budget : Budget β} {b b' : β}

theorem Ruled.goes (h : s.Ruled) (hs : s.Sound ds) (hu : s.pass budget b = .ok (none, b', u)) :
    u.Sound ds ∧ u.queue.stage = .antiCycle := by
  obtain ⟨_, _, u', hu', hsearched, -, hgoes, -⟩ := pass_ok hs budget b
  cases hu.symm.trans hu'
  obtain ⟨w, x, v, y, hopened, hrepaired⟩ := (hgoes rfl).2.exists_repaired
  obtain ⟨q, hq, hpivoted⟩ := hrepaired.pivoted
  exact ⟨hsearched.sound, hpivoted.frame.queue.stage.trans (hq.trans (h.opened hopened))⟩

/-- A pass that is not interrupted does what one without a budget does in the other search. -/
theorem Abreast.pass (h : Abreast ds s t) (hu : s.pass budget b = .ok (p, b', u)) (hp : p ≠ some .interrupted) :
    ∃ w, t.pass .unlimited () = .ok (p, (), w) ∧ Idle u w ∧
      t.passExchange? .unlimited () = s.passExchange? budget b ∧ (p = none → Abreast ds u w) := by
  obtain ⟨-, hpass⟩ := pass_inv hu
  cases hpass with
  | stopped _ _ => exact absurd rfl hp
  | @allowed s₁ _ _ hs₁ hask hround =>
    obtain ⟨hsopened, hssound⟩ := h.left.opened hs₁
    obtain ⟨t₁, ht₁, -⟩ := openRound_ok h.right
    obtain ⟨htopened, htsound⟩ := h.right.opened ht₁
    have hst := h.leftRuled.opened hsopened
    have halike : Alike s₁ t₁ := ⟨(hsopened.idle.symm.trans h.idle).trans htopened.idle,
      (h.rightRuled.opened htopened).trans hst.symm⟩
    obtain ⟨w, hw, hw', hexchange⟩ := halike.round hssound htsound hst hround
    have htpass : t.pass .unlimited () = .ok (p, (), w) := pass_of_round ht₁ rfl hw
    refine ⟨w, htpass, hw'.idle, ?_, fun hgoes => ?_⟩
    · rw [passExchange?_of_allowed ht₁ rfl, passExchange?_of_allowed hs₁ hask, hexchange]
    · subst hgoes
      obtain ⟨husound, hust⟩ := h.leftRuled.goes h.left hu
      obtain ⟨hwsound, hwst⟩ := h.rightRuled.goes h.right htpass
      exact ⟨hw'.idle, husound, hwsound, Or.inl hust, Or.inl hwst⟩

/-- A pass that is interrupted moves nothing. -/
theorem Abreast.stopped (h : Abreast ds s t) (hu : s.pass budget b = .ok (some .interrupted, b', u)) :
    Abreast ds u t ∧ s.passExchange? budget b = none := by
  obtain ⟨-, hpass⟩ := pass_inv hu
  cases hpass with
  | stopped hs₁ hask =>
    obtain ⟨hopened, hsound⟩ := h.left.opened hs₁
    exact ⟨⟨hopened.idle.symm.trans h.idle, hsound, h.right, Or.inl (h.leftRuled.opened hopened), h.rightRuled⟩,
      passExchange?_of_stopped hs₁ hask⟩
  | allowed _ _ hround =>
    obtain ⟨-, -, -, -, hne⟩ := pivots_round hround
    exact absurd rfl hne

end LinReal.Solver
