import LinReal.Proofs.Solver.Reached

/-! Selection. A search takes its variables from a queue from which it drops what is stale, and it sees what a scan of all rows
    would see: it takes a variable as long as some basic variable lies outside its bounds, and in the anti-cycle stage the smallest
    of them. What has been dropped is pushed again when it leaves its bounds. -/

namespace LinReal.Solver

variable {τ β : Type} {s t u w : Solver τ} {ds : List (Var × LinearForm)} {x y : Var} {f : LinearForm} {a : Rat} {side : Side}
  {v : Violation τ}

/-- Some value within its bounds, for `y` alone, brings the owner of the row of `x` nearer to a bound that it violates on `side`. -/
def Helps (s : Solver τ) (x : Var) (side : Side) (y : Var) : Prop :=
  ∃ f w, s.tableau.row? x = some f ∧ y ∈ f.vars ∧ s.store.bounds.Admits y w ∧
    side.outside (s.store.value x) (f.evalDelta (Function.update s.store.value y w)) = true

/-- The round takes `x`, which violates `v`, from the queue, and goes on from `u`. -/
def Takes (s : Solver τ) (x : Var) (v : Violation τ) (u : Solver τ) : Prop :=
  ∃ t, s.takeViolated = (some (x, v), t) ∧ u = { t with rounds := t.rounds + 1 }

/-- A round selects what a scan of all rows would select. -/
structure Selects (s : Solver τ) : Prop where
  none_iff : s.takeViolated.1 = none ↔ ∀ x, s.isBasic x = true → s.Within x
  violated : ∀ x v u, s.Takes x v u → s.isBasic x = true ∧ ¬s.Within x ∧
    s.store.bounds v.side x = some v.bound ∧ v.side.outside (s.store.value x) v.bound.value = true ∧
    (s.queue.stage = .antiCycle → ∀ z, s.isBasic z = true → ¬s.Within z → x ≤ z)
  partner : ∀ x v u, s.Takes x v u → ∃ p, u.partner? x v.side = .ok p ∧ (p = none ↔ ∀ y, ¬s.Helps x v.side y) ∧
    ∀ y, p = some y → s.Helps x v.side y ∧ s.isBasic y = false ∧
      (s.queue.stage = .antiCycle → ∀ z, s.Helps x v.side z → y ≤ z)
  queued : ∀ x v u y, s.Takes x v u → u.partner? x v.side = .ok (some y) → ∃ w, u.pivot x y v.bound.value = .ok w ∧
    ∀ z, w.isBasic z = true → ¬w.Within z → z ∈ w.queue.order

/-- An entry can help if its variable has room towards the remedy. -/
theorem Coherent.helps_iff (h : s.Coherent ds) (hf : s.tableau.row? x = some f) (ha : (y, a) ∈ f) :
    s.Helps x side y ↔ s.isEligible side y a = true := by
  have hnormal := h.shaped.wellFormed.normal hf
  have hlt : y < s.store.size := h.shaped.size ▸ h.shaped.wellFormed.range hf (LinearForm.mem_vars_of_mem ha)
  constructor
  · rintro ⟨g, w, hg, hy, hw, hout⟩
    cases hf.symm.trans hg
    by_contra hno
    obtain ⟨l, hl, hr⟩ := (isEligible_eq_false_iff hlt).mp (Bool.eq_false_iff.mpr hno)
    -- The bound that blocks the entry keeps every term of the row from going further.
    have hterm : ∀ e ∈ f, (side.remedy e.2).reached (s.store.value e.1) (Function.update s.store.value y w e.1) = true := by
      intro e he
      by_cases hey : e.1 = y
      · obtain rfl : e.2 = a := Option.some.inj ((hnormal.coeff?_of_mem (hey ▸ he)).symm.trans (hnormal.coeff?_of_mem ha))
        have hback := Side.outside_eq_false_iff.mp (hw _ l hl)
        rw [Side.reached_opposite] at hback
        rw [hey, Function.update_self]
        exact Side.reached_trans hr hback
      · rw [Function.update_of_ne hey]
        exact Side.reached_self _ _
    rw [h.solves x f hf, Side.outside_eq_false_iff.mpr (LinearForm.reached_evalDelta hterm)] at hout
    cases hout
  · intro hel
    have hfree : ∀ l, s.store.bounds (side.remedy a) y = some l → (side.remedy a).reached (s.store.value y) l.value = false := by
      intro l hl
      by_contra hr
      rw [(isEligible_eq_false_iff hlt).mpr ⟨l, hl, Bool.not_eq_false _ ▸ hr⟩] at hel
      cases hel
    obtain ⟨w, hw, hout⟩ := h.disciplined.ordered.exists_outside hfree
    refine ⟨f, w, hf, LinearForm.mem_vars_of_mem ha, hw, ?_⟩
    have hmove := hnormal.evalDelta_update s.store.value y (w - s.store.value y)
    rw [add_sub_cancel, hnormal.coeff?_of_mem ha, Option.getD_some] at hmove
    rw [h.solves x f hf, hmove]
    exact Side.outside_scale (hnormal.2 _ ha) hout

theorem Coherent.helps_of_mem (h : s.Coherent ds) (hf : s.tableau.row? x = some f) (hy : s.Helps x side y) :
    ∃ a, (y, a) ∈ f ∧ s.isEligible side y a = true := by
  obtain ⟨g, w, hg, hin, hrest⟩ := hy
  cases hf.symm.trans hg
  obtain ⟨a, ha⟩ := LinearForm.mem_vars_iff.mp hin
  exact ⟨a, ha, (h.helps_iff hf ha).mp ⟨f, w, hf, hin, hrest⟩⟩

/-- The partner that is chosen is one that can help, in the anti-cycle stage the smallest. -/
theorem Coherent.partner (h : s.Coherent ds) (hx : s.isBasic x = true) (side : Side) :
    ∃ p, s.partner? x side = .ok p ∧ (p = none ↔ ∀ y, ¬s.Helps x side y) ∧
      ∀ y, p = some y → s.Helps x side y ∧ s.isBasic y = false ∧
        (s.queue.stage = .antiCycle → ∀ z, s.Helps x side z → y ≤ z) := by
  obtain ⟨f, -, hf⟩ := h.shaped.row_ok hx
  obtain ⟨p, hp, hnone, hsome⟩ := partner?_ok hf side
  have hhelps : ∀ y, p = some y → s.Helps x side y := fun y hy => by
    obtain ⟨⟨a, ha, hel⟩, -⟩ := hsome y hy
    exact (h.helps_iff hf ha).mpr hel
  refine ⟨p, hp, ⟨fun hp y hy => ?_, fun hno => ?_⟩, fun y hy => ⟨hhelps y hy, ?_, fun hst z hz => ?_⟩⟩
  · obtain ⟨a, ha, hel⟩ := h.helps_of_mem hf hy
    rw [hnone hp (y, a) ha] at hel
    cases hel
  · cases p with
    | none => rfl
    | some y => exact absurd (hhelps y rfl) (hno y)
  · obtain ⟨⟨a, ha, -⟩, -⟩ := hsome y hy
    exact h.shaped.wellFormed.nonbasic hf (LinearForm.mem_vars_of_mem ha)
  · by_contra hlt
    obtain ⟨a, ha, hel⟩ := h.helps_of_mem hf hz
    rw [(hsome y hy).2 hst (h.shaped.wellFormed.normal hf) (z, a) ha (Nat.lt_of_not_le hlt)] at hel
    cases hel

/-! ### Rounds -/

theorem Sound.taken_eq_none_iff (h : s.Sound ds) : s.takeViolated.1 = none ↔ ∀ x, s.isBasic x = true → s.Within x := by
  rcases takeViolated_cases h.queued h.sorted with ⟨htake, hall⟩ | ⟨x, v, q, htake, hv, -⟩
  · exact ⟨fun _ => hall, fun _ => by rw [htake]⟩
  · obtain ⟨hx, hout⟩ := outside_of_violation? hv
    rw [htake]
    exact ⟨(by rintro ⟨⟩), fun hall => absurd (hall x hx) hout⟩

/-- A round that takes a variable drops nothing from the queue that lies outside its bounds. -/
theorem Takes.inv (ht : s.Takes x v u) (h : s.Sound ds) : s.violation? x = some v ∧ Idle s u ∧
    u.queue.stage = s.queue.stage ∧ (∀ z, z ≠ x → s.isBasic z = true → ¬s.Within z → z ∈ u.queue.order) ∧
    (s.queue.stage = .antiCycle → ∀ z < x, s.isBasic z = true → s.Within z) := by
  obtain ⟨t, ht, rfl⟩ := ht
  rcases takeViolated_cases h.queued h.sorted with ⟨htake, -⟩ | ⟨_, _, q, htake, hv, hstage, -, hq, hleast⟩
  · cases htake.symm.trans ht
  · cases htake.symm.trans ht
    exact ⟨hv, ⟨rfl, rfl, rfl, rfl⟩, hstage, hq, hleast⟩

theorem Takes.violated (ht : s.Takes x v u) (h : s.Sound ds) : s.isBasic x = true ∧ ¬s.Within x ∧
    s.store.bounds v.side x = some v.bound ∧ v.side.outside (s.store.value x) v.bound.value = true ∧
    (s.queue.stage = .antiCycle → ∀ z, s.isBasic z = true → ¬s.Within z → x ≤ z) := by
  obtain ⟨hv, -, -, -, hleast⟩ := ht.inv h
  obtain ⟨hx, hout⟩ := outside_of_violation? hv
  obtain ⟨-, hbound, hviolated⟩ := bounds_of_violation? hv
  exact ⟨hx, hout, hbound, hviolated, fun hst z hz hzout => Nat.le_of_not_lt fun hlt => hzout (hleast hst z hlt hz)⟩

theorem Takes.partner (ht : s.Takes x v u) (h : s.Sound ds) :
    ∃ p, u.partner? x v.side = .ok p ∧ (p = none ↔ ∀ y, ¬s.Helps x v.side y) ∧
      ∀ y, p = some y → s.Helps x v.side y ∧ s.isBasic y = false ∧
        (s.queue.stage = .antiCycle → ∀ z, s.Helps x v.side z → y ≤ z) := by
  obtain ⟨hv, hidle, hstage, -⟩ := ht.inv h
  obtain ⟨hx, -⟩ := outside_of_violation? hv
  have hhelps : ∀ {side y}, u.Helps x side y ↔ s.Helps x side y := by
    intro side y
    rw [Helps, hidle.tableau, hidle.store, Helps]
  obtain ⟨p, hp, hnone, hsome⟩ := (h.coherent.idle hidle).partner ((hidle.isBasic _).trans hx) v.side
  simp only [hhelps, hidle.isBasic, hstage] at hnone hsome
  exact ⟨p, hp, hnone, hsome⟩

theorem Takes.queued (ht : s.Takes x v u) (h : s.Sound ds) (hp : u.partner? x v.side = .ok (some y)) :
    ∃ w, u.pivot x y v.bound.value = .ok w ∧ w.Queued := by
  obtain ⟨hv, hidle, -, hq, -⟩ := ht.inv h
  have hcoh := h.coherent.idle hidle
  obtain ⟨hx, -⟩ := outside_of_violation? hv
  obtain ⟨f, -, hf⟩ := hcoh.shaped.row_ok ((hidle.isBasic _).trans hx)
  obtain ⟨p, hp', -, hsome⟩ := partner?_ok hf v.side
  obtain ⟨⟨a, ha, -⟩, -⟩ := hsome y (Except.ok.inj (hp'.symm.trans hp))
  obtain ⟨w, hw, hpivoted, -⟩ := pivot_ok hcoh.shaped hf ((hcoh.shaped.wellFormed.normal hf).coeff?_of_mem ha) v.bound.value
  refine ⟨w, hw, hpivoted.queued fun z hzx hz hzout => ?_⟩
  exact hq z hzx ((hidle.isBasic z).symm.trans hz) (hidle.within.not.mp hzout)

theorem selects_of_sound (h : s.Sound ds) : s.Selects where
  none_iff := h.taken_eq_none_iff
  violated _ _ _ ht := ht.violated h
  partner _ _ _ ht := ht.partner h
  queued _ _ _ _ ht hp := ht.queued h hp

variable [DecidableEq τ] {settings : Settings} {budget : Budget β} {b c : β} {k : Nat}

/-- Wherever variables have been moved, a round selects what a scan would: between calls, and in every pass of every search
    after the stage has been settled. -/
theorem Reached.selects (h : Reached settings Anywhere ds s) :
    s.Selects ∧ ∀ (β : Type) (budget : Budget β) b k c t, Head budget s b k c t →
      ∃ u, t.openRound = .ok u ∧ u.Selects := by
  refine ⟨selects_of_sound h.sound, fun β budget b k c t hh => ?_⟩
  have ht := (hh.kept h.sound).1
  obtain ⟨u, hu, hopened, hqueued, hsorted⟩ := openRound_ok ht
  exact ⟨u, hu, selects_of_sound ⟨ht.coherent.idle hopened.idle, hqueued, hsorted⟩⟩

/-- In the anti-cycle stage the entry of 2 has become stale, so 3 is taken. Of the variables in its row the smaller one has
    reached its bound, so the other one is its partner. -/
theorem Reached.selects_of_rows : ∃ (s t u w r : Solver Nat) (v : Violation Nat),
    Reached ⟨false, some 0, false⟩ Anywhere [(3, [(1, 1), (4, 1)]), (2, [(0, 1)])] s ∧ s.queue = .byIndex [2, 3] ∧
      s.Takes 3 v u ∧ ¬s.Within 3 ∧ (∀ z, s.isBasic z = true → ¬s.Within z → 3 ≤ z) ∧
      u.partner? 3 v.side = .ok (some 4) ∧ s.Helps 3 v.side 4 ∧ (∀ z, s.Helps 3 v.side z → 4 ≤ z) ∧
      u.pivot 3 4 v.bound.value = .ok w ∧ (∀ z, w.isBasic z = true → ¬w.Within z → z ∈ w.queue.order) ∧
      Head .unlimited s () 0 () t ∧ t.openRound = .ok r ∧ r.Selects := by
  have hrun : (do
      let s ← (Solver.new ⟨false, some 0, false⟩).addRow 2 [(0, 1)]
      let s ← s.addRow 3 [(1, 1), (4, 1)]
      let (_, s) ← s.assertBound .upper 1 (.ofRat 0) 1
      let (_, s) ← s.assertBound .lower 2 (.ofRat 1) 2
      let (_, s) ← s.assertBound .lower 3 (.ofRat 1) 3
      let (_, _, s) ← s.repairUpTo 9 .pivots 0
      let s ← s.update 0 (.ofRat 5)
      let y ← s.takeViolated.2.partner? 3 .lower
      let (early, _) ← s.beginRepair
      return (s.queue, s.takeViolated.1, y, early.isSome)) =
      (.ok (.byIndex [2, 3], some (3, ⟨.lower, ⟨.ofRat 1, 3⟩⟩), some 4, false) :
        Except Fault (RepairQueue × Option (Var × Violation Nat) × Option Var × Bool)) := by decide +kernel
  obtain ⟨s₁, h₁, hrun⟩ := bind_eq_ok.mp hrun
  obtain ⟨s₂, h₂, hrun⟩ := bind_eq_ok.mp hrun
  obtain ⟨⟨_, s₃⟩, h₃, hrun⟩ := bind_eq_ok.mp hrun
  obtain ⟨⟨_, s₄⟩, h₄, hrun⟩ := bind_eq_ok.mp hrun
  obtain ⟨⟨_, s₅⟩, h₅, hrun⟩ := bind_eq_ok.mp hrun
  obtain ⟨⟨_, _, s₆⟩, h₆, hrun⟩ := bind_eq_ok.mp hrun
  obtain ⟨s, h₇, hrun⟩ := bind_eq_ok.mp hrun
  obtain ⟨y, hy, hrun⟩ := bind_eq_ok.mp hrun
  obtain ⟨⟨early, t⟩, ht, hrun⟩ := bind_eq_ok.mp hrun
  have hvalues := Except.ok.inj hrun
  simp only [Prod.mk.injEq, Option.isSome_eq_false_iff, Option.isNone_iff_eq_none] at hvalues
  obtain ⟨hqueue, htaken, rfl, rfl⟩ := hvalues
  have hs : Reached ⟨false, some 0, false⟩ Anywhere [(3, [(1, 1), (4, 1)]), (2, [(0, 1)])] s :=
    .call (.call (.call (.call (.call (.call (.call .new (.addRow _ _ h₁)) (.addRow _ _ h₂)) (.assertBound _ _ _ _ h₃))
      (.assertBound _ _ _ _ h₄)) (.assertBound _ _ _ _ h₅)) (.search _ _ _ h₆)) (.update _ _ trivial h₇)
  have htakes : s.Takes 3 ⟨.lower, ⟨.ofRat 1, 3⟩⟩ _ := ⟨_, Prod.ext htaken rfl, rfl⟩
  obtain ⟨⟨-, hviolated, hpartner, hqueued⟩, hsearch⟩ := hs.selects
  have hst : s.queue.stage = .antiCycle := by rw [hqueue]; rfl
  obtain ⟨-, hout, -, -, hleast⟩ := hviolated _ _ _ htakes
  obtain ⟨p, hp, -, hsome⟩ := hpartner _ _ _ htakes
  obtain rfl : p = some 4 := Except.ok.inj (hp.symm.trans hy)
  obtain ⟨hhelps, -, hsmallest⟩ := hsome 4 rfl
  obtain ⟨w, hw, hin⟩ := hqueued _ _ _ _ htakes hp
  have hh : Head .unlimited s () 0 () t := .first (by rw [hqueue]; rfl) ht
  obtain ⟨r, hr, hselects⟩ := hsearch Unit .unlimited () 0 () t hh
  exact ⟨s, t, _, w, r, _, hs, hqueue, htakes, hout, hleast hst, hp, hhelps, hsmallest hst, hw, hin, hh, hr, hselects⟩

end LinReal.Solver
