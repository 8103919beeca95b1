import LinReal.Proofs.Solver.Reached

/-! Values that follow and values from scratch. A move adds to every basic variable what its column says, instead of evaluating its
    row anew; a pivot does so before it changes the rows. Both end with the values that the rows give to the nonbasic variables,
    since a solution of the rows is known by those: so a pivot is a move of the entering variable, and then a change of rows. -/

namespace LinReal

namespace Tableau

variable {t : Tableau} {w w' : Var → DeltaRat}

/-- A solution is known by its values for the nonbasic variables. -/
theorem WellFormed.eq_of_solvesDelta (h : t.WellFormed) (hw : t.SolvesDelta w) (hw' : t.SolvesDelta w')
    (hfree : ∀ y, t.isBasic y = false → w y = w' y) : w = w' := by
  funext y
  cases hy : t.isBasic y with
  | false => exact hfree y hy
  | true =>
    obtain ⟨f, hf⟩ := h.isBasic_iff.mp hy
    rw [hw y f hf, hw' y f hf]
    exact LinearForm.evalDelta_congr fun z hz => hfree z (h.nonbasic hf hz)

end Tableau

namespace Solver

variable {τ : Type} {s t u : Solver τ} {ds : List (Var × LinearForm)} {x l e : Var} {v step : DeltaRat} {f : LinearForm} {a : Rat}

theorem Coherent.rowValue_eq (h : s.Coherent ds) (hx : s.isBasic x = true) :
    s.rowValue (·.value) x = .ok (s.store.value x) := by
  obtain ⟨f, hf⟩ := h.shaped.wellFormed.isBasic_iff.mp hx
  obtain ⟨slot, hslot, hvalue, -⟩ := h.rowValue_ok hf
  rw [hvalue, Store.value_of_get? (Store.slot_eq_ok_iff.mp hslot)]

/-! ### Moves -/

/-- `t` is `s` with the nonbasic `x` at `v`: bounds, rows and the other nonbasic variables stay, and every basic variable has the
    value of its row. -/
structure Updated (s t : Solver τ) (x : Var) (v : DeltaRat) : Prop where
  bounds : t.store.bounds = s.store.bounds
  tableau : t.tableau = s.tableau
  target : t.store.value x = v
  nonbasic : ∀ y, s.isBasic y = false → y ≠ x → t.store.value y = s.store.value y
  basic : ∀ b, s.isBasic b = true → t.rowValue (·.value) b = .ok (t.store.value b)

theorem Moved.target (hm : Moved s t x v) (hx : s.isBasic x = false) : t.store.value x = v := by
  rw [hm.nonbasic hx, Function.update_self]

theorem Moved.other {y : Var} (hm : Moved s t x v) (hy : s.isBasic y = false) (hyx : y ≠ x) :
    t.store.value y = s.store.value y := by
  rw [hm.nonbasic hy, Function.update_of_ne hyx]

theorem Moved.updated (hm : Moved s t x v) (h : s.Coherent ds) (hx : s.isBasic x = false) : Updated s t x v where
  bounds := hm.frame.store.bounds
  tableau := hm.tableau
  target := hm.target hx
  nonbasic _ hy hyx := hm.other hy hyx
  basic b hb := (hm.coherent h).rowValue_eq (by rw [isBasic, hm.tableau]; exact hb)

/-! ### Pivots -/

/-- In a pivot the entering variable makes the step that brings the leaving one to its target. -/
theorem Pivoted.entering (hp : Pivoted s t l e v) (h : s.Coherent ds) (hf : s.tableau.row? l = some f)
    (ha : f.coeff? e = some a) (hstep : (v - s.store.value l).div? a = some step) :
    t.store.value e = s.store.value e + step := by
  have hwf := h.shaped.wellFormed
  have hnormal := hwf.normal hf
  have hsolves := (hp.solves_iff h.shaped _).mp (hp.solves h.solves)
  -- Between the two states the row of `l` changes its value by what `e` adds.
  have hrow : f.evalDelta t.store.value =
      f.evalDelta (Function.update s.store.value e (s.store.value e + (t.store.value e - s.store.value e))) := by
    refine LinearForm.evalDelta_congr fun y hy => ?_
    by_cases hye : y = e
    · rw [hye, Function.update_self, add_sub_cancel]
    · rw [Function.update_of_ne hye, hp.nonbasic (hwf.nonbasic hf hy) hye]
  rw [hnormal.evalDelta_update, ← hsolves l f hf, ← h.solves l f hf, hp.leaving, ha, Option.getD_some] at hrow
  have hdifference : (t.store.value e - s.store.value e).scale a = v - s.store.value l := by
    rw [hrow, add_sub_cancel_left]
  have ha0 := hnormal.coeff?_ne_zero ha
  rw [DeltaRat.div?_of_ne_zero _ ha0, ← hdifference, DeltaRat.scale_scale, mul_inv_cancel₀ ha0, DeltaRat.scale_one] at hstep
  rw [← Option.some.inj hstep, add_sub_cancel]

/-- The same values come from moving the entering variable by that step. -/
theorem Pivoted.value_eq (hp : Pivoted s t l e v) (h : s.Coherent ds) (hf : s.tableau.row? l = some f)
    (ha : f.coeff? e = some a) (hstep : (v - s.store.value l).div? a = some step)
    (hm : Moved s u e (s.store.value e + step)) : t.store.value = u.store.value := by
  have hwf := h.shaped.wellFormed
  refine hwf.eq_of_solvesDelta ((hp.solves_iff h.shaped _).mp (hp.solves h.solves)) (hm.tableau ▸ hm.solves h.solves) fun y hy => ?_
  by_cases hye : y = e
  · rw [hye, hp.entering h hf ha hstep, hm.target (hye ▸ hy)]
  · rw [hp.nonbasic hy hye, hm.other hy hye]

variable [DecidableEq τ] {settings : Settings} {admits : Solver τ → Var → DeltaRat → Prop}

/-- Every nonbasic variable can be moved to every value, and then every basic variable has the value of its row. Every basic
    variable can be brought to every value by a pivot with any variable of its row; the pivot ends with the rows and values that
    come from moving the entering variable, and from pivoting the rows afterwards. -/
theorem Reached.recomputes (h : Reached settings admits ds s) :
    (∀ x, s.isRegistered x = true → x < s.store.size) ∧
    (∀ x v, x < s.store.size → s.isBasic x = false → ∃ t, s.update x v = .ok t ∧ Updated s t x v) ∧
    ∀ l e f a v, s.tableau.row? l = some f → f.coeff? e = some a →
      ∃ t u p step, s.pivot l e v = .ok t ∧ (v - s.store.value l).div? a = some step ∧
        s.update e (s.store.value e + step) = .ok u ∧ u.tableau.pivot l e = .ok p ∧
        t.store.value l = v ∧ (∀ y, s.isBasic y = false → y ≠ e → t.store.value y = s.store.value y) ∧
        t.tableau = p ∧ t.store.value = u.store.value := by
  have hcoh := h.sound.coherent
  have hwf := hcoh.shaped.wellFormed
  refine ⟨fun x hx => hcoh.shaped.size ▸ hcoh.room hx, fun x v hlt hx => ?_, fun l e f a v hf ha => ?_⟩
  · obtain ⟨t, ht, hmoved⟩ := update_ok hcoh.shaped hx (hcoh.shaped.size ▸ hlt) v
    exact ⟨t, ht, hmoved.updated hcoh hx⟩
  · obtain ⟨he, -, hlt, -⟩ := Tableau.entering_nonbasic hwf hf ha
    obtain ⟨t, ht, hpivoted, -⟩ := pivot_ok hcoh.shaped hf ha v
    have hstep := DeltaRat.div?_of_ne_zero (v - s.store.value l) ((hwf.normal hf).coeff?_ne_zero ha)
    obtain ⟨u, hu, hmoved⟩ := update_ok hcoh.shaped he hlt (s.store.value e + (v - s.store.value l).scale a⁻¹)
    obtain ⟨f', a', hf', ha', htableau⟩ := hpivoted.tableau
    cases hf.symm.trans hf'
    cases ha.symm.trans ha'
    refine ⟨t, u, s.tableau.exchange l e f a, _, ht, hstep, hu, ?_, hpivoted.leaving, fun y hy hye => hpivoted.nonbasic hy hye,
      htableau, hpivoted.value_eq hcoh hf ha hstep hmoved⟩
    rw [hmoved.tableau]
    exact Tableau.pivot_of_row? hwf hf ha

/-- Three rows mention the variable `0`, and `1` has the value 5. The pivot that brings the first owner to 12 brings the second one
    to 9, as the move of `0` does. -/
theorem Reached.recomputes_of_rows : ∃ s t u w : Solver Nat,
    Reached .standard Anywhere [(4, [(0, -1)]), (3, [(0, 2), (1, -1)]), (2, [(0, 1), (1, 1)])] s ∧
      s.pivot 2 0 (.ofRat 12) = .ok t ∧ t.store.value 3 = .ofRat 9 ∧ s.update 0 (.ofRat 7) = .ok u ∧
      u.tableau.pivot 2 0 = .ok t.tableau ∧ t.store.value = u.store.value ∧
      s.update 1 (.ofRat 3) = .ok w ∧ Updated s w 1 (.ofRat 3) := by
  have hrun : (do
      let s ← (Solver.new .standard : Solver Nat).addRow 2 [(0, 1), (1, 1)]
      let s ← s.addRow 3 [(0, 2), (1, -1)]
      let s ← s.addRow 4 [(0, -1)]
      let s ← s.update 1 (.ofRat 5)
      let t ← s.pivot 2 0 (.ofRat 12)
      return (s.tableau.row? 2, s.isBasic 1, s.store.size, [s.store.value 0, s.store.value 2, t.store.value 3])) =
      (.ok (some [(0, 1), (1, 1)], false, 5, [0, .ofRat 5, .ofRat 9]) :
        Except Fault (Option LinearForm × Bool × Nat × List DeltaRat)) := by decide +kernel
  obtain ⟨s₁, h₁, hrun⟩ := bind_eq_ok.mp hrun
  obtain ⟨s₂, h₂, hrun⟩ := bind_eq_ok.mp hrun
  obtain ⟨s₃, h₃, hrun⟩ := bind_eq_ok.mp hrun
  obtain ⟨s, h₄, hrun⟩ := bind_eq_ok.mp hrun
  obtain ⟨t, ht, hrun⟩ := bind_eq_ok.mp hrun
  have hvalues := Except.ok.inj hrun
  simp only [Prod.mk.injEq, List.cons.injEq, and_true] at hvalues
  obtain ⟨hrow, hone, hsize, hzero, htwo, hthree⟩ := hvalues
  have hs : Reached .standard Anywhere [(4, [(0, -1)]), (3, [(0, 2), (1, -1)]), (2, [(0, 1), (1, 1)])] s :=
    .call (.call (.call (.call .new (.addRow _ _ h₁)) (.addRow _ _ h₂)) (.addRow _ _ h₃)) (.update _ _ trivial h₄)
  obtain ⟨-, hmoves, hpivots⟩ := hs.recomputes
  obtain ⟨w, hw, hupdated⟩ := hmoves 1 (.ofRat 3) (by rw [hsize]; decide) hone
  obtain ⟨t', u, p, step, ht', hstep, hu, hp, -, -, rfl, hvalue⟩ := hpivots 2 0 _ 1 (.ofRat 12) hrow rfl
  cases ht.symm.trans ht'
  rw [htwo] at hstep
  obtain rfl : step = .ofRat 7 := (Option.some.inj hstep).symm.trans (by decide +kernel)
  rw [hzero, zero_add] at hu
  exact ⟨s, t, u, w, hs, ht, hthree, hu, hp, hvalue, hw, hupdated⟩

end Solver

end LinReal
