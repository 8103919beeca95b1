import LinReal.VarSet
import LinReal.Proofs.Store.Levels

/-! The discipline of bounds. Bounds are set on announced variables only, and a new bound is at least as tight as the one
    it replaces and does not cross the bound on the other side. So every level tightens the levels below it, and closing
    a scope loosens the bounds. -/

namespace LinReal

namespace Bounds

variable {τ : Type} {b : Bounds τ} {side : Side} {x : Var}

theorem Ordered.set {new : Bound τ} (hb : b.Ordered)
    (h : ∀ l, b side.opposite x = some l → side.opposite.outside new.value l.value = false) :
    (b.set side x (some new)).Ordered := by
  intro y l u hl hu
  cases side <;> simp only [Side.opposite, Side.outside, decide_eq_false_iff_not, not_lt] at h
  · by_cases hy : y = x
    · subst hy
      obtain rfl : new = l := by simpa [Bounds.set] using hl
      exact h u (by simpa [Bounds.set] using hu)
    · exact hb y l u (by simpa [Bounds.set, hy] using hl) (by simpa [Bounds.set, hy] using hu)
  · by_cases hy : y = x
    · subst hy
      obtain rfl : new = u := by simpa [Bounds.set] using hu
      exact h l (by simpa [Bounds.set] using hl)
    · exact hb y l u (by simpa [Bounds.set, hy] using hl) (by simpa [Bounds.set, hy] using hu)

theorem Ordered.admits {l : Bound τ} (hb : b.Ordered) (hl : b side x = some l) : b.Admits x l.value := by
  intro side' l' hl'
  by_cases hs : side' = side
  · subst hs
    obtain rfl : l = l' := Option.some.inj (hl.symm.trans hl')
    exact Side.outside_self _ _
  · rw [Side.outside_eq_false_iff]
    cases side <;> cases side'
    · exact absurd rfl hs
    · exact decide_eq_true (hb x l l' hl hl')
    · exact decide_eq_true (hb x l' l hl' hl)
    · exact absurd rfl hs

/-- A value that has not reached the bound on a side can go further towards it and respect both bounds. -/
theorem Ordered.exists_outside (hb : b.Ordered) {v : DeltaRat} (hfree : ∀ l, b side x = some l → side.reached v l.value = false) :
    ∃ w, b.Admits x w ∧ side.outside w v = true := by
  cases hl : b side x with
  | some l =>
    have hout := Side.reached_eq_false_iff.mp (hfree l hl)
    exact ⟨l.value, hb.admits hl, Side.outside_opposite.symm.trans hout⟩
  | none =>
    obtain ⟨w, hw⟩ := side.exists_outside v
    -- Only the bound on the other side can keep the value from `w`, and if it does, it lies further out still.
    by_cases hw' : b.Admits x w
    · exact ⟨w, hw', hw⟩
    · simp only [Admits, not_forall, Bool.not_eq_false] at hw'
      obtain ⟨side', m, hm, hout⟩ := hw'
      obtain rfl : side' = side.opposite := by
        cases side <;> cases side' <;> first | rfl | (rw [hl] at hm; cases hm)
      rw [Side.outside_opposite] at hout
      exact ⟨m.value, hb.admits hm, Side.outside_of_reached (Side.reached_of_outside hout) hw⟩

end Bounds

namespace Store

variable {τ : Type} {s t : Store τ} {xs ys : VarSet} {x : Var} {side : Side}

/-- The bounds of every level are those of announced variables, each level tightens the levels below it, and the bounds in
    force do not cross. -/
structure Disciplined (s : Store τ) (xs : VarSet) : Prop where
  inRange : s.InRange
  bounded : ∀ {level side x l}, level ∈ s.levels → level side x = some l → x ∈ xs
  tightening : s.levels.Pairwise fun b c => b.Tightens c
  ordered : s.bounds.Ordered

theorem levels_empty : (empty : Store τ).levels = [fun _ _ => none] := by
  have hbounds : (empty : Store τ).bounds = fun _ _ => none := by
    funext side x
    simp [bounds, boundsIn, empty]
  rw [levels, hbounds]
  rfl

theorem disciplined_empty (xs : VarSet) : (empty : Store τ).Disciplined xs := by
  refine ⟨fun scope h => (by cases h), fun {level side x l} hlevel hl => ?_, ?_, fun x l u hl _ => ?_⟩
  · rw [levels_empty, List.mem_singleton] at hlevel
    rw [hlevel] at hl
    cases hl
  · rw [levels_empty]
    exact List.pairwise_singleton _ _
  · simp [bounds, boundsIn, empty] at hl

theorem Disciplined.congr (h : s.Disciplined xs) (hst : SameBounds s t) : t.Disciplined xs := by
  have hlevels := levels_congr hst
  refine ⟨hst.inRange h.inRange, fun hlevel hl => h.bounded (hlevels ▸ hlevel) hl, hlevels ▸ h.tightening, ?_⟩
  rw [hst.bounds]
  exact h.ordered

theorem Disciplined.mono (h : s.Disciplined xs) (hxs : ∀ x, x ∈ xs → x ∈ ys) : s.Disciplined ys :=
  ⟨h.inRange, fun hlevel hl => hxs _ (h.bounded hlevel hl), h.tightening, h.ordered⟩

theorem Disciplined.bounds_eq_none (h : s.Disciplined xs) (hx : x ∉ xs) (side : Side) : s.bounds side x = none := by
  cases hl : s.bounds side x with
  | none => rfl
  | some l => exact absurd (h.bounded (bounds_mem_levels s) hl) hx

theorem Disciplined.admits_of_not_mem (h : s.Disciplined xs) (hx : x ∉ xs) (v : DeltaRat) : s.bounds.Admits x v := by
  intro side l hl
  rw [h.bounds_eq_none hx] at hl
  cases hl

theorem levels_install (h : s.Disciplined xs) (hx : x ∉ xs) (v : DeltaRat) : (s.install x v).levels = s.levels := by
  obtain ⟨-, -, -, hbounds, -⟩ := install_view s x v
  rw [levels, hbounds (h.bounds_eq_none hx)]
  rfl

theorem Disciplined.install (h : s.Disciplined xs) (hx : x ∉ xs) (v : DeltaRat) : (s.install x v).Disciplined xs := by
  obtain ⟨hsize, -, -, hbounds, -⟩ := install_view s x v
  have hlevels := levels_install h hx v
  refine ⟨fun scope hscope c hc => ?_, fun hlevel hl => h.bounded (hlevels ▸ hlevel) hl, hlevels ▸ h.tightening, ?_⟩
  · rw [hsize]
    exact Nat.lt_of_lt_of_le (h.inRange scope hscope c hc) (Nat.le_max_left _ _)
  · rw [hbounds (h.bounds_eq_none hx)]
    exact h.ordered

/-- The levels after the first one are loosened by a bound that tightens the first. -/
theorem Disciplined.setBound (h : s.Disciplined xs) (hx : x ∈ xs) {new : Bound τ}
    (htight : ∀ {l}, s.bounds side x = some l → side.reached l.value new.value = true)
    (hcross : ∀ l, s.bounds side.opposite x = some l → side.opposite.outside new.value l.value = false)
    (hbounds : t.bounds = s.bounds.set side x (some new)) (hlevels : t.levels = t.bounds :: s.levels.tail)
    (hrange : t.InRange) : t.Disciplined xs := by
  have htail : ∀ level ∈ s.levels.tail, s.bounds.Tightens level ∧ level ∈ s.levels := by
    intro level hlevel
    have hp := h.tightening
    rw [levels_eq_cons] at hp ⊢
    exact ⟨(List.pairwise_cons.mp hp).1 level hlevel, List.mem_cons_of_mem _ hlevel⟩
  refine ⟨hrange, fun {level side' y l} hlevel hl => ?_, ?_, ?_⟩
  · rw [hlevels, List.mem_cons] at hlevel
    rcases hlevel with rfl | hlevel
    · rw [hbounds] at hl
      by_cases hy : side' = side ∧ y = x
      · rw [hy.2]
        exact hx
      · rw [Bounds.set, if_neg hy] at hl
        exact h.bounded (bounds_mem_levels s) hl
    · exact h.bounded (htail level hlevel).2 hl
  · rw [hlevels]
    have hp := h.tightening
    rw [levels_eq_cons] at hp
    refine List.pairwise_cons.mpr ⟨fun level hlevel => ?_, (List.pairwise_cons.mp hp).2⟩
    rw [hbounds]
    exact (Bounds.tightens_set htight).trans (htail level hlevel).1
  · rw [hbounds]
    exact h.ordered.set hcross

theorem Disciplined.push (h : s.Disciplined xs) : s.push.Disciplined xs := by
  have hlevels := levels_push s
  refine ⟨inRange_push h.inRange, fun {level side x l} hlevel hl => ?_, ?_, h.ordered⟩
  · rw [hlevels, List.mem_cons] at hlevel
    rcases hlevel with rfl | hlevel
    · exact h.bounded (bounds_mem_levels s) hl
    · exact h.bounded hlevel hl
  · rw [hlevels]
    refine List.pairwise_cons.mpr ⟨fun level hlevel => ?_, h.tightening⟩
    have hp := h.tightening
    rw [levels_eq_cons] at hp hlevel
    rcases List.mem_cons.mp hlevel with rfl | hlevel
    · exact Bounds.Tightens.refl _
    · exact (List.pairwise_cons.mp hp).1 level hlevel

theorem Disciplined.pop (h : s.Disciplined xs) : s.pop.2.Disciplined xs ∧ s.bounds.Tightens s.pop.2.bounds := by
  obtain ⟨-, -, -, -, hrange, -, hnone, hsome⟩ := pop_view h.inRange
  by_cases hs : s.scopes = []
  · rw [hnone hs]
    exact ⟨h, Bounds.Tightens.refl _⟩
  · have hlevels := hsome hs
    have hp := h.tightening
    rw [levels_eq_cons s, ← hlevels] at hp
    obtain ⟨hhead, htail⟩ := List.pairwise_cons.mp hp
    have htight := hhead _ (bounds_mem_levels s.pop.2)
    refine ⟨⟨hrange, fun {level side x l} hlevel hl => ?_, htail, htight.ordered h.ordered⟩, htight⟩
    rw [hlevels] at hlevel
    exact h.bounded (List.mem_of_mem_tail hlevel) hl

end Store

end LinReal
