import LinReal.Proofs.Solver.Recomputation
import LinReal.Proofs.Solver.Passes

/-! A revert in another basis. The committed values were recorded for other rows, and the nonbasic variables then move one by one
    into the bounds set since. No move of a nonbasic variable changes another one, so each ends next to its committed value, in
    whatever order they move; and the rows give the rest. -/

namespace LinReal

namespace Bounds

variable {τ : Type} {b : Bounds τ} {x : Var} {v : DeltaRat} {side : Side} {l : Bound τ}

/-- The value within the bounds of `x` that is next to `v`. -/
def clamp (b : Bounds τ) (x : Var) (v : DeltaRat) : DeltaRat :=
  (b .upper x).elim id (fun u => min u.value) ((b .lower x).elim v fun l => max l.value v)

theorem clamp_of_admits (h : b.Admits x v) : b.clamp x v = v := by
  have hlower : (b .lower x).elim v (fun l => max l.value v) = v := by
    cases hl : b .lower x with
    | none => rfl
    | some l => exact max_eq_right (not_lt.mp (of_decide_eq_false (h .lower l hl)))
  rw [clamp, hlower]
  cases hu : b .upper x with
  | none => rfl
  | some u => exact min_eq_right (not_lt.mp (of_decide_eq_false (h .upper u hu)))

/-- Bounds that do not cross are not passed on the way to one of them. -/
theorem Ordered.clamp_of_outside (hb : b.Ordered) (hl : b side x = some l) (hv : side.outside v l.value = true) :
    b.clamp x v = l.value := by
  cases side with
  | lower =>
    have hraised : max l.value v = l.value := max_eq_left (of_decide_eq_true hv).le
    rw [clamp, hl, Option.elim_some, hraised]
    cases hu : b .upper x with
    | none => rfl
    | some u => exact min_eq_right (hb x l u hl hu)
  | upper =>
    have hv : l.value < v := of_decide_eq_true hv
    rw [clamp, hl, Option.elim_some]
    refine min_eq_left (hv.le.trans ?_)
    cases b .lower x with
    | none => exact le_rfl
    | some _ => exact le_max_right _ _

theorem Ordered.admits_clamp (hb : b.Ordered) (x : Var) (v : DeltaRat) : b.Admits x (b.clamp x v) := by
  by_cases h : b.Admits x v
  · rwa [clamp_of_admits h]
  · simp only [Admits, not_forall, Bool.not_eq_false] at h
    obtain ⟨side, l, hl, hv⟩ := h
    rw [hb.clamp_of_outside hl hv]
    exact hb.admits hl

theorem Ordered.clamp_eq_self_iff (hb : b.Ordered) : b.clamp x v = v ↔ b.Admits x v :=
  ⟨fun h => h ▸ hb.admits_clamp x v, clamp_of_admits⟩

end Bounds

namespace Solver

variable {τ : Type} {s t : Solver τ} {ds : List (Var × LinearForm)} {x y : Var}

theorem clamp_value (h : s.Coherent ds) (hx : s.isBasic x = false) (hlt : x < s.tableau.size) (ht : s.clamp x = .ok t)
    (hy : s.isBasic y = false) :
    t.store.value y = Function.update s.store.value x (s.store.bounds.clamp x (s.store.value x)) y := by
  obtain ⟨slot, hslot, hget⟩ := h.shaped.slot_ok hlt
  simp only [clamp, hslot, ok_bind] at ht
  cases hv : slot.violation? with
  | none =>
    rw [hv] at ht
    cases ht
    rw [Bounds.clamp_of_admits ((within_iff hget).mpr hv), Function.update_eq_self]
  | some v =>
    rw [hv] at ht
    obtain ⟨t', ht', hmoved⟩ := update_ok h.shaped hx hlt v.bound.value
    cases ht.symm.trans ht'
    obtain ⟨hbound, hout⟩ := Slot.bound?_of_violation? hv
    rw [← Store.bounds_of_get? hget] at hbound
    rw [← Store.value_of_get? hget] at hout
    rw [hmoved.nonbasic hy, h.disciplined.ordered.clamp_of_outside hbound hout]

theorem clampAll_value {xs : List Var} (h : s.Coherent ds) (hxs : ∀ x ∈ xs, s.isBasic x = false ∧ x < s.tableau.size)
    (ht : xs.foldlM clamp s = .ok t) (hy : s.isBasic y = false) :
    t.store.value y = if y ∈ xs then s.store.bounds.clamp y (s.store.value y) else s.store.value y := by
  induction xs generalizing s with
  | nil =>
    cases ht
    rfl
  | cons x xs ih =>
    rw [List.foldlM_cons] at ht
    obtain ⟨u, hu, ht⟩ := bind_eq_ok.mp ht
    obtain ⟨hx, hlt⟩ := hxs x List.mem_cons_self
    have hvalue := clamp_value h hx hlt hu hy
    obtain ⟨u', hu', hcoh, hframe, htab, -⟩ := clamp_ok h hx hlt
    cases hu.symm.trans hu'
    have hxs' : ∀ y ∈ xs, u.isBasic y = false ∧ y < u.tableau.size := by
      intro y hy
      rw [isBasic, htab]
      exact hxs y (List.mem_cons_of_mem _ hy)
    rw [ih hcoh hxs' ht (by rw [isBasic, htab]; exact hy), hframe.store.bounds, hvalue]
    by_cases hyx : y = x
    · rw [hyx, Function.update_self, if_pos List.mem_cons_self,
        Bounds.clamp_of_admits (h.disciplined.ordered.admits_clamp x _), ite_self]
    · rw [Function.update_of_ne hyx]
      simp only [List.mem_cons, hyx, false_or]

/-- `t` is what a revert makes of `s`: every nonbasic variable has the value next to its committed one within its bounds, and
    every basic one has the value of its row and is queued if that is out of bounds. Rows, bounds and committed values stay. -/
structure Reverted (s t : Solver τ) : Prop where
  tableau : t.tableau = s.tableau
  bounds : t.store.bounds = s.store.bounds
  safe : t.store.safe = s.store.safe
  nonbasic : ∀ x, s.isBasic x = false → t.store.value x = s.store.bounds.clamp x (s.store.safe x)
  basic : ∀ x, s.isBasic x = true → t.rowValue (·.value) x = .ok (t.store.value x)
  queued : t.Queued

theorem Sound.reverted (h : s.Sound ds) : ∃ t, s.revert = .ok t ∧ t.Sound ds ∧ Reverted s t := by
  obtain ⟨t, ht, hsound, hcarries, -⟩ := revert_ok h
  obtain ⟨-, hvalue, hsafe, -⟩ := Store.revert_view h.coherent.tracks
  obtain ⟨hcoh, hcarries'⟩ := h.coherent.revert
  obtain ⟨u, hu, hframe, htab, hi⟩ : ∃ u : Solver τ, ({ s with store := s.store.revert } : Solver τ).nonbasics.foldlM clamp
      { s with store := s.store.revert } = .ok u ∧ Frame { s with store := s.store.revert } u ∧ u.tableau = s.tableau ∧
      Idle u t := by
    obtain ⟨u, hu, ht⟩ := bind_eq_ok.mp ht
    obtain ⟨u', hu', -, hframe, htab, -⟩ := clampAll_ok hcoh hcoh.clampable
    cases hu.symm.trans hu'
    exact ⟨u, hu, hframe, htab, idle_inspectAll ht⟩
  refine ⟨t, ht, hsound, hi.tableau.trans htab, hcarries.bounds, ?_, fun x hx => ?_, fun x hx => ?_, hsound.queued⟩
  · rw [hi.store, hframe.safe]
    exact hsafe
  · rw [hi.store, clampAll_value hcoh hcoh.clampable hu hx, hcarries'.bounds, hvalue]
    split
    · rfl
    · rename_i hout
      have hreg : ¬s.isRegistered x = true := fun hreg => hout (mem_nonbasics.mpr ⟨hreg, hx⟩)
      exact (Bounds.clamp_of_admits (h.coherent.disciplined.admits_of_not_mem hreg _)).symm
  · exact hsound.coherent.rowValue_eq (by rw [isBasic, hi.tableau, htab]; exact hx)

/-- Since the present and the committed values solve the same rows, it is enough to compare the nonbasic variables. -/
theorem Reverted.value_eq (hr : Reverted s t) (hs : s.Coherent ds) (ht : t.Coherent ds)
    (hall : ∀ x, s.isBasic x = false → s.store.bounds.Admits x (s.store.safe x)) : t.store.value = s.store.safe :=
  hs.shaped.wellFormed.eq_of_solvesDelta (hr.tableau ▸ ht.solves) hs.safe fun x hx =>
    (hr.nonbasic x hx).trans (Bounds.clamp_of_admits (hall x hx))

variable [DecidableEq τ] {settings : Settings} {admits : Solver τ → Var → DeltaRat → Prop}

/-- A revert succeeds in any basis. It brings back the committed values of the nonbasic variables, as far as their bounds allow,
    and so all committed values if the bounds allow those. -/
theorem Reached.reverts (h : Reached settings admits ds s) : ∃ t, s.revert = .ok t ∧ Reverted s t ∧
    (∀ x, s.isBasic x = false → s.store.bounds.Admits x (s.store.safe x) → t.store.value x = s.store.safe x) ∧
    ((∀ x, s.isRegistered x = true → s.isBasic x = false → s.store.bounds.Admits x (s.store.safe x)) →
      ∀ x, t.store.value x = s.store.safe x) := by
  obtain ⟨t, ht, hsound, hreverted⟩ := h.sound.reverted
  refine ⟨t, ht, hreverted, fun x hx hin => (hreverted.nonbasic x hx).trans (Bounds.clamp_of_admits hin), fun hall =>
    congrFun (hreverted.value_eq h.sound.coherent hsound.coherent fun x hx => ?_)⟩
  by_cases hreg : s.isRegistered x = true
  · exact hall x hreg hx
  · exact h.sound.coherent.disciplined.admits_of_not_mem hreg _

/-- After a commit the basis is changed in a scope, whose bound keeps `0` from its committed value, and a row is added. Once the
    scope is closed, a revert brings back all committed values. -/
theorem Reached.reverts_of_rows : ∃ s t u v : Solver Nat,
    Reached .standard Anywhere [(3, [(0, 1), (1, 2)]), (2, [(0, 1), (1, 1)])] s ∧ s.revert = .ok t ∧ Reverted s t ∧
      s.store.safe 0 = .ofRat 2 ∧ t.store.value 0 = .ofRat 1 ∧ s.pop = .ok u ∧ u.revert = .ok v ∧
      ∀ x, v.store.value x = u.store.safe x := by
  have hrun : (do
      let s ← (Solver.new .standard).addRow 2 [(0, 1), (1, 1)]
      let (_, s) ← s.assertBound .lower 2 (.ofRat 2) 0
      let (_, _, s) ← s.repairUpTo 9 .unlimited ()
      let (_, s) ← s.commit.push.assertBound .upper 0 (.ofRat 1) 1
      let (_, _, s) ← s.repairUpTo 9 .unlimited ()
      let s ← s.addRow 3 [(0, 1), (1, 2)]
      let s ← s.update 2 (.ofRat 7)
      let u ← s.pop
      return (s.isBasic 0, s.store.safe 0, s.store.bounds.clamp 0 (.ofRat 2),
        decide (∀ x ∈ u.nonbasics, u.store.bounds.clamp x (u.store.safe x) = u.store.safe x))) =
      (.ok (false, .ofRat 2, .ofRat 1, true) : Except Fault (Bool × DeltaRat × DeltaRat × Bool)) := by decide +kernel
  obtain ⟨s₁, h₁, hrun⟩ := bind_eq_ok.mp hrun
  obtain ⟨⟨_, s₂⟩, h₂, hrun⟩ := bind_eq_ok.mp hrun
  obtain ⟨⟨_, _, s₃⟩, h₃, hrun⟩ := bind_eq_ok.mp hrun
  obtain ⟨⟨_, s₄⟩, h₄, hrun⟩ := bind_eq_ok.mp hrun
  obtain ⟨⟨_, _, s₅⟩, h₅, hrun⟩ := bind_eq_ok.mp hrun
  obtain ⟨s₆, h₆, hrun⟩ := bind_eq_ok.mp hrun
  obtain ⟨s, h₇, hrun⟩ := bind_eq_ok.mp hrun
  obtain ⟨u, hu, hrun⟩ := bind_eq_ok.mp hrun
  have hview := Except.ok.inj hrun
  simp only [Prod.mk.injEq, decide_eq_true_eq] at hview
  obtain ⟨hbasic, hsafe, hclamp, hall⟩ := hview
  have hs : Reached .standard Anywhere [(3, [(0, 1), (1, 2)]), (2, [(0, 1), (1, 1)])] s :=
    .call (.call (.call (.call (.call (.call (.call (.call (.call .new (.addRow _ _ h₁)) (.assertBound _ _ _ _ h₂))
      (.search _ _ _ h₃)) .commit) .push) (.assertBound _ _ _ _ h₄)) (.search _ _ _ h₅)) (.addRow _ _ h₆))
      (.update _ _ trivial h₇)
  have hur : Reached .standard Anywhere _ u := .call hs (.pop hu)
  have hadmits : ∀ x, u.isRegistered x = true → u.isBasic x = false → u.store.bounds.Admits x (u.store.safe x) :=
    fun x hreg hx => hur.sound.coherent.disciplined.ordered.clamp_eq_self_iff.mp (hall x (mem_nonbasics.mpr ⟨hreg, hx⟩))
  obtain ⟨t, ht, hreverted, -⟩ := hs.reverts
  obtain ⟨v, hv, -, -, hvalues⟩ := hur.reverts
  have hzero : t.store.value 0 = .ofRat 1 := by rw [hreverted.nonbasic 0 hbasic, hsafe, hclamp]
  exact ⟨s, t, u, v, hs, ht, hreverted, hsafe, hzero, hu, hv, hvalues hadmits⟩

end Solver

end LinReal
