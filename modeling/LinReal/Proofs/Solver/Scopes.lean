import LinReal.Solver.Scope
import LinReal.Proofs.Solver.Invariant

/-! Going back. A commit and a new scope change neither values nor bounds; a revert brings back values that solve the rows,
    and closing a scope loosens the bounds. Variables that lie outside their bounds afterwards are moved or queued. -/

namespace LinReal.Solver

variable {τ : Type} {s t : Solver τ} {ds : List (Var × LinearForm)} {x y : Var}

/-! ### Values -/

theorem within_commit (h : s.Coherent ds) : s.commit.Within x ↔ s.Within x := by
  obtain ⟨hsame, hvalue, -⟩ := Store.commit_view h.tracks
  exact within_congr hsame.bounds (congrFun hvalue x)

theorem Sound.commit (h : s.Sound ds) : s.commit.Sound ds ∧ Carries s s.commit ∧ (s.Settled → s.commit.Settled) := by
  obtain ⟨hsame, hvalue, hsafe, htracks⟩ := Store.commit_view h.coherent.tracks
  refine ⟨⟨⟨⟨h.coherent.shaped.wellFormed, hsame.size.trans h.coherent.shaped.size⟩, h.coherent.room, h.coherent.announced,
    h.coherent.mentioned, h.coherent.denotes, ?_, ?_, htracks, h.coherent.disciplined.congr hsame⟩, ?_, h.sorted⟩,
    ⟨Store.levels_congr hsame, id⟩, ?_⟩
  · show s.tableau.SolvesDelta s.store.commit.value
    rw [hvalue]
    exact h.coherent.solves
  · show s.tableau.SolvesDelta s.store.commit.safe
    rw [hsafe]
    exact h.coherent.solves
  · exact fun x hx hn => h.queued x hx ((within_commit h.coherent).not.mp hn)
  · exact fun hs x hx => (within_commit h.coherent).mpr (hs x hx)

theorem Coherent.revert (h : s.Coherent ds) : ({ s with store := s.store.revert } : Solver τ).Coherent ds ∧
    Carries s { s with store := s.store.revert } := by
  obtain ⟨hsame, hvalue, hsafe, htracks⟩ := Store.revert_view h.tracks
  refine ⟨⟨⟨h.shaped.wellFormed, hsame.size.trans h.shaped.size⟩, h.room, h.announced, h.mentioned, h.denotes, ?_, ?_, htracks,
    h.disciplined.congr hsame⟩, ⟨Store.levels_congr hsame, id⟩⟩
  · show s.tableau.SolvesDelta s.store.revert.value
    rw [hvalue]
    exact h.safe
  · show s.tableau.SolvesDelta s.store.revert.safe
    rw [hsafe]
    exact h.safe

theorem clamp_ok (h : s.Coherent ds) (hx : s.isBasic x = false) (hlt : x < s.tableau.size) :
    ∃ t, s.clamp x = .ok t ∧ t.Coherent ds ∧ Frame s t ∧ t.tableau = s.tableau ∧
      ∀ y, s.isBasic y = false → (y = x ∨ s.Within y) → t.Within y := by
  obtain ⟨slot, hslot, hget⟩ := h.shaped.slot_ok hlt
  simp only [clamp, hslot, ok_bind]
  cases hv : slot.violation? with
  | none =>
    refine ⟨s, rfl, h, .refl s, rfl, fun y _ hy => ?_⟩
    rcases hy with rfl | hy
    · exact (within_iff hget).mpr hv
    · exact hy
  | some v =>
    obtain ⟨t, ht, hmoved⟩ := update_ok h.shaped hx hlt v.bound.value
    have hbound := (Slot.bound?_of_violation? hv).1
    rw [← Store.bounds_of_get? hget] at hbound
    exact ⟨t, ht, hmoved.coherent h, hmoved.frame, hmoved.tableau, fun y hy hw =>
      hmoved.within (h.disciplined.ordered.admits hbound) hy fun hyx => hw.resolve_left hyx⟩

/-- Nonbasic variables move into their bounds, one after the other. -/
theorem clampAll_ok {xs : List Var} (h : s.Coherent ds) (hxs : ∀ x ∈ xs, s.isBasic x = false ∧ x < s.tableau.size) :
    ∃ t, xs.foldlM clamp s = .ok t ∧ t.Coherent ds ∧ Frame s t ∧ t.tableau = s.tableau ∧
      ∀ y, s.isBasic y = false → (y ∈ xs ∨ s.Within y) → t.Within y := by
  induction xs generalizing s with
  | nil =>
    refine ⟨s, rfl, h, .refl s, rfl, fun y _ hy => hy.resolve_left fun hin => by cases hin⟩
  | cons x xs ih =>
    obtain ⟨hx, hlt⟩ := hxs x List.mem_cons_self
    obtain ⟨u, hu, hcoh, hframe, htab, hwithin⟩ := clamp_ok h hx hlt
    have hbasic : ∀ {y}, u.isBasic y = s.isBasic y := fun {y} => by rw [isBasic, htab, isBasic]
    obtain ⟨t, ht, hcoh', hframe', htab', hwithin'⟩ := ih hcoh fun y hy => by
      rw [hbasic, htab]
      exact hxs y (List.mem_cons_of_mem _ hy)
    refine ⟨t, by rw [List.foldlM_cons, hu, ok_bind, ht], hcoh', hframe.trans hframe', htab'.trans htab, fun y hy hw => ?_⟩
    refine hwithin' y (hbasic.trans hy) ?_
    rcases hw with hin | hw
    · rcases List.mem_cons.mp hin with rfl | hin
      · exact Or.inr (hwithin y hy (Or.inl rfl))
      · exact Or.inl hin
    · exact Or.inr (hwithin y hy (Or.inr hw))

theorem Coherent.inspectBasics (h : s.Coherent ds) (hsorted : s.queue.Sorted) :
    ∃ t, s.inspectBasics = .ok t ∧ t.Sound ds ∧ Carries s t ∧ (s.Settled → t.Settled) := by
  obtain ⟨q, hq, hgrows, hin⟩ := inspectBasics_ok h.shaped
  exact ⟨{ s with queue := q }, hq, ⟨h.withQueue q, hin, hgrows.sorted hsorted⟩, ⟨rfl, id⟩, fun hs => hs⟩

theorem mem_nonbasics : x ∈ s.nonbasics ↔ s.isRegistered x = true ∧ s.isBasic x = false := by
  rw [nonbasics, List.mem_filter, Bool.not_eq_true']
  exact and_congr_left' VarSet.mem_members

theorem Coherent.clampable (h : s.Coherent ds) : ∀ x ∈ s.nonbasics, s.isBasic x = false ∧ x < s.tableau.size := by
  intro x hx
  obtain ⟨hreg, hnb⟩ := mem_nonbasics.mp hx
  exact ⟨hnb, h.room hreg⟩

theorem revert_ok (h : s.Sound ds) : ∃ t, s.revert = .ok t ∧ t.Sound ds ∧ Carries s t ∧ t.Settled := by
  obtain ⟨hcoh, hcarries⟩ := h.coherent.revert
  obtain ⟨u, hu, hcoh', hframe, htab, hwithin⟩ := clampAll_ok hcoh hcoh.clampable
  obtain ⟨t, ht, hsound, hcarries', hsettled⟩ := hcoh'.inspectBasics (hframe.queue.sorted h.sorted)
  refine ⟨t, ?_, hsound, (hcarries.trans hframe.carries).trans hcarries', hsettled fun y hy => ?_⟩
  · exact bind_eq_ok.mpr ⟨u, hu, ht⟩
  · have hys : s.isBasic y = false := by rwa [isBasic, htab] at hy
    refine hwithin y hys ?_
    by_cases hreg : s.isRegistered y = true
    · exact Or.inl (mem_nonbasics.mpr ⟨hreg, hys⟩)
    · exact Or.inr (hcoh.within_of_not_registered hreg)

/-! ### Bounds -/

theorem Sound.push (h : s.Sound ds) : s.push.Sound ds ∧ s.push.store.levels = s.store.bounds :: s.store.levels ∧
    (∀ {x}, s.isRegistered x = true → s.push.isRegistered x = true) ∧ (s.Settled → s.push.Settled) :=
  ⟨⟨⟨⟨h.coherent.shaped.wellFormed, h.coherent.shaped.size⟩, h.coherent.room, h.coherent.announced, h.coherent.mentioned,
    h.coherent.denotes, h.coherent.solves, h.coherent.safe, h.coherent.tracks, h.coherent.disciplined.push⟩, h.queued,
    h.sorted⟩, Store.levels_push s.store, id, id⟩

theorem pop_ok (h : s.Sound ds) : ∃ t, s.pop = .ok t ∧ t.Sound ds ∧
    (s.store.scopes ≠ [] → t.store.levels = s.store.levels.tail) ∧
    (∀ {x}, s.isRegistered x = true → t.isRegistered x = true) ∧ (s.Settled → t.Settled) := by
  have hd := h.coherent.disciplined
  obtain ⟨hsize, hvalue, hsafe, htracks, -, -, -, hlevels⟩ := Store.pop_view hd.inRange
  obtain ⟨hd', htight⟩ := hd.pop
  have hcoh : ({ s with store := s.store.pop.2 } : Solver τ).Coherent ds := by
    refine ⟨⟨h.coherent.shaped.wellFormed, hsize.trans h.coherent.shaped.size⟩, h.coherent.room, h.coherent.announced,
      h.coherent.mentioned, h.coherent.denotes, ?_, ?_, htracks h.coherent.tracks, hd'⟩
    · show s.tableau.SolvesDelta s.store.pop.2.value
      rw [hvalue]
      exact h.coherent.solves
    · show s.tableau.SolvesDelta s.store.pop.2.safe
      rw [hsafe]
      exact h.coherent.safe
  obtain ⟨t, ht, hsound, hcarries, hsettled⟩ := hcoh.inspectBasics h.sorted
  refine ⟨t, ht, hsound, fun hs => hcarries.levels.trans (hlevels hs), hcarries.registered, fun hset => hsettled fun y hy => ?_⟩
  show s.store.pop.2.bounds.Admits y (s.store.pop.2.value y)
  rw [hvalue]
  exact htight.admits (hset y hy)

end LinReal.Solver
