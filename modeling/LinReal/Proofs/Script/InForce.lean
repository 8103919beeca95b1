import LinReal.Proofs.Script.Running
import Mathlib.Order.Bounds.Basic

/-! The limits in force in a run. While no conflict is pending, the bounds of the solver are the tightest limits of the bounds in
    force, whichever of these were skipped or redundant. A bound that was skipped is dropped no later than the conflict that was
    pending then, and one that was redundant stays no longer than the bound that was as tight. -/

namespace LinReal

open Command

namespace Literal

/-- The limit that the bound sets on a side, if it limits its variable there. A strict bound keeps off its constant by `δ`. -/
def limitOn (l : Literal) : Side → Option DeltaRat
  | .lower =>
    match l.relation with
    | .ge | .eq => some ⟨l.constant, 0⟩
    | .gt => some ⟨l.constant, 1⟩
    | .le | .lt => none
  | .upper =>
    match l.relation with
    | .le | .eq => some ⟨l.constant, 0⟩
    | .lt => some ⟨l.constant, -1⟩
    | .ge | .gt => none

theorem limitOn_eq_some_iff {l : Literal} {side : Side} {v : DeltaRat} :
    l.limitOn side = some v ↔ l.sides side ∧ l.limit = v := by
  obtain ⟨x, relation, c⟩ := l
  cases relation <;> cases side <;>
    simp [limitOn, sides, limit, DeltaRat.ofRat, DeltaRat.strictlyAbove, DeltaRat.strictlyBelow]

end Literal

namespace Script

variable {s : Script} {b : Bounds Nat} {is js : List Nat} {side : Side} {x : Var}

/-- The limits that the bounds with these ordinals set on a side of `x`. -/
def limits (s : Script) (is : List Nat) (side : Side) (x : Var) : Set DeltaRat :=
  {v | ∃ i ∈ is, ∃ l, s.literals[i]? = some l ∧ l.var = x ∧ l.limitOn side = some v}

/-- On every side of every variable there is the tightest of the limits that the bounds with these ordinals set, with the ordinal
    of a bound that sets it, and nothing if there is no limit. -/
structure Tightest (s : Script) (is : List Nat) (b : Bounds Nat) : Prop where
  lower : ∀ x l, b .lower x = some l → IsGreatest (s.limits is .lower x) l.value
  upper : ∀ x u, b .upper x = some u → IsLeast (s.limits is .upper x) u.value
  absent : ∀ side x, b side x = none → s.limits is side x = ∅
  token : ∀ side x c, b side x = some c → c.token ∈ is ∧
    ∃ l, s.literals[c.token]? = some l ∧ l.var = x ∧ l.limitOn side = some c.value

theorem Fits.congr (h : s.Fits b is) (hmem : ∀ i, i ∈ js ↔ i ∈ is) : s.Fits b js :=
  ⟨fun side x c hc => ⟨(hmem _).mpr (h.stems side x c hc).1, (h.stems side x c hc).2⟩,
    fun i hi => h.covers i ((hmem i).mp hi)⟩

/-- Every limit is as loose as the bound on its side. -/
theorem Fits.reached_of_mem_limits (h : s.Fits b is) {v : DeltaRat} (hv : v ∈ s.limits is side x) :
    ∃ c, b side x = some c ∧ side.reached v c.value = true := by
  obtain ⟨i, hi, l, hl, rfl, hlimit⟩ := hv
  obtain ⟨hside, rfl⟩ := Literal.limitOn_eq_some_iff.mp hlimit
  exact h.covers i hi l hl side hside

theorem Fits.tightest (h : s.Fits b is) : s.Tightest is b := by
  have htoken : ∀ side x c, b side x = some c → c.token ∈ is ∧
      ∃ l, s.literals[c.token]? = some l ∧ l.var = x ∧ l.limitOn side = some c.value := by
    intro side x c hc
    obtain ⟨hin, l, hl, hx, hside, hlimit⟩ := h.stems side x c hc
    exact ⟨hin, l, hl, hx, Literal.limitOn_eq_some_iff.mpr ⟨hside, hlimit⟩⟩
  have hreached : ∀ {side x c v}, b side x = some c → v ∈ s.limits is side x → side.reached v c.value = true := by
    intro side x c v hc hv
    obtain ⟨c', hc', hr⟩ := h.reached_of_mem_limits hv
    obtain rfl := Option.some.inj (hc.symm.trans hc')
    exact hr
  refine ⟨fun x l hl => ⟨⟨l.token, htoken .lower x l hl⟩, fun v hv => ?_⟩,
    fun x u hu => ⟨⟨u.token, htoken .upper x u hu⟩, fun v hv => ?_⟩, fun side x hnone => ?_, htoken⟩
  · exact of_decide_eq_true (hreached hl hv)
  · exact of_decide_eq_true (hreached hu hv)
  · refine Set.eq_empty_iff_forall_notMem.mpr fun v hv => ?_
    obtain ⟨c, hc, -⟩ := h.reached_of_mem_limits hv
    cases hnone.symm.trans hc

/-- At every point of a run at which no conflict is pending, the bounds of the solver are the tightest limits of the bounds in
    force, each with the ordinal of one that sets it. -/
theorem run_tightest {lines : List (Option String)} (h : Script.ofLines lines = .ok s) (settings : Settings)
    {pre post : List Command} (hcut : s.commands.toList = pre ++ post) :
    ∃ r, pre.foldlM (Runner.step s) (.start s settings) = .ok r ∧ r.active = Command.active pre ∧
      (r.pending = none → s.Tightest (Command.active pre) r.solver.store.bounds) := by
  have hs := wellFormed_of_ofLines h
  obtain ⟨r, hr, hfollows, -⟩ := Runner.follows_of_cut hs settings hcut
  have hactive := hfollows.active (hs.matched_left hcut)
  refine ⟨r, hr, hactive, fun hpending => ?_⟩
  have htracked := hfollows.tracked hpending
  rw [Store.levels_eq_cons] at htracked
  refine (htracked.fits.congr fun i => ?_).tightest
  rw [← hactive]
  exact List.mem_reverse

/-- A bound clashes with the one of an outer scope, the next one is skipped, and both go with their scope; a looser bound after
    them changes nothing. The strict bound of the outer scope stays the tightest. -/
theorem run_tightest_of_scopes : ∃ s r,
    Script.ofLines [some "v x", some "b x >= 0", some "push", some "b x > 3", some "push", some "b x <= 1",
      some "b x >= 5", some "pop", some "b x >= 2"] = .ok s ∧
      s.commands.toList.foldlM (Runner.step s) (.start s .standard) = .ok r ∧ r.pending = none ∧ r.active = [0, 1, 4] ∧
      r.solver.store.bounds .lower 0 = some ⟨⟨3, 1⟩, 1⟩ ∧ s.Tightest [0, 1, 4] r.solver.store.bounds := by
  obtain ⟨s, hs⟩ : ∃ s : Script, s = ⟨#["x"], .ofList [("x", 0)],
      #[⟨0, .ge, 0⟩, ⟨0, .gt, 3⟩, ⟨0, .le, 1⟩, ⟨0, .ge, 5⟩, ⟨0, .ge, 2⟩],
      #[.bound 0, .push, .bound 1, .push, .bound 2, .bound 3, .pop, .bound 4]⟩ := ⟨_, rfl⟩
  have hread : Script.ofLines [some "v x", some "b x >= 0", some "push", some "b x > 3", some "push", some "b x <= 1",
      some "b x >= 5", some "pop", some "b x >= 2"] = .ok s := by
    rw [hs]
    decide +kernel
  have hstate : (s.commands.toList.foldlM (Runner.step s) (.start s .standard)).toOption.map
      (fun r => (r.pending, r.active, r.solver.store.bounds .lower 0)) = some (none, [0, 1, 4], some ⟨⟨3, 1⟩, 1⟩) := by
    rw [hs]
    decide +kernel
  obtain ⟨r, hr, hactive, htightest⟩ := run_tightest hread .standard (List.append_nil _).symm
  rw [hr] at hstate
  obtain ⟨hpending, hstate⟩ := Prod.mk.inj (Option.some.inj hstate)
  obtain ⟨hinForce, hlower⟩ := Prod.mk.inj hstate
  have hbounds := htightest hpending
  rw [← hactive, hinForce] at hbounds
  exact ⟨s, r, hread, hr, hpending, hinForce, hlower, hbounds⟩

end Script

end LinReal
