import LinReal.Script.Verify
import LinReal.Proofs.Script.Commands
import LinReal.Proofs.Solver.Faults

/-! The solvers of scripts. A run changes its solver by calls alone, and so does the verification of a conflict. Hence every
    solver that they come upon is a reached one, and has what its operations look up without a check. -/

namespace LinReal

open Command

namespace Solver

variable {s t : Solver Nat} {ds : List (Var × LinearForm)} {settings : Settings} {admits : Solver Nat → Var → DeltaRat → Prop}
  {answer : Option (Conflict Nat)}

theorem Reached.registerAll (h : Reached settings admits ds s) (xs : List Var) :
    Reached settings admits ds (xs.foldl register s) :=
  List.foldlRecOn xs register h fun _ hu x _ => hu.call (.register x)

theorem Reached.addRows {rows : List (Var × LinearForm)} (h : Reached settings admits ds s)
    (ht : rows.foldlM (fun s p => s.addRow p.1 p.2) s = .ok t) : Reached settings admits (rows.reverse ++ ds) t := by
  induction rows generalizing ds s with
  | nil =>
    cases ht
    exact h
  | cons p rows ih =>
    rw [List.foldlM_cons] at ht
    obtain ⟨u, hu, ht⟩ := bind_eq_ok.mp ht
    rw [List.reverse_cons, List.append_assoc]
    exact ih (h.call (.addRow p.1 p.2 hu)) ht

theorem Reached.assertIn {l : Literal} {i : Nat} (h : Reached settings admits ds s) (ht : l.assertIn s i = .ok (answer, t)) :
    Reached settings admits ds t := by
  unfold Literal.assertIn at ht
  split at ht
  · exact h.call (.assertBound .lower l.var l.limit i ht)
  · exact h.call (.assertBound .lower l.var l.limit i ht)
  · exact h.call (.assertBound .upper l.var l.limit i ht)
  · exact h.call (.assertBound .upper l.var l.limit i ht)
  · exact h.call (.assertEqual l.var l.limit i ht)

theorem Reached.repair (h : Reached settings admits ds s) (ht : s.repair = .ok (answer, t)) : Reached settings admits ds t := by
  obtain ⟨⟨o, b, u⟩, hu, ht⟩ := bind_eq_ok.mp ht
  cases ht
  exact h.call (.search .unlimited () s.roundBound hu)

end Solver

/-! ### Runs -/

namespace Runner

open Solver (Reached)

variable {s : Script} {settings : Settings} {admits : Solver Nat → Var → DeltaRat → Prop} {r r' : Runner} {c : Command}
  {pre cs : List Command} {ds : List (Var × LinearForm)}

theorem reached_start (s : Script) (settings : Settings) : Reached settings admits [] (start s settings).solver :=
  Reached.new.registerAll (List.range s.variableCount)

theorem reached_retract {is : List Nat} (h : Reached settings admits ds r.solver) (hr : r.retract is = .ok r') :
    Reached settings admits ds r'.solver := by
  unfold Runner.retract at hr
  split at hr
  · cases hr
    exact h
  · split at hr
    · obtain ⟨t, ht, hr⟩ := bind_eq_ok.mp hr
      cases hr
      exact h.call (.revert ht)
    · cases hr
      exact h

theorem reached_decide (h : Reached settings admits ds r.solver) (hr : r.decide = .ok r') :
    Reached settings admits ds r'.solver := by
  unfold Runner.decide at hr
  split at hr
  · cases hr
    exact h
  · obtain ⟨⟨answer, t⟩, ht, hr⟩ := bind_eq_ok.mp hr
    have hrepaired := h.repair ht
    cases answer with
    | none =>
      cases hr
      exact hrepaired.call .commit
    | some c =>
      cases hr
      exact hrepaired

theorem solver_record (r : Runner) (i : Nat) : (r.record i).solver = r.solver := by
  unfold record
  split <;> rfl

/-- What a check does: it decides, and records its result. -/
theorem step_check_inv (hr : r.step s .check = .ok r') : ∃ (u : Runner) (verdict : Verdict), r.decide = .ok u ∧
    r'.solver = u.solver ∧ r'.results = ⟨verdict, u.active, u.rows⟩ :: u.results ∧
    ∀ m, verdict = .sat m → u.pending = none ∧ u.model s = .ok m := by
  obtain ⟨u, hu, hr⟩ := bind_eq_ok.mp hr
  cases hp : u.pending with
  | some c =>
    simp only [hp] at hr
    cases hr
    exact ⟨u, .unsat c, hu, rfl, rfl, fun m hm => by cases hm⟩
  | none =>
    simp only [hp] at hr
    cases hmodel : u.model s with
    | error e =>
      rw [hmodel] at hr
      cases hr
    | ok m =>
      rw [hmodel] at hr
      cases hr
      refine ⟨u, .sat m, hu, rfl, rfl, fun m' hm => ⟨hp, ?_⟩⟩
      rw [← Verdict.sat.inj hm, hmodel]

/-- A command changes the solver by calls, and gives it a definition only if it is a row. -/
theorem reached_step (h : Reached settings admits (rowsOf pre).reverse r.solver) (hr : r.step s c = .ok r') :
    Reached settings admits (rowsOf (pre ++ [c])).reverse r'.solver := by
  rw [rowsOf_append, List.reverse_append]
  cases c with
  | row x d =>
    obtain ⟨t, ht, hr⟩ := bind_eq_ok.mp hr
    cases hr
    exact h.call (.addRow x d ht)
  | bound i =>
    have hrecorded : Reached settings admits (rowsOf pre).reverse (r.record i).solver := (solver_record r i).symm ▸ h
    simp only [step] at hr
    split at hr
    · cases hr
      exact hrecorded
    · obtain ⟨l, -, hr⟩ := bind_eq_ok.mp hr
      obtain ⟨⟨clash, t⟩, ht, hr⟩ := bind_eq_ok.mp hr
      cases hr
      exact hrecorded.assertIn ht
  | push =>
    cases hr
    exact h.call .push
  | pop =>
    obtain ⟨u, hu, hr⟩ := bind_eq_ok.mp hr
    obtain ⟨t, ht, hr⟩ := bind_eq_ok.mp hr
    cases hr
    exact (reached_retract (r := { r with scopes := r.scopes.tail }) h hu).call (.pop ht)
  | check =>
    obtain ⟨u, verdict, hu, hsolver, -⟩ := step_check_inv hr
    rw [hsolver]
    exact reached_decide h hu

theorem reached_steps (h : Reached settings admits (rowsOf pre).reverse r.solver) (hr : cs.foldlM (step s) r = .ok r') :
    Reached settings admits (rowsOf (pre ++ cs)).reverse r'.solver := by
  -- `pre` is what has been run, whose rows are the definitions that the solver has been given.
  induction cs generalizing pre r with
  | nil =>
    cases hr
    rwa [List.append_nil]
  | cons c cs ih =>
    rw [List.foldlM_cons] at hr
    obtain ⟨r₁, h₁, hr⟩ := bind_eq_ok.mp hr
    have hreached := ih (reached_step h h₁) hr
    rwa [List.append_assoc] at hreached

theorem reached_run (hr : cs.foldlM (step s) (start s settings) = .ok r) :
    Reached settings admits (rowsOf cs).reverse r.solver := by
  have hstart : Reached settings admits (rowsOf []).reverse (start s settings).solver := reached_start s settings
  exact reached_steps hstart hr

end Runner

/-! ### Verifications -/

namespace Script

open Solver (Reached)

variable {s : Script} {n : Nat} {t : Solver Nat} {admits : Solver Nat → Var → DeltaRat → Prop}

/-- The solvers that the verification of a conflict comes upon: the one with the first rows, and those that it becomes as bounds
    are asserted without a clash. -/
inductive Probes (s : Script) (n : Nat) : Solver Nat → Prop where
  | rows {t : Solver Nat} (h : s.solverWithRows n = .ok t) : Probes s n t
  | bound {t u : Solver Nat} {i : Nat} {l : Literal} (h : Probes s n t) (hl : s.literal i = .ok l)
    (hu : l.assertIn t i = .ok (none, u)) : Probes s n u

theorem Probes.reached (h : s.Probes n t) : Reached .standard admits (s.rows.take n).reverse t := by
  induction h with
  | rows ht =>
    have hstart : Reached .standard admits [] (Runner.start s .standard).solver := Runner.reached_start s .standard
    have hrows := hstart.addRows ht
    rwa [List.append_nil] at hrows
  | bound _ _ hu ih => exact ih.assertIn hu

end Script

end LinReal
