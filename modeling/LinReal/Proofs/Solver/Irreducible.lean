import LinReal.Proofs.Solver.Histories
import Mathlib.Data.List.Nodup

/-! Conflicts name no bound too many. A conflict is made of the violated bound of a row and one bound for every entry. The
    nonbasic variables are free, so all entries can stand on their bounds; and if one of those is dropped, its entry can be moved
    until the owner stands on the violated one. Either way the other bounds hold together with all rows. -/

namespace LinReal.Solver

variable {τ β : Type} {s t : Solver τ} {ds : List (Var × LinearForm)} {x y : Var} {f : LinearForm} {v : Violation τ}
  {token : τ} {l : Bound τ}

/-! ### The bounds of a row -/

/-- The bound that limits an entry of `f` towards the remedy of `v`; zero if there is none. -/
def blockingValue (s : Solver τ) (v : Violation τ) (f : LinearForm) (y : Var) : DeltaRat :=
  (((f.coeff? y).bind fun a => s.store.bounds (v.side.remedy a) y).map (·.value)).getD 0

theorem blockingValue_of_mem (hf : f.IsNormal) {e : Var × Rat} (he : e ∈ f)
    (hl : s.store.bounds (v.side.remedy e.2) e.1 = some l) : s.blockingValue v f e.1 = l.value := by
  rw [blockingValue, hf.coeff?_of_mem he, Option.bind_some, hl, Option.map_some, Option.getD_some]

section Row

variable (h : s.Shaped) (hf : s.tableau.row? x = some f)
include h hf

/-- All entries of a row can stand on their bounds. -/
theorem exists_solution_on_entries : ∃ w, s.tableau.SolvesDelta w ∧ ∀ e ∈ f, ∀ l,
    s.store.bounds (v.side.remedy e.2) e.1 = some l → w e.1 = l.value := by
  have hwf := h.wellFormed
  obtain ⟨w, hw, hfree⟩ := hwf.exists_solution (s.blockingValue v f)
  refine ⟨w, hw, fun e he l hl => ?_⟩
  rw [hfree e.1 (hwf.nonbasic hf (LinearForm.mem_vars_of_mem he)), blockingValue_of_mem (hwf.normal hf) he hl]

/-- All entries but one can stand on their bounds, and the owner of the row on a given value. -/
theorem exists_solution_off_entry {e : Var × Rat} (he : e ∈ f) (c : DeltaRat) : ∃ w, s.tableau.SolvesDelta w ∧ w x = c ∧
    ∀ d ∈ f, d.1 ≠ e.1 → ∀ l, s.store.bounds (v.side.remedy d.2) d.1 = some l → w d.1 = l.value := by
  have hwf := h.wellFormed
  obtain ⟨r, hr⟩ := (hwf.normal hf).exists_evalDelta_eq (x := e.1) (a := e.2) he (s.blockingValue v f) c
  obtain ⟨w, hw, hfree⟩ := hwf.exists_solution (Function.update (s.blockingValue v f) e.1 r)
  refine ⟨w, hw, ?_, fun d hd hne l hl => ?_⟩
  · rw [hw x f hf, LinearForm.evalDelta_congr fun y hy => hfree y (hwf.nonbasic hf hy), hr]
  · rw [hfree d.1 (hwf.nonbasic hf (LinearForm.mem_vars_of_mem hd)), Function.update_of_ne hne,
      blockingValue_of_mem (hwf.normal hf) hd hl]

/-- Without the bound that a token of the conflict stands for, the other bounds of the conflict hold together with all rows. -/
theorem exists_solution_without (htoken : token ∈ v.bound.token :: f.map (s.blockingToken v)) :
    ∃ w, s.tableau.SolvesDelta w ∧ (v.bound.token ≠ token → w x = v.bound.value) ∧ ∀ e ∈ f, ∀ l,
      s.store.bounds (v.side.remedy e.2) e.1 = some l → l.token ≠ token → w e.1 = l.value := by
  rcases List.mem_cons.mp htoken with rfl | htoken
  · obtain ⟨w, hw, hentries⟩ := exists_solution_on_entries (v := v) h hf
    exact ⟨w, hw, fun hne => absurd rfl hne, fun e he l hl _ => hentries e he l hl⟩
  · obtain ⟨e, he, rfl⟩ := List.mem_map.mp htoken
    obtain ⟨w, hw, hx, hentries⟩ := exists_solution_off_entry (v := v) h hf he v.bound.value
    refine ⟨w, hw, fun _ => hx, fun d hd l hl hne => hentries d hd (fun hde => hne ?_) l hl⟩
    -- In a normal form the entries of one variable are one entry, and it has one bound.
    have hnormal := h.wellFormed.normal hf
    have hcoeff : d.2 = e.2 := Option.some.inj ((hnormal.coeff?_of_mem hd).symm.trans (hde ▸ hnormal.coeff?_of_mem he))
    rw [hde, hcoeff] at hl
    rw [blockingToken, hl, Option.map_some, Option.getD_some]

end Row

/-- What the conflict is made of that the row of a variable shows. -/
theorem conflictOf_inv [DecidableEq τ] {c : Conflict τ} (h : s.Shaped) (hc : s.conflictOf x = .ok (some c)) :
    ∃ f v, s.tableau.row? x = some f ∧ s.store.bounds v.side x = some v.bound ∧
      (∀ e ∈ f, s.isEligible v.side e.1 e.2 = false) ∧ c = .ofTokens (v.bound.token :: f.map (s.blockingToken v)) := by
  obtain ⟨f, -, hf⟩ := h.row_ok (conflictOf_requires hc)
  rw [conflictOf, if_pos (conflictOf_requires hc)] at hc
  obtain ⟨slot, hslot, hc⟩ := bind_eq_ok.mp hc
  cases hv : slot.violation? with
  | none =>
    rw [hv] at hc
    cases hc
  | some v =>
    rw [hv] at hc
    obtain ⟨p, hp, hc⟩ := bind_eq_ok.mp hc
    obtain ⟨p', hp', hnone, -⟩ := partner?_ok hf v.side
    cases hp.symm.trans hp'
    cases p with
    | some y => cases hc
    | none =>
      obtain ⟨c', hc', hc⟩ := bind_eq_ok.mp hc
      cases hc
      rw [explain_ok h hf (hnone rfl)] at hc'
      refine ⟨f, v, hf, ?_, hnone rfl, (Except.ok.inj hc').symm⟩
      rw [Store.bounds_of_get? (Store.slot_eq_ok_iff.mp hslot)]
      exact (Slot.bound?_of_violation? hv).1

variable [DecidableEq τ] {settings : Settings} {as : List (Action τ)} {budget : Budget β} {b b' : β} {n : Nat}
  {c : Conflict τ}

/-- If no two assertions share a token, a bound in force is as asserted by the one assertion that has its token. -/
theorem History.sets_of_token (h : History settings Anywhere as s) (hdistinct : ((assertions as).map (·.token)).Nodup)
    {side : Side} (hl : s.store.bounds side x = some l) {a : Assertion τ} (ha : a ∈ assertions as)
    (htoken : a.token = l.token) : a.Sets side x l := by
  obtain ⟨b, hb, hsets⟩ := h.origin (Store.bounds_mem_levels s.store) hl
  have hsame : a.token = b.token := by rw [htoken, hsets.bound]
  rw [List.inj_on_of_nodup_map hdistinct ha hb hsame]
  exact hsets

/-- If no two assertions share a token, the assertions that the conflict of a search names have no solution together with the
    definitions, but any of them left out, the others have one. -/
theorem History.irreducible (h : History settings Anywhere as s) (hdistinct : ((assertions as).map (·.token)).Nodup)
    (ht : s.repairUpTo n budget b = .ok (.unsat c, b', t)) :
    (¬∃ w, SatisfiesDelta w (definitions as) ∧ ∀ a ∈ assertions as, a.token ∈ c.tokens → a.Holds w) ∧
    ∀ token ∈ c.tokens, (∃ a ∈ assertions as, a.token = token) ∧
      ∃ w, SatisfiesDelta w (definitions as) ∧
        ∀ a ∈ assertions as, a.token ∈ c.tokens → a.token ≠ token → a.Holds w := by
  have hs := h.reached.sound
  obtain ⟨hsearched, -⟩ := repairUpTo_searched hs ht
  have hsound := hsearched.unsat c rfl
  rw [hsearched.keeps.carries.bounds] at hsound
  obtain ⟨u, x, hwalk, hconflict⟩ := (repairUpTo_traced ht).shows c rfl
  obtain ⟨hu, hcarries, -⟩ := hwalk.kept hs.coherent
  obtain ⟨f, v, hf, hbound, hnone, rfl⟩ := conflictOf_inv hu.shaped hconflict
  refine ⟨?_, fun token htoken => ⟨?_, ?_⟩⟩
  · rintro ⟨w, hw, hholds⟩
    refine hsound.refuted ⟨w, hw, trivial, fun side y l hl hin => ?_⟩
    obtain ⟨a, ha, hlimits, rfl, rfl⟩ := h.origin (Store.bounds_mem_levels s.store) hl
    exact Assertion.holds_iff.mp (hholds a ha hin) side hlimits
  · obtain ⟨side, y, l, hl, rfl⟩ := (hsound.inForce token htoken).resolve_left List.not_mem_nil
    obtain ⟨a, ha, hsets⟩ := h.origin (Store.bounds_mem_levels s.store) hl
    exact ⟨a, ha, by rw [hsets.bound]⟩
  · obtain ⟨w, hw, howner, hentries⟩ := exists_solution_without hu.shaped hf (mem_firsts.mp htoken)
    refine ⟨w, hu.denotes.delta.mp hw, fun a ha hin hne => Assertion.holds_of_eq ?_⟩
    -- The assertion set the violated bound or that of an entry, and its variable stands on it.
    rcases List.mem_cons.mp (mem_firsts.mp hin) with hin | hin
    · have hsets := h.sets_of_token hdistinct (hcarries.bounds ▸ hbound) ha hin
      rw [hsets.var, howner (hin ▸ hne), hsets.bound]
    · obtain ⟨e, he, hblocking⟩ := List.mem_map.mp hin
      obtain ⟨l, hl, -, hltoken⟩ := exists_blocking hu.shaped hf hnone he
      have htokens : a.token = l.token := hblocking.symm.trans hltoken
      have hsets := h.sets_of_token hdistinct (hcarries.bounds ▸ hl) ha htokens
      rw [hsets.var, hentries e he l hl (htokens ▸ hne), hsets.bound]

/-- A sum that equals two, of variables that are at most zero: an equality that is violated from below and two bounds that block
    it. A fourth assertion, of the other side of a variable, is not named. -/
theorem History.irreducible_of_sum : ∃ (as : List (Action Nat)) (s t : Solver Nat) (c : Conflict Nat),
    History .standard Anywhere as s ∧ assertions as = [.bound .lower 1 (.ofRat (-5)) 3, .bound .upper 1 (.ofRat 0) 2,
        .bound .upper 0 (.ofRat 0) 1, .equal 2 (.ofRat 2) 0] ∧
      s.repairUpTo 9 .unlimited () = .ok (.unsat c, (), t) ∧ c.tokens = [0, 1, 2] ∧
      ∃ w, SatisfiesDelta w (definitions as) ∧ ∀ a ∈ assertions as, a.token ∈ c.tokens → a.token ≠ 0 → a.Holds w := by
  have hrun : (do
      let (_, s) ← (Action.addRow 2 [(0, 1), (1, 1)]).apply (Solver.new .standard)
      let (_, s) ← (Action.assert (.equal 2 (.ofRat 2) 0)).apply s
      let (_, s) ← (Action.assert (.bound .upper 0 (.ofRat 0) 1)).apply s
      let (_, s) ← (Action.assert (.bound .upper 1 (.ofRat 0) 2)).apply s
      let (_, s) ← (Action.assert (.bound .lower 1 (.ofRat (-5)) 3)).apply s
      let (o, _, _) ← s.repairUpTo 9 .unlimited ()
      return o) = (.ok (.unsat ⟨[0, 1, 2]⟩) : Except Fault (Outcome Nat)) := by decide +kernel
  obtain ⟨⟨_, s₁⟩, h₁, hrun⟩ := bind_eq_ok.mp hrun
  obtain ⟨⟨_, s₂⟩, h₂, hrun⟩ := bind_eq_ok.mp hrun
  obtain ⟨⟨_, s₃⟩, h₃, hrun⟩ := bind_eq_ok.mp hrun
  obtain ⟨⟨_, s₄⟩, h₄, hrun⟩ := bind_eq_ok.mp hrun
  obtain ⟨⟨_, s₅⟩, h₅, hrun⟩ := bind_eq_ok.mp hrun
  obtain ⟨⟨o, _, t⟩, ht, ho⟩ := bind_eq_ok.mp hrun
  cases ho
  have hs : History .standard Anywhere [.assert (.bound .lower 1 (.ofRat (-5)) 3), .assert (.bound .upper 1 (.ofRat 0) 2),
      .assert (.bound .upper 0 (.ofRat 0) 1), .assert (.equal 2 (.ofRat 2) 0), .addRow 2 [(0, 1), (1, 1)]] s₅ :=
    .act (.act (.act (.act (.act .new _ h₁ trivial) _ h₂ trivial) _ h₃ trivial) _ h₄ trivial) _ h₅ trivial
  have hdropped := ((hs.irreducible (by decide) ht).2 0 (by decide)).2
  exact ⟨_, s₅, t, _, hs, rfl, ht, rfl, hdropped⟩

end LinReal.Solver
