import LinReal.Proofs.Tally
import LinReal.Proofs.Solver.EarlyScan
import Mathlib.Data.List.GetD
import Mathlib.Data.List.Induction

/-! Improvements. The early scan holds the best conflict so far, and one with fewer tokens takes its place. How often that happens is
    known in advance from the sizes, by the conflicts that are smaller than all before them. The scan notes it at most once, so
    the tally of improvements is right as long as no scan goes over to a smaller conflict twice. -/

namespace LinReal

/-- How many numbers, the first one apart, are below all that come before them. -/
def undercuts (sizes : List Nat) : Nat :=
  (List.range sizes.length).countP fun i => 0 < i ∧ ∀ j < i, sizes.getD i 0 < sizes.getD j 0

theorem undercuts_concat (sizes : List Nat) (n : Nat) :
    undercuts (sizes ++ [n]) = undercuts sizes + if sizes ≠ [] ∧ ∀ m ∈ sizes, n < m then 1 else 0 := by
  have hold : ∀ i < sizes.length, (sizes ++ [n]).getD i 0 = sizes.getD i 0 := fun i hi => List.getD_append _ _ _ _ hi
  have hnew : (sizes ++ [n]).getD sizes.length 0 = n := by simp
  have hbelow : (∀ j < sizes.length, n < (sizes ++ [n]).getD j 0) ↔ ∀ m ∈ sizes, n < m := by
    rw [List.forall_mem_iff_getElem]
    refine forall₂_congr fun j hj => ?_
    rw [hold j hj, List.getD_eq_getElem _ _ hj]
  rw [undercuts, List.length_append, List.length_singleton, List.range_succ, List.countP_append, List.countP_singleton, hnew,
    undercuts]
  congr 1
  · refine List.countP_congr fun i hi => ?_
    have hi' := List.mem_range.mp hi
    simp only [decide_eq_true_eq, hold i hi']
    exact and_congr_right fun _ => forall₂_congr fun j hj => by rw [hold j (hj.trans hi')]
  · simp only [decide_eq_true_eq, hbelow, List.length_pos_iff]

namespace Conflict

variable {τ : Type} {cs : List (Conflict τ)} {best c : Conflict τ} {n : Nat}

theorem smallest_concat (cs : List (Conflict τ)) (c : Conflict τ) : smallest (cs ++ [c]) =
    match smallest cs with
    | none => some (c, 0)
    | some (best, n) => some (if c.size < best.size then (c, n + 1) else (best, n)) := by
  cases cs with
  | nil => rfl
  | cons d ds => simp only [smallest, List.cons_append, List.foldl_append, List.foldl_cons, List.foldl_nil]

theorem eq_nil_of_smallest (h : smallest cs = none) : cs = [] := by
  cases cs with
  | nil => rfl
  | cons d ds => cases h

/-- The best conflict is replaced whenever a conflict undercuts those before it. -/
theorem eq_undercuts_of_smallest (h : smallest cs = some (best, n)) : n = undercuts (cs.map (·.size)) := by
  induction cs using List.reverseRecOn generalizing best n with
  | nil => cases h
  | append_singleton cs c ih =>
    rw [smallest_concat] at h
    rw [List.map_append, List.map_singleton, undercuts_concat]
    cases hcs : smallest cs with
    | none =>
      obtain rfl := eq_nil_of_smallest hcs
      cases h
      rfl
    | some p =>
      obtain ⟨old, k⟩ := p
      rw [hcs] at h
      have hold : cs.map (·.size) ≠ [] := by
        rintro hnil
        rw [List.map_eq_nil_iff.mp hnil] at hcs
        cases hcs
      have hbelow : (∀ m ∈ cs.map (·.size), c.size < m) ↔ c.size < old.size := by
        rw [List.forall_mem_map]
        exact ⟨fun h => h old (mem_of_smallest hcs), fun h d hd => h.trans_le (le_of_smallest hcs hd)⟩
      simp only [ne_eq, hold, not_false_eq_true, true_and, hbelow, ← ih hcs]
      by_cases hlt : c.size < old.size
      · simp only [hlt, if_true, Option.some.injEq, Prod.mk.injEq] at h ⊢
        exact h.2.symm
      · simp only [hlt, if_false, Option.some.injEq, Prod.mk.injEq] at h ⊢
        exact h.2.symm

end Conflict

namespace Solver

variable {τ : Type} {s t : Solver τ} {ds : List (Var × LinearForm)} {settings : Settings} {answer : Option (Conflict τ)}

/-- What the scan notes of the conflicts that it comes upon. -/
def scanEvents (found : List (Conflict τ)) : List Event :=
  (if 0 < undercuts (found.map (·.size)) then [.earlyImprovement] else []) ++ List.replicate found.length .earlyConflict

theorem count_scanEvents (found : List (Conflict τ)) :
    (scanEvents found).count .earlyImprovement = min 1 (undercuts (found.map (·.size))) := by
  rw [scanEvents, List.count_append, List.count_replicate]
  split <;> simp <;> omega

theorem scanNotes_eq (found : List (Conflict τ)) : scanNotes found = scanEvents found := by
  rw [scanNotes, scanEvents]
  congr 1
  split
  · rename_i hsmallest
    rw [← Conflict.eq_undercuts_of_smallest hsmallest, if_pos (Nat.succ_pos _)]
  · rename_i hother
    cases hsmallest : Conflict.smallest found with
    | none =>
      rw [Conflict.eq_nil_of_smallest hsmallest]
      rfl
    | some p =>
      obtain ⟨best, n⟩ := p
      cases n with
      | zero => rw [← Conflict.eq_undercuts_of_smallest hsmallest]; rfl
      | succ n => exact absurd hsmallest (hother best n)

variable [DecidableEq τ]

/-- The conflicts that the rows of the violated variables show, in the order of the queue. -/
def conflictsInSight (s : Solver τ) : Except Fault (List (Conflict τ)) := do
  return (← s.violators.mapM s.conflictOf).filterMap id

theorem earlyConflict_notes (h : s.earlyConflict = .ok (answer, t)) : ∃ found, s.conflictsInSight = .ok found ∧
    answer = (Conflict.smallest found).map (·.1) ∧ t.log = scanEvents found ++ s.log := by
  obtain ⟨u, answers, hu, hanswers, hanswer, rfl⟩ := earlyConflict_inv h
  rw [show u.conflictOf = s.conflictOf from funext hu.alike.conflictOf] at hanswers
  refine ⟨answers.filterMap id, bind_eq_ok.mpr ⟨answers, hanswers, rfl⟩, hanswer, ?_⟩
  rw [← scanNotes_eq, log_of_record hu.record]

/-- A scan notes every conflict that it comes upon, and one improvement if a smaller conflict has taken the place of another one,
    however often. So its improvements are the times that this has happened exactly if there was at most one. -/
theorem Reached.notes_improvements (h : Reached settings Anywhere ds s) (hscan : s.settings.earlyScan = true)
    (hsize : 1 < s.queue.size) : ∃ found answer t, s.conflictsInSight = .ok found ∧ s.beginRepair = .ok (answer, t) ∧
      answer = (Conflict.smallest found).map (·.1) ∧ t.log = scanEvents found ++ s.log ∧
      t.tally.earlyImprovements = s.tally.earlyImprovements + min 1 (undercuts (found.map (·.size))) ∧
      (t.tally.earlyImprovements = s.tally.earlyImprovements + undercuts (found.map (·.size)) ↔
        undercuts (found.map (·.size)) ≤ 1) := by
  obtain ⟨answer, t, ht, -⟩ := beginRepair_ok h.sound
  have hbegin := ht
  unfold beginRepair at hbegin
  simp only [hscan, hsize, decide_true, Bool.and_self, if_true] at hbegin
  obtain ⟨found, hfound, hanswer, hlog⟩ := earlyConflict_notes hbegin
  have htally : t.tally.earlyImprovements = s.tally.earlyImprovements + min 1 (undercuts (found.map (·.size))) := by
    have hcount : ∀ s : Solver τ, s.tally.earlyImprovements = s.log.count .earlyImprovement := fun s =>
      Tally.counter_ofEvents s.log .earlyImprovement
    rw [hcount, hcount, hlog, List.count_append, count_scanEvents, Nat.add_comm]
  exact ⟨found, answer, t, hfound, ht, hanswer, hlog, htally, by omega⟩

/-- Sums of three variables, two and one that are at least zero, with the upper bounds `a`, `b` and `c`. -/
def limitedSums (a b c : Rat) : Except Fault (Solver Nat) := do
  let s ← (Solver.new .standard).addRow 3 [(0, 1), (1, 1), (2, 1)]
  let s ← s.addRow 4 [(0, 1), (1, 1)]
  let s ← s.addRow 5 [(0, 1)]
  [(.lower, 0, 0), (.lower, 1, 0), (.lower, 2, 0), (.upper, 3, a), (.upper, 4, b), (.upper, 5, c)].foldlM
    (fun s limit => do return (← s.assertBound limit.1 limit.2.1 (.ofRat limit.2.2) limit.2.1).2) s

theorem reached_limitedSums {a b c : Rat} {s : Solver Nat} (h : limitedSums a b c = .ok s) :
    Reached .standard Anywhere [(5, [(0, 1)]), (4, [(0, 1), (1, 1)]), (3, [(0, 1), (1, 1), (2, 1)])] s := by
  obtain ⟨s₁, h₁, h⟩ := bind_eq_ok.mp h
  obtain ⟨s₂, h₂, h⟩ := bind_eq_ok.mp h
  obtain ⟨s₃, h₃, h⟩ := bind_eq_ok.mp h
  refine foldlM_invariant (P := Reached .standard Anywhere _) (fun hs hu => ?_)
    (.call (.call (.call .new (.addRow _ _ h₁)) (.addRow _ _ h₂)) (.addRow _ _ h₃)) h
  obtain ⟨⟨answer, u⟩, ht, hu⟩ := bind_eq_ok.mp hu
  cases hu
  exact .call hs (.assertBound _ _ _ _ ht)

/-- The conflict of the row that is scanned first has three tokens, that of the second four and that of the last two, so the scan
    goes over to a smaller one once, and notes that. -/
theorem Reached.notes_improvements_of_sums : ∃ (s t : Solver Nat) (found : List (Conflict Nat)) (answer : Option (Conflict Nat)),
    Reached .standard Anywhere [(5, [(0, 1)]), (4, [(0, 1), (1, 1)]), (3, [(0, 1), (1, 1), (2, 1)])] s ∧
      s.settings.earlyScan = true ∧ 1 < s.queue.size ∧ s.conflictsInSight = .ok found ∧
      found.map (·.size) = [3, 4, 2] ∧ s.beginRepair = .ok (answer, t) ∧ answer = some ⟨[5, 0]⟩ ∧
      t.log = .earlyImprovement :: .earlyConflict :: .earlyConflict :: .earlyConflict :: s.log ∧
      t.tally.earlyImprovements = s.tally.earlyImprovements + 1 := by
  have hrun : (do
      let s ← limitedSums (-3) (-5) (-1)
      return (s.settings.earlyScan, s.queue.size, ← s.conflictsInSight)) =
      (.ok (true, 3, [⟨[4, 0, 1]⟩, ⟨[3, 0, 1, 2]⟩, ⟨[5, 0]⟩]) : Except Fault (Bool × Nat × List (Conflict Nat))) := by
    decide +kernel
  obtain ⟨s, hsums, hrun⟩ := bind_eq_ok.mp hrun
  obtain ⟨found, hfound, hrun⟩ := bind_eq_ok.mp hrun
  have hvalues := Except.ok.inj hrun
  simp only [Prod.mk.injEq] at hvalues
  obtain ⟨hscan, hsize, rfl⟩ := hvalues
  have hs := reached_limitedSums hsums
  have hsize' : 1 < s.queue.size := hsize ▸ (by decide)
  obtain ⟨found, answer, t, hfound', ht, hanswer, hlog, htally, -⟩ := hs.notes_improvements hscan hsize'
  cases hfound.symm.trans hfound'
  exact ⟨s, t, _, answer, hs, hscan, hsize', hfound, rfl, ht, hanswer, hlog, htally⟩

/-- Four tokens, then three, then two: the scan goes over to a smaller conflict twice, and one improvement is counted. -/
theorem Reached.misses_improvement : ∃ (s t : Solver Nat) (found : List (Conflict Nat)) (answer : Option (Conflict Nat)),
    Reached .standard Anywhere [(5, [(0, 1)]), (4, [(0, 1), (1, 1)]), (3, [(0, 1), (1, 1), (2, 1)])] s ∧
      s.settings.earlyScan = true ∧ 1 < s.queue.size ∧ s.conflictsInSight = .ok found ∧
      undercuts (found.map (·.size)) = 2 ∧ s.beginRepair = .ok (answer, t) ∧
      t.tally.earlyImprovements = s.tally.earlyImprovements + 1 := by
  have hrun : (do
      let s ← limitedSums (-5) (-3) (-1)
      let found ← s.conflictsInSight
      let (_, t) ← s.beginRepair
      return (s.settings.earlyScan, s.queue.size, found.map (·.size), s.tally.earlyImprovements, t.tally.earlyImprovements)) =
      (.ok (true, 3, [4, 3, 2], 0, 1) : Except Fault (Bool × Nat × List Nat × Nat × Nat)) := by decide +kernel
  obtain ⟨s, hsums, hrun⟩ := bind_eq_ok.mp hrun
  obtain ⟨found, hfound, hrun⟩ := bind_eq_ok.mp hrun
  obtain ⟨⟨answer, t⟩, ht, hrun⟩ := bind_eq_ok.mp hrun
  have hvalues := Except.ok.inj hrun
  simp only [Prod.mk.injEq] at hvalues
  obtain ⟨hscan, hsize, hsizes, hbefore, hafter⟩ := hvalues
  refine ⟨s, t, found, answer, reached_limitedSums hsums, hscan, hsize ▸ (by decide), hfound, ?_, ht, by rw [hbefore, hafter]⟩
  rw [hsizes]
  decide

end Solver

end LinReal
