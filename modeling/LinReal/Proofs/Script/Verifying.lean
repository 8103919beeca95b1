import LinReal.Proofs.Script.Calls
import LinReal.Proofs.Script.Running

/-! Verifying results. The check of a model is arithmetic and finds every row and bound that fails. The check of a conflict runs a
    fresh solver on its bounds alone, which clashes exactly if they contradict the rows. So the verification of a result always
    answers, and it accepts the result if the result says what its rows and bounds allow. -/

namespace LinReal

open Command

/-- What a result claims of the script, whether or not it is the answer of a check: its values satisfy the rows and bounds that it
    names, or the bounds of its conflict are some of these and contradict the rows. -/
def CheckResult.Justified (s : Script) (r : CheckResult) : Prop :=
  match r.verdict with
  | .sat m => s.Solves (s.rows.take r.rows) r.active fun x => m.values[x]?.getD 0
  | .unsat c => c.tokens ≠ [] ∧ (∀ t ∈ c.tokens, t ∈ r.active) ∧ ¬∃ v, s.Solves (s.rows.take r.rows) c.tokens v

namespace Script

variable {s : Script} {values : List Rat} {x : Var} {d : LinearForm} {is done : List Nat} {i n : Nat} {l : Literal}
  {ds : List (Var × LinearForm)} {solver : Solver Nat}

/-! ### Models -/

theorem valueOf_ok (hx : x < values.length) : valueOf values x = .ok (values[x]?.getD 0) := by
  rw [valueOf, List.getElem?_eq_getElem hx]
  rfl

theorem foldlM_valueOf (hd : ∀ y ∈ d.vars, y < values.length) (sum : Rat) :
    d.foldlM (fun sum e => return sum + e.2 * (← valueOf values e.1)) sum =
      (.ok (sum + d.eval fun y => values[y]?.getD 0) : Except Fault Rat) := by
  induction d generalizing sum with
  | nil =>
    rw [LinearForm.eval_nil, add_zero]
    rfl
  | cons e d ih =>
    rw [List.foldlM_cons, valueOf_ok (hd e.1 List.mem_cons_self), ok_bind]
    refine (ih (fun y hy => hd y (List.mem_cons_of_mem _ hy)) _).trans ?_
    rw [LinearForm.eval_cons, add_assoc]

theorem rowHolds_ok (hx : x < values.length) (hd : ∀ y ∈ d.vars, y < values.length) :
    rowHolds values x d = .ok (decide (d.eval (fun y => values[y]?.getD 0) = values[x]?.getD 0)) := by
  have hsum := foldlM_valueOf hd 0
  rw [zero_add] at hsum
  rw [rowHolds]
  simp only [hsum, ok_bind, valueOf_ok hx]
  rfl

theorem boundHolds_ok (hl : s.literals[i]? = some l) (hx : l.var < values.length) :
    s.boundHolds values i = .ok (l.relation.holds (values[l.var]?.getD 0) l.constant) := by
  rw [boundHolds]
  simp only [literal, hl, ok_bind, valueOf_ok hx]
  rfl

theorem verifyModel_ok (hs : s.WellFormed) (hvalues : values.length = s.variableCount) (n : Nat)
    (hactive : ∀ i ∈ is, i < s.literals.size) :
    ∃ answer, s.verifyModel values n is = .ok answer ∧
      (answer = true ↔ s.Solves (s.rows.take n) is fun x => values[x]?.getD 0) := by
  obtain ⟨v, hv⟩ : ∃ v : Var → Rat, v = fun x => values[x]?.getD 0 := ⟨_, rfl⟩
  have hrows : (s.rows.take n).allM (fun p => rowHolds values p.1 p.2) =
      .ok ((s.rows.take n).all fun p => decide (p.2.eval v = v p.1)) := by
    refine allM_eq_ok fun p hp => ?_
    obtain ⟨hlt, hvars⟩ := hs.declared p (List.mem_of_mem_take hp)
    rw [hv]
    exact rowHolds_ok (hvalues ▸ hlt) fun y hy => hvalues ▸ hvars y hy
  have hbounds : is.allM (s.boundHolds values) =
      .ok (is.all fun i => (s.literals[i]?).all fun l => l.relation.holds (v l.var) l.constant) := by
    refine allM_eq_ok fun i hi => ?_
    obtain ⟨l, hl, hlt⟩ := hs.exists_literal (hactive i hi)
    rw [hl, hv]
    exact boundHolds_ok hl (hvalues ▸ hlt)
  refine ⟨_, by rw [verifyModel]; simp only [hrows, hbounds, ok_bind]; rfl, ?_⟩
  rw [← hv, Bool.and_eq_true, List.all_eq_true, List.all_eq_true]
  refine and_congr (forall₂_congr fun p _ => ?_) (forall₂_congr fun i _ => ?_)
  · rw [decide_eq_true_iff, eq_comm]
  · cases s.literals[i]? <;> simp [Literal.holds]

/-! ### Conflicts -/

theorem solverWithRows_ok (hs : s.WellFormed) (n : Nat) :
    ∃ t, s.solverWithRows n = .ok t ∧ t.Sound (s.rows.take n).reverse ∧ t.Settled ∧ s.Fits t.store.bounds [] := by
  have hstart := Runner.follows_start s .standard
  have htracked := hstart.tracked rfl
  rw [Store.levels_eq_cons] at htracked
  have hunused : ∀ p ∈ s.rows.take n, ¬Mentions [] p.1 := by
    rintro p - ⟨d, hd, -⟩
    cases hd
  obtain ⟨t, ht, hsound, hsettled, hcarries⟩ := Solver.addRows_ok hstart.sound hstart.settled hunused
    (fun p hp => hs.irreflexive p (List.mem_of_mem_take hp)) (hs.fresh.sublist (List.take_sublist n s.rows))
  have hrows : (s.rows.take n).reverse ++ (rowsOf []).reverse = (s.rows.take n).reverse := List.append_nil _
  exact ⟨t, ht, hrows ▸ hsound, hsettled, hcarries.bounds ▸ htracked.fits⟩

/-- Bounds asserted one after the other clash, or leave something to a repair that fails, exactly if they contradict the
    definitions together with those asserted before. -/
theorem clashes_ok (h : solver.Sound ds) (hset : solver.Settled) (hfits : s.Fits solver.store.bounds done)
    (his : ∀ i ∈ is, i < s.literals.size) :
    ∃ answer, s.clashes solver is = .ok answer ∧ (answer = true ↔ ¬∃ v, s.Solves ds (is ++ done) v) := by
  -- `is` is what is still to be asserted; the solver fits what has been, so that no values are lost on the way.
  induction is generalizing solver done with
  | nil =>
    obtain ⟨answer, t, ht, hsound, hkeeps, hwithin, hconflict⟩ := Solver.repair_ok h hset
    have hfits' : s.Fits t.store.bounds done := hkeeps.carries.bounds ▸ hfits
    refine ⟨answer.isSome, by rw [clashes, ht]; rfl, ?_⟩
    cases answer with
    | none =>
      have hsolves := hfits'.exists_solves (hwithin rfl) (hsound.coherent.denotes.delta.mp hsound.coherent.solves)
      simpa using hsolves
    | some c =>
      obtain ⟨hin, hno⟩ := hfits'.contradiction (hconflict c rfl) fun _ _ => trivial
      refine iff_of_true rfl ?_
      rintro ⟨v, hv⟩
      exact hno ⟨v, hv.mono fun i hi => (hin i hi).resolve_left (by simp)⟩
  | cons i is ih =>
    obtain ⟨hi, his⟩ := List.forall_mem_cons.mp his
    obtain ⟨l, hl⟩ : ∃ l, s.literals[i]? = some l := ⟨_, Array.getElem?_eq_getElem hi⟩
    have hmem : ∀ j, j ∈ is ++ i :: done ↔ j ∈ i :: is ++ done := fun j => List.perm_middle.mem_iff
    obtain ⟨answer, t, ht, hasserted⟩ := Literal.assertIn_ok h l i
    cases answer with
    | none =>
      obtain ⟨answer, hanswer, hiff⟩ := ih hasserted.sound (hasserted.settled hset)
        (hfits.impose hl (hasserted.imposed rfl)) his
      refine ⟨answer, ?_, hiff.trans (not_congr (exists_congr fun v => ?_))⟩
      · rw [clashes]
        simp only [literal, hl, ok_bind, ht, hanswer]
      · exact and_congr_right fun _ => holds_iff_of_mem hmem
    | some c =>
      obtain ⟨hbounds, hc⟩ := hasserted.refused c rfl
      rw [hbounds] at hc
      have hci : i ∈ c.tokens := hc.includes i List.mem_cons_self
      obtain ⟨hin, hno⟩ := hfits.contradiction hc fun v hv => Literal.holds_iff.mp (hv i hci l hl)
      refine ⟨true, ?_, iff_of_true rfl ?_⟩
      · rw [clashes]
        simp only [literal, hl, ok_bind, ht]
        rfl
      · rintro ⟨v, hv⟩
        refine hno ⟨v, hv.mono fun j hj => (hmem j).mp (List.mem_append_right _ ?_)⟩
        rcases hin j hj with hj | hj
        · exact List.mem_singleton.mp hj ▸ List.mem_cons_self
        · exact List.mem_cons_of_mem i hj

theorem verifyConflict_ok (hs : s.WellFormed) (c : Conflict Nat) (n : Nat) (hactive : ∀ i ∈ is, i < s.literals.size) :
    ∃ answer, s.verifyConflict c n is = .ok answer ∧ (answer = true ↔
      c.tokens ≠ [] ∧ (∀ t ∈ c.tokens, t ∈ is) ∧ ¬∃ v, s.Solves (s.rows.take n) c.tokens v) := by
  have hguard : (c.isEmpty || !c.tokens.all is.contains) = true ↔ ¬(c.tokens ≠ [] ∧ ∀ t ∈ c.tokens, t ∈ is) := by
    simp [Conflict.isEmpty, imp_iff_not_or]
  by_cases hc : c.tokens ≠ [] ∧ ∀ t ∈ c.tokens, t ∈ is
  · obtain ⟨sorted, hsorted⟩ : ∃ sorted, sorted = c.tokens.mergeSort (· ≤ ·) := ⟨_, rfl⟩
    have hmem : ∀ i, i ∈ sorted ↔ i ∈ c.tokens := fun i => hsorted ▸ (List.mergeSort_perm _ _).mem_iff
    obtain ⟨t, ht, hsound, hsettled, hfits⟩ := solverWithRows_ok hs n
    obtain ⟨answer, hanswer, hiff⟩ := clashes_ok hsound hsettled hfits fun i hi => hactive i (hc.2 i ((hmem i).mp hi))
    refine ⟨answer, ?_, hiff.trans ?_⟩
    · rw [verifyConflict, if_neg (hguard.not.mpr (not_not.mpr hc)), ← hsorted]
      simp only [ht, ok_bind, hanswer]
    · rw [← and_assoc, and_iff_right hc, List.append_nil]
      exact not_congr (exists_congr fun v => and_congr satisfies_reverse (holds_iff_of_mem hmem))
  · refine ⟨false, ?_, iff_of_false Bool.false_ne_true fun ⟨hne, hin, _⟩ => hc ⟨hne, hin⟩⟩
    rw [verifyConflict, if_pos (hguard.mpr hc)]

/-! ### Results -/

/-- The verification of a result answers whether it is justified, if it names bounds of the script and a model has a value for
    every variable. -/
theorem verify_ok (hs : s.WellFormed) {r : CheckResult} (hactive : ∀ i ∈ r.active, i < s.literals.size)
    (hvalues : ∀ m, r.verdict = .sat m → m.values.length = s.variableCount) :
    ∃ answer, s.verify r = .ok answer ∧ (answer = true ↔ r.Justified s) := by
  obtain ⟨verdict, active, n⟩ := r
  cases verdict with
  | sat m => exact verifyModel_ok hs (hvalues m rfl) n hactive
  | unsat c => exact verifyConflict_ok hs c n hactive

end Script

theorem CheckResult.Exact.justified {pre : List Command} {r : CheckResult} (h : r.Exact s pre) : r.Justified s := by
  obtain ⟨verdict, active, n⟩ := r
  cases verdict with
  | sat m => exact (h.model m rfl).2
  | unsat c =>
    obtain ⟨hne, -, hin, hno⟩ := h.conflict c rfl
    exact ⟨hne, hin, hno⟩

theorem CheckResult.Exact.verify_eq {pre : List Command} {r : CheckResult} (h : r.Exact s pre) (hs : s.WellFormed) :
    s.verify r = .ok true := by
  obtain ⟨answer, hanswer, hiff⟩ := Script.verify_ok hs h.present fun m hm => (h.model m hm).1
  rw [hanswer, hiff.mpr h.justified]

/-- At every row of a script that was read, the variable that the row defines is nonbasic and in no row of the tableau. So the
    script runs to its end under any settings, and the verification of each result accepts it, both without a fault. Calls have
    led to every solver on the way, so what is looked up without a check is there as well. -/
theorem Script.run_faultless {lines : List (Option String)} (h : Script.ofLines lines = .ok s) (settings : Settings) :
    (∀ pre x d post, s.commands.toList = pre ++ .row x d :: post →
      ∃ r, pre.foldlM (Runner.step s) (.start s settings) = .ok r ∧ r.solver.isBasic x = false ∧
        ∀ b f, r.solver.tableau.row? b = some f → x ∉ f.vars) ∧
    (∃ results tally, s.run settings = .ok (results, tally) ∧ ∀ result ∈ results, s.verify result = .ok true) ∧
    (∀ pre post, s.commands.toList = pre ++ post →
      ∃ r, pre.foldlM (Runner.step s) (.start s settings) = .ok r ∧
        Solver.Reached settings Solver.Anywhere (rowsOf pre).reverse r.solver ∧ r.solver.Provided (rowsOf pre).reverse) ∧
    ∀ n, (∃ t, s.solverWithRows n = .ok t) ∧ ∀ t, s.Probes n t →
      Solver.Reached .standard Solver.Anywhere (s.rows.take n).reverse t ∧ t.Provided (s.rows.take n).reverse := by
  have hs := wellFormed_of_ofLines h
  refine ⟨fun pre x d post hcut => ?_, ?_, fun pre post hcut => ?_, fun n => ⟨?_, fun t ht => ?_⟩⟩
  · obtain ⟨r, hr, hfollows, -⟩ := Runner.follows_of_cut hs settings hcut
    obtain ⟨hnb, hocc⟩ := hfollows.unused (hs.row hcut).1
    exact ⟨r, hr, hnb, fun b f hrow => hfollows.sound.coherent.shaped.wellFormed.not_mem_vars hocc hrow⟩
  · obtain ⟨r, hr, -, hanswered⟩ := Runner.follows_of_cut hs settings (List.append_nil _).symm
    refine ⟨_, _, bind_eq_ok.mpr ⟨r, hr, rfl⟩, fun result hresult => ?_⟩
    obtain ⟨pre, post, -, hexact⟩ := hanswered.exact_of_mem hresult
    exact hexact.verify_eq hs
  · obtain ⟨r, hr, -, -⟩ := Runner.follows_of_cut hs settings hcut
    exact ⟨r, hr, Runner.reached_run hr, (Runner.reached_run hr).provided⟩
  · obtain ⟨t, ht, -⟩ := solverWithRows_ok hs n
    exact ⟨t, ht⟩
  · exact ⟨ht.reached, ht.reached.provided⟩

/-- The first check makes the sum nonbasic, which the second row mentions. Its bound contradicts the others then. -/
theorem Script.run_faultless_of_pivot : ∃ s r results tally,
    Script.ofLines [some "v x y sum rest", some "r sum x 1 y 1", some "b sum >= 2", some "b x <= 0", some "check",
      some "r rest sum 1 x -1", some "b rest < 2", some "check"] = .ok s ∧
      (s.commands.toList.take 4).foldlM (Runner.step s) (.start s .standard) = .ok r ∧
      r.solver.tableau.basis.members = [1] ∧ (∀ b f, r.solver.tableau.row? b = some f → 3 ∉ f.vars) ∧
      r.solver.Provided [(2, [(0, 1), (1, 1)])] ∧
      s.run .standard = .ok (results, tally) ∧ results.map (·.isSat) = [true, false] ∧
      ∀ result ∈ results, s.verify result = .ok true := by
  obtain ⟨s, hs⟩ : ∃ s : Script, s = ⟨#["x", "y", "sum", "rest"],
      .ofList [("x", 0), ("y", 1), ("sum", 2), ("rest", 3)], #[⟨2, .ge, 2⟩, ⟨0, .le, 0⟩, ⟨3, .lt, 2⟩],
      #[.row 2 [(0, 1), (1, 1)], .bound 0, .bound 1, .check, .row 3 [(2, 1), (0, -1)], .bound 2, .check]⟩ := ⟨_, rfl⟩
  have hread : Script.ofLines [some "v x y sum rest", some "r sum x 1 y 1", some "b sum >= 2", some "b x <= 0",
      some "check", some "r rest sum 1 x -1", some "b rest < 2", some "check"] = .ok s := by
    rw [hs]
    decide +kernel
  have hbasis : ((s.commands.toList.take 4).foldlM (Runner.step s) (.start s .standard)).toOption.map
      (·.solver.tableau.basis.members) = some [1] := by
    rw [hs]
    decide +kernel
  have hverdicts : (s.run .standard).toOption.map (fun p => p.1.map (·.isSat)) = some [true, false] := by
    rw [hs]
    decide +kernel
  obtain ⟨hrows, ⟨results, tally, hrun, hverified⟩, hcuts, -⟩ := Script.run_faultless hread .standard
  obtain ⟨r, hr, -, hunused⟩ := hrows (s.commands.toList.take 4) 3 [(2, 1), (0, -1)] [.bound 2, .check] (by rw [hs]; rfl)
  obtain ⟨r', hr', -, hprovided⟩ := hcuts (s.commands.toList.take 4) (s.commands.toList.drop 4) (List.take_append_drop _ _).symm
  cases hr.symm.trans hr'
  rw [show (rowsOf (s.commands.toList.take 4)).reverse = [(2, [(0, 1), (1, 1)])] by rw [hs]; rfl] at hprovided
  rw [hr] at hbasis
  rw [hrun] at hverdicts
  exact ⟨s, r, results, tally, hread, hr, Option.some.inj hbasis, hunused, hprovided, hrun, Option.some.inj hverdicts, hverified⟩

/-- Verification decides what a result claims, whatever check it comes from, if any. A model is accepted exactly if its values
    satisfy the first rows and all bounds that the result names; a conflict exactly if it is some of these bounds and no values
    satisfy them together with the first rows. -/
theorem Script.verify_exact {lines : List (Option String)} (h : Script.ofLines lines = .ok s) {r : CheckResult}
    (hactive : ∀ i ∈ r.active, i < s.literals.size)
    (hvalues : ∀ m, r.verdict = .sat m → m.values.length = s.variableCount) :
    ∃ answer, s.verify r = .ok answer ∧
      (∀ m, r.verdict = .sat m →
        (answer = true ↔ s.Solves (s.rows.take r.rows) r.active fun x => m.values[x]?.getD 0)) ∧
      ∀ c, r.verdict = .unsat c → (answer = true ↔
        c.tokens ≠ [] ∧ (∀ t ∈ c.tokens, t ∈ r.active) ∧ ¬∃ v, s.Solves (s.rows.take r.rows) c.tokens v) := by
  obtain ⟨answer, hanswer, hiff⟩ := Script.verify_ok (wellFormed_of_ofLines h) hactive hvalues
  refine ⟨answer, hanswer, fun m hm => ?_, fun c hc => ?_⟩
  · rwa [CheckResult.Justified, hm] at hiff
  · rwa [CheckResult.Justified, hc] at hiff

/-- Bounds on a sum and its terms, of which one is strict and one an equality, as a conflict that no check has answered. With the
    row of the sum they contradict each other, without it they do not. -/
theorem Script.verify_exact_of_sum : ∃ s,
    Script.ofLines [some "v x y sum", some "r sum x 1 y 1", some "b sum > 2", some "b x <= 1", some "b y = 1"] = .ok s ∧
      s.verify ⟨.unsat ⟨[2, 0, 1]⟩, [0, 1, 2], 1⟩ = .ok true ∧ (¬∃ v, s.Solves (s.rows.take 1) [2, 0, 1] v) ∧
      s.verify ⟨.unsat ⟨[2, 0, 1]⟩, [0, 1, 2], 0⟩ = .ok false ∧ ∃ v, s.Solves (s.rows.take 0) [2, 0, 1] v := by
  obtain ⟨s, hs⟩ : ∃ s : Script, s = ⟨#["x", "y", "sum"], .ofList [("x", 0), ("y", 1), ("sum", 2)],
      #[⟨2, .gt, 2⟩, ⟨0, .le, 1⟩, ⟨1, .eq, 1⟩],
      #[.row 2 [(0, 1), (1, 1)], .bound 0, .bound 1, .bound 2]⟩ := ⟨_, rfl⟩
  have hread : Script.ofLines [some "v x y sum", some "r sum x 1 y 1", some "b sum > 2", some "b x <= 1",
      some "b y = 1"] = .ok s := by
    rw [hs]
    decide +kernel
  have hsorted : ([2, 0, 1] : List Nat).mergeSort (· ≤ ·) = [0, 1, 2] := by
    simp [List.mergeSort, List.MergeSort.Internal.splitInTwo]
  have hverify : ∀ n, s.verify ⟨.unsat ⟨[2, 0, 1]⟩, [0, 1, 2], n⟩ =
      s.solverWithRows n >>= fun solver => s.clashes solver [0, 1, 2] := by
    intro n
    simp only [Script.verify, Script.verifyConflict, hsorted]
    rfl
  have hrejected : s.verify ⟨.unsat ⟨[2, 0, 1]⟩, [0, 1, 2], 0⟩ = .ok false := by
    rw [hverify, hs]
    decide +kernel
  have haccepted : s.verify ⟨.unsat ⟨[2, 0, 1]⟩, [0, 1, 2], 1⟩ = .ok true := by
    rw [hverify, hs]
    decide +kernel
  have hactive : ∀ i ∈ [0, 1, 2], i < s.literals.size := by
    rw [hs]
    decide
  have hexact : ∀ n, ∃ answer, s.verify ⟨.unsat ⟨[2, 0, 1]⟩, [0, 1, 2], n⟩ = .ok answer ∧
      (answer = true ↔ ¬∃ v, s.Solves (s.rows.take n) [2, 0, 1] v) := by
    intro n
    obtain ⟨answer, hanswer, -, hunsat⟩ :=
      Script.verify_exact hread (r := ⟨.unsat ⟨[2, 0, 1]⟩, [0, 1, 2], n⟩) hactive fun _ hm => by cases hm
    exact ⟨answer, hanswer, (hunsat _ rfl).trans (by simp)⟩
  obtain ⟨a₁, h₁, hiff₁⟩ := hexact 1
  obtain ⟨a₀, h₀, hiff₀⟩ := hexact 0
  cases h₁.symm.trans haccepted
  cases h₀.symm.trans hrejected
  exact ⟨s, hread, haccepted, hiff₁.mp rfl, hrejected, not_not.mp fun hno => absurd (hiff₀.mpr hno) Bool.false_ne_true⟩

end LinReal
