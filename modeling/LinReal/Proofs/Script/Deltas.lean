import LinReal.Proofs.Script.Calls
import LinReal.Proofs.Script.Running
import Mathlib.Order.Bounds.Basic

/-! How far an infinitesimal may grow. A value that respects a limit goes on respecting it up to their crossing and no further,
    whichever way the two slopes go; so the least of the crossings is the greatest infinitesimal that keeps all inequalities.
    The model of a check is made of the solver's values at that check, since later commands only add results. -/

namespace LinReal

open Command

namespace Literal

variable {l : Literal} {w : Var → DeltaRat} {a b : DeltaRat} {d e : Rat}

/-- The inequality between the value and the limit of the bound, when `d` is put for the infinitesimal in both: a strict bound
    keeps off its constant by `d`. An equality asks nothing. -/
def KeptAt (l : Literal) (v : DeltaRat) (d : Rat) : Prop :=
  match l.relation with
  | .ge => l.constant ≤ v.substitute d
  | .gt => l.constant + d ≤ v.substitute d
  | .le => v.substitute d ≤ l.constant
  | .lt => v.substitute d ≤ l.constant - d
  | .eq => True

/-- Past their crossing two numbers have changed their order. -/
theorem le_crossing (h : b.substitute d ≤ a.substitute d) (hcrossing : crossing a b = some e) : d ≤ e := by
  simp only [crossing, Option.ite_none_right_eq_some, Option.some.injEq] at hcrossing
  obtain ⟨⟨-, hclosing⟩, rfl⟩ := hcrossing
  simp only [DeltaRat.substitute] at h
  rw [le_div_iff₀ hclosing]
  linarith

theorem substitute_le_iff (hab : b ≤ a) (hd : 0 < d) :
    b.substitute d ≤ a.substitute d ↔ ∀ e, crossing a b = some e → d ≤ e :=
  ⟨fun h _ => le_crossing h, substitute_le hab hd⟩

theorem Respected.keptAt_iff (h : l.Respected w) (hd : 0 < d) :
    l.KeptAt (w l.var) d ↔ ∀ e, l.deltaLimit (w l.var) = some e → d ≤ e := by
  obtain ⟨x, relation, c⟩ := l
  cases relation with
  | ge =>
    have hlimit := substitute_le_iff (h.limit_le rfl) hd
    rwa [limit, DeltaRat.substitute_ofRat] at hlimit
  | gt =>
    have hlimit := substitute_le_iff (h.limit_le rfl) hd
    rwa [limit, DeltaRat.substitute_strictlyAbove] at hlimit
  | le =>
    have hlimit := substitute_le_iff (h.le_limit rfl) hd
    rwa [limit, DeltaRat.substitute_ofRat] at hlimit
  | lt =>
    have hlimit := substitute_le_iff (h.le_limit rfl) hd
    rwa [limit, DeltaRat.substitute_strictlyBelow] at hlimit
  | eq => exact iff_of_true trivial fun e he => by cases he

end Literal

namespace Runner

variable {s : Script} {pre post cs : List Command} {c : Command} {r r' u : Runner}

/-! ### Results -/

theorem results_decide (h : r.decide = .ok u) : u.results = r.results := by
  unfold Runner.decide at h
  split at h
  · cases h
    rfl
  · obtain ⟨⟨answer, t⟩, -, h⟩ := bind_eq_ok.mp h
    cases answer <;> cases h <;> rfl

theorem results_retract {is : List Nat} (h : r.retract is = .ok u) : u.results = r.results := by
  unfold Runner.retract at h
  split at h
  · cases h
    rfl
  · split at h
    · obtain ⟨t, -, h⟩ := bind_eq_ok.mp h
      cases h
      rfl
    · cases h
      rfl

theorem results_record (r : Runner) (i : Nat) : (r.record i).results = r.results := by
  unfold record
  split <;> rfl

/-- A command adds a result at most. -/
theorem step_results (h : r.step s c = .ok r') : r.results <:+ r'.results := by
  cases c with
  | row x d =>
    obtain ⟨t, -, h⟩ := bind_eq_ok.mp h
    cases h
    exact List.suffix_rfl
  | bound i =>
    simp only [step] at h
    rw [← results_record r i]
    split at h
    · cases h
      exact List.suffix_rfl
    · obtain ⟨l, -, h⟩ := bind_eq_ok.mp h
      obtain ⟨⟨clash, t⟩, -, h⟩ := bind_eq_ok.mp h
      cases h
      exact List.suffix_rfl
  | push =>
    cases h
    exact List.suffix_rfl
  | pop =>
    obtain ⟨u, hu, h⟩ := bind_eq_ok.mp h
    obtain ⟨t, -, h⟩ := bind_eq_ok.mp h
    cases h
    exact (results_retract hu).symm ▸ List.suffix_rfl
  | check =>
    obtain ⟨u, verdict, hu, -, hresults, -⟩ := step_check_inv h
    rw [hresults, results_decide hu]
    exact List.suffix_cons _ _

theorem steps_results (h : cs.foldlM (step s) r = .ok r') : r.results <:+ r'.results :=
  foldlM_invariant (P := fun u => r.results <:+ u.results) (fun hu hstep => hu.trans (step_results hstep)) List.suffix_rfl h

/-- The result of a check is made of a state that follows the commands before it. -/
theorem result_of_cut (hs : s.WellFormed) {settings : Settings} {results : List CheckResult} {tally : Tally}
    (hrun : s.run settings = .ok (results, tally)) (hcut : s.commands.toList = pre ++ .check :: post) :
    ∃ (u : Runner) (verdict : Verdict), u.Follows s pre ∧ (u.pending = none → ∀ x, u.solver.Within x) ∧
      results[pre.count .check]? = some ⟨verdict, u.active, u.rows⟩ ∧
      ∀ m, verdict = .sat m → u.pending = none ∧ u.model s = .ok m := by
  obtain ⟨r, hr, hfollows, hanswered⟩ := follows_of_cut hs settings hcut
  obtain ⟨u, hu, hufollows, huresults, hwithin⟩ := hfollows.decide
  obtain ⟨last, hlast, hrun⟩ := bind_eq_ok.mp hrun
  cases hrun
  rw [hcut, List.foldlM_append, hr, ok_bind, List.foldlM_cons] at hlast
  obtain ⟨r', hr', hlast⟩ := bind_eq_ok.mp hlast
  obtain ⟨u', verdict, hu', -, hcheck, hmodel⟩ := step_check_inv hr'
  cases hu.symm.trans hu'
  obtain ⟨later, hlater⟩ := steps_results hlast
  rw [hcheck] at hlater
  refine ⟨u, verdict, hufollows, hwithin, ?_, hmodel⟩
  -- The results stand in reverse order, those of the later checks in front.
  have hindex : pre.count .check = u.results.reverse.length := by rw [huresults, hanswered.count]
  rw [← hlater, List.reverse_append, List.reverse_cons, hindex, List.append_assoc, List.getElem?_append_right le_rfl,
    Nat.sub_self]
  rfl

end Runner

/-! ### The greatest infinitesimal -/

/-- With `d` for the infinitesimal, the values keep the inequalities of the bounds with these ordinals. -/
def Script.Keeps (s : Script) (is : List Nat) (w : Var → DeltaRat) (d : Rat) : Prop :=
  ∀ i ∈ is, ∀ l, s.literals[i]? = some l → l.KeptAt (w l.var) d

/-- The model of a check after some commands: rows and bounds in force hold of it for every infinitesimal up to the one chosen,
    which is the greatest up to one that keeps all inequalities. -/
structure Model.Sharp (s : Script) (pre : List Command) (m : Model) : Prop where
  length : m.symbolic.length = s.variableCount
  values : m.values = m.symbolic.map (·.substitute m.delta)
  pos : 0 < m.delta
  le_one : m.delta ≤ 1
  solves : ∀ d, 0 < d → d ≤ m.delta →
    s.Solves (rowsOf pre) (Command.active pre) fun x => (m.symbolic[x]?.getD 0).substitute d
  greatest : IsGreatest {d | 0 < d ∧ d ≤ 1 ∧ s.Keeps (Command.active pre) (fun x => m.symbolic[x]?.getD 0) d} m.delta

namespace Runner

variable {s : Script} {pre post : List Command} {r : Runner} {m : Model} {d : Rat}

theorem Modelled.keeps_iff (h : Modelled s r m)
    (hdeclared : ∀ i ∈ r.active, ∃ l, s.literals[i]? = some l ∧ l.var < s.variableCount)
    (hrespected : ∀ i ∈ r.active, ∀ l, s.literals[i]? = some l → l.Respected r.solver.store.value) (hd : 0 < d) :
    d ≤ m.delta ↔ d ≤ 1 ∧ s.Keeps r.active (fun x => m.symbolic[x]?.getD 0) d := by
  refine h.le_delta_iff.trans (and_congr_right' (forall₂_congr fun i hi => forall₂_congr fun l hl => ?_))
  obtain ⟨l', hl', hlt⟩ := hdeclared i hi
  obtain rfl := Option.some.inj (hl.symm.trans hl')
  show _ ↔ l.KeptAt (m.symbolic[l.var]?.getD 0) d
  rw [h.getD_symbolic hlt]
  exact ((hrespected i hi l hl).keptAt_iff hd).symm

theorem Follows.sharp (h : r.Follows s pre) (hs : s.WellFormed) (hcut : s.commands.toList = pre ++ post) (hp : r.pending = none)
    (hwithin : ∀ x, r.solver.Within x) (hm : r.model s = .ok m) : m.Sharp s pre := by
  obtain ⟨m', hm', hmodelled, hsolves⟩ := h.model hs hcut hp hwithin
  cases hm.symm.trans hm'
  have hkeeps : ∀ {d}, 0 < d → (d ≤ m.delta ↔ d ≤ 1 ∧ s.Keeps r.active (fun x => m.symbolic[x]?.getD 0) d) :=
    hmodelled.keeps_iff (fun i hi => h.literal hs hcut hi) (h.respected hp hwithin)
  obtain ⟨hone, hkept⟩ := (hkeeps hmodelled.pos).mp le_rfl
  rw [h.active (hs.matched_left hcut)] at hsolves hkept
  refine ⟨by rw [hmodelled.symbolic, List.length_map, List.length_range], hmodelled.values, hmodelled.pos, hone, hsolves,
    ⟨hmodelled.pos, hone, hkept⟩, fun d ⟨hd, hle, hall⟩ => (hkeeps hd).mpr ⟨hle, ?_⟩⟩
  rwa [h.active (hs.matched_left hcut)]

end Runner

/-- Whatever the settings, the model of every check of a script that was read is sharp: rows and bounds hold of its symbolic
    values for every infinitesimal up to the one chosen, and no greater one up to one keeps all inequalities. -/
theorem Script.run_sharp {s : Script} {lines : List (Option String)} (h : Script.ofLines lines = .ok s) (settings : Settings) :
    ∃ results tally, s.run settings = .ok (results, tally) ∧ ∀ pre post, s.commands.toList = pre ++ .check :: post →
      ∃ r, results[pre.count .check]? = some r ∧ r.active = Command.active pre ∧ r.rows = (rowsOf pre).length ∧
        (∀ i ∈ r.active, ∃ l, s.literals[i]? = some l ∧ l.var < s.variableCount) ∧
        ∀ m, r.verdict = .sat m → m.Sharp s pre := by
  have hs := Script.wellFormed_of_ofLines h
  obtain ⟨last, hlast, -⟩ := Runner.run_ok hs rfl (Runner.follows_start s settings) s.answered_nil
  have hrun : s.run settings = .ok (last.results.reverse, last.solver.tally) := bind_eq_ok.mpr ⟨last, hlast, rfl⟩
  refine ⟨_, _, hrun, fun pre post hcut => ?_⟩
  obtain ⟨u, verdict, hfollows, hwithin, hget, hmodel⟩ := Runner.result_of_cut hs hrun hcut
  refine ⟨_, hget, hfollows.active (hs.matched_left hcut), hfollows.rows, fun i hi => hfollows.literal hs hcut hi, fun m hm => ?_⟩
  obtain ⟨hp, hm⟩ := hmodel m hm
  exact hfollows.sharp hs hcut hp (hwithin hp) hm

/-- The variables and their sum move away from their strict bounds at different rates; then one variable is fixed. -/
theorem Script.run_sharp_of_sum : ∃ s results tally m m',
    Script.ofLines [some "v x y sum", some "r sum x 1 y 1", some "b x > 0", some "b y > 0", some "b sum < 1/100", some "check",
      some "b x = 1/400", some "check"] = .ok s ∧
      s.run .standard = .ok (results, tally) ∧ results.map (·.verdict) = [.sat m, .sat m'] ∧
      m.symbolic = [⟨0, 1⟩, ⟨0, 1⟩, ⟨0, 2⟩] ∧ m.delta = 1 / 300 ∧
      m.Sharp s [.row 2 [(0, 1), (1, 1)], .bound 0, .bound 1, .bound 2] ∧
      m'.symbolic = [⟨1 / 400, 0⟩, ⟨0, 1⟩, ⟨1 / 400, 1⟩] ∧ m'.delta = 1 / 400 ∧
      m'.Sharp s [.row 2 [(0, 1), (1, 1)], .bound 0, .bound 1, .bound 2, .check, .bound 3] := by
  obtain ⟨s, hs⟩ : ∃ s : Script, s = ⟨#["x", "y", "sum"], .ofList [("x", 0), ("y", 1), ("sum", 2)],
      #[⟨0, .gt, 0⟩, ⟨1, .gt, 0⟩, ⟨2, .lt, 1 / 100⟩, ⟨0, .eq, 1 / 400⟩],
      #[.row 2 [(0, 1), (1, 1)], .bound 0, .bound 1, .bound 2, .check, .bound 3, .check]⟩ := ⟨_, rfl⟩
  have hread : Script.ofLines [some "v x y sum", some "r sum x 1 y 1", some "b x > 0", some "b y > 0", some "b sum < 1/100",
      some "check", some "b x = 1/400", some "check"] = .ok s := by
    rw [hs]
    decide +kernel
  obtain ⟨m, hm⟩ : ∃ m : Model, m = ⟨1 / 300, [⟨0, 1⟩, ⟨0, 1⟩, ⟨0, 2⟩], [1 / 300, 1 / 300, 1 / 150]⟩ := ⟨_, rfl⟩
  obtain ⟨m', hm'⟩ : ∃ m : Model, m = ⟨1 / 400, [⟨1 / 400, 0⟩, ⟨0, 1⟩, ⟨1 / 400, 1⟩], [1 / 400, 1 / 400, 1 / 200]⟩ := ⟨_, rfl⟩
  have hverdicts : (s.run .standard).toOption.map (fun p => p.1.map (·.verdict)) = some [.sat m, .sat m'] := by
    rw [hs, hm, hm']
    decide +kernel
  obtain ⟨results, tally, hrun, hsharp⟩ := Script.run_sharp hread .standard
  rw [hrun] at hverdicts
  have hverdicts : results.map (·.verdict) = [.sat m, .sat m'] := Option.some.inj hverdicts
  have hat : ∀ {k : Nat} {r : CheckResult} {v : Verdict}, results[k]? = some r → [Verdict.sat m, .sat m'][k]? = some v →
      r.verdict = v := by
    intro k r v hr hv
    rw [← hverdicts, List.getElem?_map, hr] at hv
    exact Option.some.inj hv
  obtain ⟨r, hr, -, -, -, hfirst⟩ := hsharp [.row 2 [(0, 1), (1, 1)], .bound 0, .bound 1, .bound 2] [.bound 3, .check]
    (by rw [hs]; rfl)
  obtain ⟨r', hr', -, -, -, hsecond⟩ := hsharp [.row 2 [(0, 1), (1, 1)], .bound 0, .bound 1, .bound 2, .check, .bound 3] []
    (by rw [hs]; rfl)
  exact ⟨s, results, tally, m, m', hread, hrun, hverdicts, by rw [hm], by rw [hm], hfirst m (hat hr rfl), by rw [hm'],
    by rw [hm'], hsecond m' (hat hr' rfl)⟩

end LinReal
