import LinReal.Proofs.Solver.Lockstep
import LinReal.Proofs.Solver.Termination

/-! Resumed searches. A search that is interrupted and called again makes the pivots of one that is not. Beside the searches, cut
    wherever their budgets cut them, run passes without a budget: each piece keeps abreast of them, and between two pieces they
    wait, since an interruption and the call after it change nothing but the queue. -/

namespace LinReal.Solver

variable {τ β : Type} [DecidableEq τ] {s t u w : Solver τ} {ds : List (Var × LinearForm)} {settings : Settings} {budget : Budget β}
  {b b' : β} {o p : Outcome τ} {es fs : List Exchange} {k m n : Nat} {limits : Nat → Nat}

/-! ### Passes without a budget -/

/-- Passes without a budget lead from `s` to a state and make the pivots `es`. -/
inductive Advance (s : Solver τ) : List Exchange → Solver τ → Prop where
  | rest : Advance s [] s
  | pass {es : List Exchange} {t u : Solver τ} (h : Advance s es t) (hu : t.pass .unlimited () = .ok (none, (), u)) :
    Advance s (es ++ (t.passExchange? .unlimited ()).toList) u

theorem Advance.trans (h₁ : Advance s es t) (h₂ : Advance t fs u) : Advance s (es ++ fs) u := by
  induction h₂ with
  | rest => exact (List.append_nil es).symm ▸ h₁
  | pass _ hu ih => exact List.append_assoc es _ _ ▸ ih.pass hu

/-- What the passes come to from here on they come to in any case. -/
theorem Advance.runRounds (h : Advance s es t) : ∃ j, ∀ n,
    s.runRounds .unlimited (j + n) () = t.runRounds .unlimited n () ∧
      s.exchanges .unlimited (j + n) () = es ++ t.exchanges .unlimited n () := by
  induction h with
  | rest => exact ⟨0, fun n => by rw [Nat.zero_add]; exact ⟨rfl, rfl⟩⟩
  | @pass es t u _ hu ih =>
    obtain ⟨j, hj⟩ := ih
    refine ⟨j + 1, fun n => ?_⟩
    obtain ⟨hrun, hexchanges⟩ := hj (n + 1)
    rw [Nat.add_right_comm]
    refine ⟨hrun.trans ?_, hexchanges.trans ?_⟩
    · exact runRounds_of_goes hu
    · rw [exchanges_of_goes hu, List.append_assoc]

/-! ### Pieces -/

/-- Beside a part of a search that has made the pivots `es`, ended with `o` and left `u`, passes without a budget have made the
    same pivots from `t`; they have ended alike, or have come equally far if the part was interrupted. -/
structure Matched (ds : List (Var × LinearForm)) (t : Solver τ) (es : List Exchange) (o : Outcome τ) (u : Solver τ) : Prop where
  ends : o ≠ .interrupted →
    ∃ n w, t.runRounds .unlimited n () = .ok (o, (), w) ∧ t.exchanges .unlimited n () = es ∧ Idle u w
  goes : o = .interrupted → ∃ w, Advance t es w ∧ Abreast ds u w

theorem Matched.after (h : Matched ds w es o u) (hw : t.pass .unlimited () = .ok (none, (), w)) :
    Matched ds t ((t.passExchange? .unlimited ()).toList ++ es) o u where
  ends ho := by
    obtain ⟨n, r, hr, hes, hi⟩ := h.ends ho
    exact ⟨n + 1, r, (runRounds_of_goes hw).trans hr, by rw [exchanges_of_goes hw, hes], hi⟩
  goes ho := by
    obtain ⟨r, hr, hab⟩ := h.goes ho
    exact ⟨r, (Advance.rest.pass hw).trans hr, hab⟩

/-- The passes of a search. -/
theorem Abreast.runRounds (h : Abreast ds s t) (hu : s.runRounds budget n b = .ok (o, b', u)) :
    Matched ds t (s.exchanges budget n b) o u := by
  induction n generalizing s t b with
  | zero => cases hu
  | succ n ih =>
    obtain ⟨⟨p, d, r⟩, hr, hu⟩ := bind_eq_ok.mp hu
    cases p with
    | none =>
      obtain ⟨w, hw, -, hexchange, hgoes⟩ := h.pass hr (by rintro ⟨⟩)
      rw [exchanges_of_goes hr, ← hexchange]
      exact (ih (hgoes rfl) hu).after hw
    | some p =>
      cases hu
      rw [exchanges_of_ends hr]
      refine ⟨fun ho => ?_, fun ho => ?_⟩
      · obtain ⟨w, hw, hi, hexchange, -⟩ := h.pass hr fun hp => ho (Option.some.inj hp)
        exact ⟨1, w, runRounds_of_ends hw, by rw [exchanges_of_ends hw, hexchange], hi⟩
      · subst ho
        obtain ⟨hab, hnone⟩ := h.stopped hr
        rw [hnone]
        exact ⟨t, .rest, hab⟩

/-- A search without the early scan. -/
theorem Abreast.search (h : Abreast ds s t) (hscan : s.settings.earlyScan = false)
    (hu : s.repairUpTo n budget b = .ok (o, b', u)) : Matched ds t (s.searchExchanges n budget b) o u := by
  cases repairUpTo_inv hu with
  | idle he =>
    rw [searchExchanges_of_idle he]
    refine ⟨fun _ => ?_, by rintro ⟨⟩⟩
    -- Nothing is queued here, so there is nothing to repair there.
    have hall : ∀ x, t.isBasic x = true → t.Within x := fun x hx =>
      h.idle.within.mpr ((endRepair_sat h.left he).1.sat rfl x ((h.idle.isBasic x).symm.trans hx))
    obtain ⟨r, w, hr, htaken, hw⟩ := pass_of_within .unlimited () h.right hall rfl
    have hi := (h.idle.trans (idle_openRound hr)).trans (idle_takeViolated htaken)
    refine ⟨1, w, runRounds_of_ends hw, ?_, ⟨hi.settings, hi.registered, hi.store, hi.tableau⟩⟩
    rw [exchanges_of_ends hw, passExchange?_of_allowed hr rfl, roundExchange?_of_satisfied htaken]
    rfl
  | early he hr ht =>
    rw [beginRepair_of_scan_off hscan] at hr
    cases hr
  | @passes r r' u o b' he hr hr' hu =>
    rw [searchExchanges_of_begin he hr]
    obtain ⟨_, r₁, hr₁, hpaused, hqueued, hsorted, -⟩ := beginRepair_ok h.left
    cases hr.symm.trans hr₁
    have hsound : r.Sound ds := ⟨h.left.coherent.idle hpaused.idle, hqueued, hsorted⟩
    obtain ⟨hends, hgoes⟩ := (h.paused hpaused hsound).runRounds hr'
    refine ⟨fun ho => ?_, fun ho => ?_⟩
    · obtain ⟨m, w, hw, hes, hi⟩ := hends ho
      exact ⟨m, w, hw, hes, (idle_leaveRepair hu).symm.trans hi⟩
    · obtain ⟨w, hw, hab⟩ := hgoes ho
      have hsearched := runRounds_searched hsound hr'
      obtain ⟨u', hu', -, -, -, hleft⟩ := leaveRepair_ok hsearched
      cases hu.symm.trans hu'
      exact ⟨w, hw, hab.paused (hleft ho) (leave_searched hsearched hu).2⟩

/-! ### Searches made one after the other -/

/-- The first `k` of the searches that may make `limits 0`, `limits 1`, … pivots, made one after the other, were interrupted;
    they have made the pivots `es`. -/
inductive Resumed (limits : Nat → Nat) (s : Solver τ) : Nat → List Exchange → Solver τ → Prop where
  | none : Resumed limits s 0 [] s
  | next {k : Nat} {es : List Exchange} {t u : Solver τ} {b : Nat} (h : Resumed limits s k es t)
    (hu : t.repairWithin .pivots (limits k) = .ok (.interrupted, b, u)) :
    Resumed limits s (k + 1) (es ++ t.searchExchanges t.roundBound .pivots (limits k)) u

theorem Interrupted.resumed (h : Interrupted limits s k t) : ∃ es, Resumed limits s k es t := by
  induction h with
  | none => exact ⟨[], .none⟩
  | next _ hu ih =>
    obtain ⟨es, hes⟩ := ih
    exact ⟨_, hes.next hu⟩

theorem Resumed.advance (h : Resumed limits s k es t) (hs : s.Sound ds) (hruled : s.Ruled)
    (hscan : s.settings.earlyScan = false) :
    t.settings.earlyScan = false ∧ ∃ w, Advance s es w ∧ Abreast ds t w := by
  induction h with
  | none => exact ⟨hscan, s, .rest, .refl s, hs, hs, hruled, hruled⟩
  | next _ hu ih =>
    obtain ⟨hscan', w, hw, hab⟩ := ih
    obtain ⟨w', hw', hab'⟩ := (hab.search hscan' hu).goes rfl
    have hsettings := (repairUpTo_searched hab.left hu).1.keeps.settings
    exact ⟨hsettings ▸ hscan', w', hw.trans hw', hab'⟩

/-- In the anti-cycle stage, and without the early scan, it makes no difference where searches are interrupted: one without a
    budget ends, and any that are made one after the other until one is not interrupted make the same pivots, end with the same
    outcome, and leave the same tableau, bounds and values. There is such a one if each may make a pivot. -/
theorem Reached.resumes (h : Reached settings WithinBounds ds s) (hscan : s.settings.earlyScan = false)
    (hruled : s.queue.stage = .antiCycle ∨ s.settings.heuristicLimit = some 0) :
    ∃ o t, s.repairWithin .unlimited () = .ok (o, (), t) ∧ o ≠ .interrupted ∧
      (Route s (s.searchExchanges s.roundBound .unlimited ()) t ∧
        t.tally.pivots = s.tally.pivots + (s.searchExchanges s.roundBound .unlimited ()).length) ∧ ∀ limits : Nat → Nat,
      ((∀ k, 1 ≤ limits k) → ∃ k es r p b u, Resumed limits s k es r ∧
        r.repairWithin .pivots (limits k) = .ok (p, b, u) ∧ p ≠ .interrupted) ∧
      ∀ k es r p b u, Resumed limits s k es r → r.repairWithin .pivots (limits k) = .ok (p, b, u) → p ≠ .interrupted →
        es ++ r.searchExchanges r.roundBound .pivots (limits k) = s.searchExchanges s.roundBound .unlimited () ∧
          p = o ∧ u.tableau = t.tableau ∧ u.store = t.store := by
  have hs := h.sound
  obtain ⟨o, t, ht, ho⟩ := repairUpTo_unlimited_ends hs h.settled
  have hstart : Abreast ds s s := ⟨.refl s, hs, hs, hruled, hruled⟩
  have ht' := ht s.roundBound (Nat.le_refl _)
  obtain ⟨n, w, hw, hwes, hti⟩ := (hstart.search hscan ht').ends ho
  refine ⟨o, t, ht', ho, repairUpTo_route ht', fun limits => ⟨fun hlimits => ?_, fun k es r p b u hr hu hp => ?_⟩⟩
  · obtain ⟨k, r, p, b, u, hr, hu, hp⟩ := exists_uninterrupted hs h.settled hlimits
    obtain ⟨es, hes⟩ := hr.resumed
    exact ⟨k, es, r, p, b, u, hes, hu, hp⟩
  · obtain ⟨hscan', w', hadvance, hab⟩ := hr.advance hs hruled hscan
    obtain ⟨m, w'', hw'', hes, hui⟩ := (hab.search hscan' hu).ends hp
    obtain ⟨j, hj⟩ := hadvance.runRounds
    obtain ⟨hrun, hexchanges⟩ := hj m
    -- Both searches have been brought to passes from `s`, and these end in one way only.
    rw [hw''] at hrun
    have hsame := (runRounds_mono (Nat.le_add_right n (j + m)) hw).symm.trans (runRounds_mono (Nat.le_add_left (j + m) n) hrun)
    cases hsame
    have htrace := (exchanges_mono (Nat.le_add_left (j + m) n) hrun).symm.trans (exchanges_mono (Nat.le_add_right n (j + m)) hw)
    rw [hexchanges, hes, hwes] at htrace
    have hi := hui.trans hti.symm
    exact ⟨htrace, rfl, hi.tableau.symm, hi.store.symm⟩

/-- Two rows cannot both reach their bounds. A search that may make one pivot at a time makes two, and finds the conflict when it
    is called for the third time; one without a budget makes the same two pivots and answers the same conflict. -/
theorem Reached.resumes_of_sums : ∃ (s r t u : Solver Nat) (b : Nat),
    Reached ⟨false, some 0, false⟩ WithinBounds [(3, [(0, 1), (1, -1)]), (2, [(0, 1), (1, 1)])] s ∧
      Resumed (fun _ => 1) s 2 [⟨2, 0, .ofRat 2⟩, ⟨0, 1, .ofRat 1⟩] r ∧
      r.repairWithin .pivots 1 = .ok (.unsat ⟨[1, 2, 0]⟩, b, u) ∧ s.repairWithin .unlimited () = .ok (.unsat ⟨[1, 2, 0]⟩, (), t) ∧
      s.searchExchanges s.roundBound .unlimited () = [⟨2, 0, .ofRat 2⟩, ⟨0, 1, .ofRat 1⟩] ∧
      u.tableau = t.tableau ∧ u.store = t.store := by
  have hrun : (do
      let s ← (Solver.new ⟨false, some 0, false⟩).addRow 2 [(0, 1), (1, 1)]
      let s ← s.addRow 3 [(0, 1), (1, -1)]
      let (_, s) ← s.assertBound .lower 2 (.ofRat 2) 0
      let (_, s) ← s.assertBound .lower 3 (.ofRat 1) 1
      let (_, s) ← s.assertBound .upper 0 (.ofRat 1) 2
      let (o₁, _, r₁) ← s.repairWithin .pivots 1
      let (o₂, _, r₂) ← r₁.repairWithin .pivots 1
      let (o₃, _, _) ← r₂.repairWithin .pivots 1
      return (s.settings, [o₁, o₂, o₃], [s.searchExchanges s.roundBound .pivots 1,
        r₁.searchExchanges r₁.roundBound .pivots 1, r₂.searchExchanges r₂.roundBound .pivots 1])) =
      (.ok (⟨false, some 0, false⟩, [.interrupted, .interrupted, .unsat ⟨[1, 2, 0]⟩],
        [[⟨2, 0, .ofRat 2⟩], [⟨0, 1, .ofRat 1⟩], []]) :
        Except Fault (Settings × List (Outcome Nat) × List (List Exchange))) := by
    decide +kernel
  obtain ⟨s₁, h₁, hrun⟩ := bind_eq_ok.mp hrun
  obtain ⟨s₂, h₂, hrun⟩ := bind_eq_ok.mp hrun
  obtain ⟨⟨_, s₃⟩, h₃, hrun⟩ := bind_eq_ok.mp hrun
  obtain ⟨⟨_, s₄⟩, h₄, hrun⟩ := bind_eq_ok.mp hrun
  obtain ⟨⟨_, s⟩, h₅, hrun⟩ := bind_eq_ok.mp hrun
  obtain ⟨⟨o₁, b₁, r₁⟩, hr₁, hrun⟩ := bind_eq_ok.mp hrun
  obtain ⟨⟨o₂, b₂, r₂⟩, hr₂, hrun⟩ := bind_eq_ok.mp hrun
  obtain ⟨⟨o₃, b, u⟩, hu, hanswers⟩ := bind_eq_ok.mp hrun
  have hanswers' := Except.ok.inj hanswers
  simp only [Prod.mk.injEq, List.cons.injEq, and_true] at hanswers'
  obtain ⟨hsettings, ⟨rfl, rfl, rfl⟩, hes₁, hes₂, hes₃⟩ := hanswers'
  have hs : Reached ⟨false, some 0, false⟩ WithinBounds [(3, [(0, 1), (1, -1)]), (2, [(0, 1), (1, 1)])] s :=
    .call (.call (.call (.call (.call .new (.addRow _ _ h₁)) (.addRow _ _ h₂)) (.assertBound _ _ _ _ h₃))
      (.assertBound _ _ _ _ h₄)) (.assertBound _ _ _ _ h₅)
  have hr : Resumed (fun _ => 1) s 2 _ r₂ := (Resumed.none.next hr₁).next hr₂
  rw [hes₁, hes₂] at hr
  obtain ⟨o, t, ht, -, -, hlimits⟩ := hs.resumes (by rw [hsettings]) (Or.inr (by rw [hsettings]))
  obtain ⟨htrace, rfl, htableau, hstore⟩ := (hlimits fun _ => 1).2 2 _ r₂ _ b u hr hu (by rintro ⟨⟩)
  rw [hes₃] at htrace
  exact ⟨s, r₂, t, u, b, hs, hr, hu, ht, htrace.symm, htableau, hstore⟩

end LinReal.Solver
