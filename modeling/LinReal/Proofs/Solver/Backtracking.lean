import LinReal.Proofs.Solver.Budgets
import LinReal.Proofs.Solver.Termination
import LinReal.Proofs.Solver.Histories
import LinReal.Proofs.Solver.Reversion

/-! Backtracking. Inside a scope assertions, searches, reverts and inner scopes may follow each other in any order: the bounds of
    the outer scopes stay, and so do the committed values of the variables known before. So once the scope is closed, a revert
    brings back the committed solution, and nothing is left to repair, whatever the basis has become. -/

namespace LinReal.Solver

variable {τ β : Type} {s t u : Solver τ} {ds : List (Var × LinearForm)} {x y : Var} {v step : DeltaRat} {budget : Budget β}
  {b : β} {n : Nat}

/-! ### Committed values -/

theorem safe_assign (h : s.assign x v = .ok t) : t.store.safe = s.store.safe := by
  obtain ⟨st, hst, h⟩ := bind_eq_ok.mp h
  cases h
  obtain ⟨slot, hslot, -⟩ := bind_eq_ok.mp hst
  obtain ⟨st', hst', -, -, hsafe, -⟩ := Store.assign_ok (Table.lt_size_of_get? (Store.slot_eq_ok_iff.mp hslot)) v
  cases hst.symm.trans hst'
  exact hsafe

theorem safe_follow (h : follow x step s y = .ok t) : t.store.safe = s.store.safe := by
  obtain ⟨f, -, h⟩ := bind_eq_ok.mp h
  split at h
  · cases h
    rfl
  · obtain ⟨slot, -, h⟩ := bind_eq_ok.mp h
    obtain ⟨u, hu, h⟩ := bind_eq_ok.mp h
    rw [(idle_inspect h).store]
    exact safe_assign hu

theorem safe_update (h : s.update x v = .ok t) : t.store.safe = s.store.safe := by
  unfold update at h
  split at h
  · cases h
  · obtain ⟨slot, -, h⟩ := bind_eq_ok.mp h
    obtain ⟨u, hu, h⟩ := bind_eq_ok.mp h
    obtain ⟨w, hw, h⟩ := bind_eq_ok.mp h
    cases h
    have hfollow : u.store.safe = s.store.safe := foldlM_keeps (fun s => s.store.safe) safe_follow hu
    exact (safe_assign hw).trans hfollow

theorem safe_settleBound {move : DeltaRat → Bool} (h : s.settleBound x v move = .ok t) : t.store.safe = s.store.safe := by
  unfold settleBound at h
  split at h
  · rw [(idle_inspect h).store]
  · obtain ⟨slot, -, h⟩ := bind_eq_ok.mp h
    split at h
    · exact safe_update h
    · cases h
      rfl

theorem safe_setBound {st st' : Store τ} {side : Side} {l : Bound τ} (h : st.setBound side x l = .ok st') :
    st'.safe = st.safe := by
  obtain ⟨slot, hslot, -⟩ := bind_eq_ok.mp h
  obtain ⟨st'', hst'', -, -, hsafe, -⟩ := Store.setBound_ok (Table.lt_size_of_get? (Store.slot_eq_ok_iff.mp hslot)) side l
  cases h.symm.trans hst''
  exact hsafe

theorem safe_clamp (h : s.clamp x = .ok t) : t.store.safe = s.store.safe := by
  obtain ⟨slot, -, h⟩ := bind_eq_ok.mp h
  split at h
  · cases h
    rfl
  · exact safe_update h

theorem safe_revert (h : s.Coherent ds) (ht : s.revert = .ok t) : t.store.safe = s.store.safe := by
  obtain ⟨u, hu, ht⟩ := bind_eq_ok.mp ht
  have hclamp : u.store.safe = s.store.revert.safe := foldlM_keeps (fun s => s.store.safe) safe_clamp hu
  rw [(idle_inspectAll ht).store, hclamp]
  exact (Store.revert_view h.tracks).2.2.1

theorem safe_pop (h : s.Coherent ds) (ht : s.pop = .ok t) : t.store.safe = s.store.safe := by
  rw [(idle_inspectAll ht).store]
  exact (Store.pop_view h.disciplined.inRange).2.2.1

/-! ### What stays -/

/-- What happens inside a scope keeps the invariant, and the committed values of the variables known before. -/
structure Spared (ds : List (Var × LinearForm)) (s t : Solver τ) : Prop where
  sound : t.Sound ds
  settled : s.Settled → t.Settled
  registered : ∀ {x}, s.isRegistered x = true → t.isRegistered x = true
  safe : ∀ {x}, s.isRegistered x = true → t.store.safe x = s.store.safe x

theorem Spared.trans (h₁ : Spared ds s t) (h₂ : Spared ds t u) : Spared ds s u where
  sound := h₂.sound
  settled := h₂.settled ∘ h₁.settled
  registered := h₂.registered ∘ h₁.registered
  safe hx := (h₂.safe (h₁.registered hx)).trans (h₁.safe hx)

theorem Sound.spared_push (h : s.Sound ds) : Spared ds s s.push :=
  ⟨h.push.1, h.push.2.2.2, h.push.2.2.1, fun _ => rfl⟩

theorem Sound.spared_pop (h : s.Sound ds) (ht : s.pop = .ok t) : Spared ds s t := by
  obtain ⟨t', ht', hsound, -, hregistered, hsettled⟩ := pop_ok h
  cases ht.symm.trans ht'
  exact ⟨hsound, hsettled, hregistered, fun _ => by rw [safe_pop h.coherent ht]⟩

theorem levels_of_pop (h : s.Sound ds) (hs : s.store.levels.tail ≠ []) (ht : s.pop = .ok t) :
    t.store.levels = s.store.levels.tail := by
  obtain ⟨t', ht', -, hlevels, -⟩ := pop_ok h
  cases ht.symm.trans ht'
  refine hlevels fun hnil => hs ?_
  rw [Store.levels, hnil]
  rfl

/-! ### Going back -/

theorem not_sound_of_within (h : s.Coherent ds) (hall : ∀ x, s.Within x) {c : Conflict τ} :
    ¬c.Sound ds s.store.bounds [] fun _ => True := fun hc =>
  hc.refuted ⟨s.store.value, h.denotes.delta.mp h.solves, trivial, fun side x l hl _ => hall x side l hl⟩

/-- If the committed values lie within the bounds in force, a revert brings back just these. -/
theorem revert_of_within (h : s.Sound ds) (hall : ∀ x, s.store.bounds.Admits x (s.store.safe x)) :
    ∃ t, s.revert = .ok t ∧ t.Sound ds ∧ t.store.value = s.store.safe ∧ t.store.bounds = s.store.bounds ∧
      t.tableau = s.tableau ∧ ∀ x, t.Within x := by
  obtain ⟨t, ht, hsound, hreverted⟩ := h.reverted
  have hvalue := hreverted.value_eq h.coherent hsound.coherent fun x _ => hall x
  refine ⟨t, ht, hsound, hvalue, hreverted.bounds, hreverted.tableau, fun x => ?_⟩
  rw [Within, hreverted.bounds, hvalue]
  exact hall x

variable [DecidableEq τ] {a : Assertion τ} {answer : Option (Conflict τ)}

theorem safe_assert (h : a.apply s = .ok (answer, t)) (hx : s.isRegistered x = true) :
    t.store.safe x = s.store.safe x := by
  refine Eq.trans ?_ (values_register hx a.var).2
  cases Assertion.apply_inv h with
  | redundant => rfl
  | refused => rfl
  | narrowed _ _ _ hstore ht =>
    rw [safe_settleBound ht]
    exact congrFun (foldlM_keeps Store.safe safe_setBound hstore) x

/-! ### Inside a scope -/

/-- The calls that may stand inside a scope, next to inner scopes. -/
def Action.Inner : Action τ → Prop
  | .register _ | .assert _ | .search _ _ _ | .revert => True
  | _ => False

/-- Such calls and scopes, of which the number says how many are open, lead from `s` to a state. -/
inductive Excursion (s : Solver τ) : Nat → Solver τ → Prop where
  | rest : Excursion s 0 s
  | call {k : Nat} {t u : Solver τ} {answer : Option (Conflict τ)} (h : Excursion s k t) (a : Action τ)
      (hu : a.apply t = .ok (answer, u)) (ha : a.Inner) : Excursion s k u
  | push {k : Nat} {t : Solver τ} (h : Excursion s k t) : Excursion s (k + 1) t.push
  | pop {k : Nat} {t u : Solver τ} (h : Excursion s (k + 1) t) (hu : t.pop = .ok u) : Excursion s k u

theorem Action.spared {a : Action τ} (h : s.Sound ds) (ht : a.apply s = .ok (answer, t)) (ha : a.Inner) :
    Spared ds s t ∧ t.store.levels.tail = s.store.levels.tail := by
  cases a with
  | register y =>
    cases ht
    have hann := h.coherent.announced_register y
    exact ⟨⟨h.register y, hann.settled, hann.carries.registered, fun hx => (values_register hx y).2⟩,
      congrArg List.tail hann.carries.levels⟩
  | assert b =>
    obtain ⟨answer', t', ht', hasserted⟩ := b.apply_ok h
    cases ht.symm.trans ht'
    exact ⟨⟨hasserted.sound, hasserted.settled, hasserted.registered, safe_assert ht⟩, hasserted.outer⟩
  | search budget b n =>
    obtain ⟨⟨o, b', u⟩, hu, ht⟩ := bind_eq_ok.mp ht
    cases ht
    obtain ⟨hsearched, hsound⟩ := repairUpTo_searched h hu
    obtain ⟨-, hcarries, hsafe⟩ := (repairUpTo_traced hu).walk.kept h.coherent
    exact ⟨⟨hsound, hsearched.keeps.settled, hcarries.registered, fun _ => by rw [hsafe]⟩,
      congrArg List.tail hcarries.levels⟩
  | revert =>
    obtain ⟨u, hu, ht⟩ := bind_eq_ok.mp ht
    cases ht
    obtain ⟨u', hu', hsound, hcarries, hsettled⟩ := revert_ok h
    cases hu.symm.trans hu'
    exact ⟨⟨hsound, fun _ => hsettled, hcarries.registered, fun _ => by rw [safe_revert h.coherent hu]⟩,
      congrArg List.tail hcarries.levels⟩
  | addRow x d | update x v | pivot l e v | commit | push | pop => exact ha.elim

/-- On an excursion the levels below the first one stay, and above them there is one more for every open scope. -/
theorem Excursion.spared {k : Nat} (h : Excursion s k t) (hs : s.Sound ds) :
    Spared ds s t ∧ ∃ inner, inner.length = k + 1 ∧ t.store.levels = inner ++ s.store.levels.tail := by
  induction h with
  | rest => exact ⟨⟨hs, id, id, fun _ => rfl⟩, [s.store.bounds], rfl, Store.levels_eq_cons s.store⟩
  | @call k t u answer _ a hu ha ih =>
    obtain ⟨hspared, inner, hlength, hlevels⟩ := ih
    obtain ⟨hstep, htail⟩ := a.spared hspared.sound hu ha
    refine ⟨hspared.trans hstep, u.store.bounds :: inner.tail, by rw [List.length_cons, List.length_tail, hlength]; rfl, ?_⟩
    rw [Store.levels_eq_cons, htail, hlevels, List.cons_append, List.tail_append_of_ne_nil]
    exact List.ne_nil_of_length_eq_add_one hlength
  | @push k t _ ih =>
    obtain ⟨hspared, inner, hlength, hlevels⟩ := ih
    exact ⟨hspared.trans hspared.sound.spared_push, t.store.bounds :: inner, by rw [List.length_cons, hlength],
      (Store.levels_push t.store).trans (congrArg (List.cons t.store.bounds) hlevels)⟩
  | @pop k t u _ hu ih =>
    obtain ⟨hspared, inner, hlength, hlevels⟩ := ih
    obtain ⟨first, rest, rfl⟩ := List.exists_cons_of_length_eq_add_one hlength
    have hrest : rest.length = k + 1 := Nat.succ.inj hlength
    have htail : t.store.levels.tail = rest ++ s.store.levels.tail := by rw [hlevels, List.cons_append, List.tail_cons]
    have hne : t.store.levels.tail ≠ [] := by
      rw [htail]
      exact List.append_ne_nil_of_left_ne_nil (List.ne_nil_of_length_eq_add_one hrest) _
    exact ⟨hspared.trans (hspared.sound.spared_pop hu), rest, hrest, (levels_of_pop hspared.sound hne hu).trans htail⟩

/-! ### Nothing left to repair -/

/-- If all variables lie within their bounds, a repair answers that without a pivot. -/
theorem repair_of_within (h : s.Sound ds) (hall : ∀ x, s.Within x) :
    ∃ t, s.repair = .ok (none, t) ∧ Idle s t ∧ t.tally.pivots = s.tally.pivots := by
  suffices hsearch : ∃ t, s.repairUpTo s.roundBound .unlimited () = .ok (.sat, (), t) ∧ Idle s t ∧
      t.tally.pivots = s.tally.pivots by
    obtain ⟨t, ht, hrest⟩ := hsearch
    exact ⟨t, by rw [repair, repairWithin, ht]; rfl, hrest⟩
  cases he : s.queue.isEmpty with
  | true => exact ⟨s.endRepair, by rw [repairUpTo, he]; rfl, ⟨rfl, rfl, rfl, rfl⟩, rfl⟩
  | false =>
    obtain ⟨c, u, hu, hpaused, hqueued, hsorted, hsound⟩ := beginRepair_ok h
    have hi := hpaused.idle
    cases c with
    | some c =>
      have hc := hsound c rfl
      rw [hi.store] at hc
      exact (not_sound_of_within h.coherent hall hc).elim
    | none =>
      have hus : u.Sound ds := ⟨h.coherent.idle hi, hqueued, hsorted⟩
      obtain ⟨w, t, hw, htaken, ht⟩ := pass_of_within .unlimited () hus (fun x _ => hi.within.mpr (hall x)) rfl
      have hidle := (idle_openRound hw).trans (idle_takeViolated htaken)
      refine ⟨t.endRepair, ?_, (hi.trans hidle).trans ⟨rfl, rfl, rfl, rfl⟩, ?_⟩
      · have hbound : s.roundBound = s.heuristicRounds + 4 ^ s.variableCount + 1 + 1 := rfl
        rw [repairUpTo_of_begin he hu, hbound, runRounds, ht]
        rfl
      · have hpivots := (pivots_of_record (record_takeViolated htaken)).trans (pivots_openRound hw)
        exact hpivots.trans (pivots_beginRepair hu)

/-! ### Backtracking -/

/-- A search has as many passes as it may need. -/
def Action.Patient (s : Solver τ) : Action τ → Prop
  | .search _ _ n => s.roundBound ≤ n
  | _ => True

theorem Action.inner_ok {a : Action τ} (h : s.Sound ds) (hset : s.Settled) (ha : a.Inner) (hpatient : a.Patient s) :
    ∃ answer t, a.apply s = .ok (answer, t) := by
  cases a with
  | register x => exact ⟨none, s.register x, rfl⟩
  | assert b =>
    obtain ⟨answer, t, ht, -⟩ := b.apply_ok h
    exact ⟨answer, t, ht⟩
  | search budget b n =>
    obtain ⟨o, b', t, ht, -⟩ := repairUpTo_ends h hset hpatient budget b
    exact ⟨o.conflict?, t, by simp only [Action.apply, ht]; rfl⟩
  | revert =>
    obtain ⟨t, ht, -⟩ := revert_ok h
    exact ⟨none, t, by simp only [Action.apply, ht]; rfl⟩
  | addRow x d | update x v | pivot l e v | commit | push | pop => exact ha.elim

variable {settings : Settings} {r : Solver τ} {b' : β} {k : Nat}

/-- A closed scope leaves the bounds at its opening, and the values committed before it for the variables known then. -/
theorem Excursion.closed (h : Excursion s.push 0 t) (hs : s.Sound ds) :
    ∃ u, t.pop = .ok u ∧ u.Sound ds ∧ u.store.bounds = s.store.bounds ∧
      ∀ x, s.isRegistered x = true → u.store.safe x = s.store.safe x := by
  obtain ⟨hspared, inner, hlength, hlevels⟩ := h.spared hs.push.1
  obtain ⟨first, rfl⟩ := List.length_eq_one_iff.mp hlength
  have htail : t.store.levels.tail = s.store.levels := by
    rw [hlevels, hs.push.2.1]
    rfl
  obtain ⟨u, hu, -⟩ := pop_ok hspared.sound
  have hpopped := hspared.sound.spared_pop hu
  have hsame : u.store.levels = s.store.levels :=
    (levels_of_pop hspared.sound (by rw [htail, Store.levels_eq_cons]; exact List.cons_ne_nil _ _) hu).trans htail
  rw [Store.levels_eq_cons, Store.levels_eq_cons s.store] at hsame
  exact ⟨u, hu, hpopped.sound, (List.cons.inj hsame).1, fun x hx => (hspared.trans hpopped).safe (hs.push.2.2.1 hx)⟩

/-- A search has succeeded, its solution is committed and a scope opened. Then no call that may stand inside a scope fails, and
    once all inner scopes are closed, closing the scope and a revert bring back the committed values and the bounds of that
    time, consistent and with all invariants; there is nothing to repair, and the next repair finds that without a pivot. -/
theorem Reached.backtracks (h : Reached settings WithinBounds ds r) (hr : r.repairUpTo n budget b = .ok (.sat, b', s)) :
    (∀ k t, Excursion s.commit.push k t → (∃ u, t.pop = .ok u) ∧
      ∀ a : Action τ, a.Inner → a.Patient t → ∃ answer u, a.apply t = .ok (answer, u)) ∧
    ∀ t, Excursion s.commit.push 0 t → ∃ u v w, t.pop = .ok u ∧ u.revert = .ok v ∧
      (∀ x, s.isRegistered x = true → v.store.value x = s.store.value x) ∧ v.store.bounds = s.store.bounds ∧
      v.isConsistent = true ∧ v.audit = .ok none ∧ v.repair = .ok (none, w) ∧ w.tally.pivots = v.tally.pivots := by
  have hs : Reached settings WithinBounds ds s := h.call (.search budget b n hr)
  have hpush : Reached settings WithinBounds ds s.commit.push := (hs.call .commit).call .push
  refine ⟨fun k t ht => ?_, fun t ht => ?_⟩
  · obtain ⟨hspared, -⟩ := ht.spared hpush.sound
    obtain ⟨u, hu, -⟩ := pop_ok hspared.sound
    exact ⟨⟨u, hu⟩, fun a ha hpatient => a.inner_ok hspared.sound (hspared.settled hpush.settled) ha hpatient⟩
  · have hcommit := hs.sound.commit
    obtain ⟨u, hu, hsound, hbounds, hsafe⟩ := ht.closed hcommit.1
    rw [hcommit.2.1.bounds] at hbounds
    have hcommitted : ∀ x, s.isRegistered x = true → u.store.safe x = s.store.value x := fun x hx => by
      rw [hsafe x hx]
      exact congrFun (Store.commit_view hs.sound.coherent.tracks).2.2.1 x
    have hsolution : ∀ x, s.Within x := by
      intro x
      cases hx : s.isBasic x with
      | true => exact (repairUpTo_searched h.sound hr).1.sat rfl x hx
      | false => exact hs.settled x hx
    have hadmits : ∀ x, u.store.bounds.Admits x (u.store.safe x) := by
      intro x
      rw [hbounds]
      by_cases hx : s.isRegistered x = true
      · rw [hcommitted x hx]
        exact hsolution x
      · intro side l hl
        rw [hs.sound.coherent.disciplined.bounds_eq_none hx] at hl
        cases hl
    obtain ⟨v, hv, hvsound, hvalue, hvbounds, -, hall⟩ := revert_of_within hsound hadmits
    obtain ⟨w, hw, -, hpivots⟩ := repair_of_within hvsound hall
    refine ⟨u, v, w, hu, hv, fun x hx => ?_, hvbounds.trans hbounds, isConsistent_of_within fun x _ => hall x,
      audit_eq_none hvsound.coherent, hw, hpivots⟩
    rw [hvalue]
    exact hcommitted x hx

/-- A solution is committed; in a scope a search is interrupted, in an inner scope one finds a conflict and an assertion clashes,
    then a search changes the basis, a variable is announced and a revert made. -/
theorem Reached.backtracks_of_sum : ∃ r s t u v w : Solver Nat,
    Reached .standard WithinBounds [(2, [(0, 1), (1, 1)])] r ∧ r.repairUpTo 9 .unlimited () = .ok (.sat, (), s) ∧
      Excursion s.commit.push 0 t ∧ t.pop = .ok u ∧ u.revert = .ok v ∧ s.isBasic 0 = true ∧ v.isBasic 0 = false ∧
      (∀ x, s.isRegistered x = true → v.store.value x = s.store.value x) ∧ v.store.bounds = s.store.bounds ∧
      v.repair = .ok (none, w) ∧ w.tally.pivots = v.tally.pivots := by
  have hrun : (do
      let r ← (Solver.new .standard).addRow 2 [(0, 1), (1, 1)]
      let (_, r) ← r.assertBound .lower 2 (.ofRat 2) 0
      let (o, _, s) ← r.repairUpTo 9 .unlimited ()
      let (_, t) ← (Action.assert (.bound .upper 0 (.ofRat 1) 1)).apply s.commit.push
      let (_, t) ← (Action.search .pivots 0 9).apply t
      let (_, t) ← (Action.assert (.bound .upper 1 (.ofRat 0) 2)).apply t.push
      let (c, t) ← (Action.search .unlimited () 9).apply t
      let (d, t) ← (Action.assert (.equal 2 (.ofRat 1) 3)).apply t
      let t ← t.pop
      let (_, t) ← (Action.search .unlimited () 9).apply t
      let (_, t) ← (Action.register 7).apply t
      let (_, t) ← Action.revert.apply t
      let u ← t.pop
      let v ← u.revert
      return (o, c, d, s.isBasic 0, v.isBasic 0)) =
      (.ok (.sat, some ⟨[1, 2, 0]⟩, some ⟨[0, 3]⟩, true, false) :
        Except Fault (Outcome Nat × Option (Conflict Nat) × Option (Conflict Nat) × Bool × Bool)) := by decide +kernel
  obtain ⟨r₁, h₁, hrun⟩ := bind_eq_ok.mp hrun
  obtain ⟨⟨_, r⟩, h₂, hrun⟩ := bind_eq_ok.mp hrun
  obtain ⟨⟨o, _, s⟩, hr, hrun⟩ := bind_eq_ok.mp hrun
  obtain ⟨⟨_, t₁⟩, e₁, hrun⟩ := bind_eq_ok.mp hrun
  obtain ⟨⟨_, t₂⟩, e₂, hrun⟩ := bind_eq_ok.mp hrun
  obtain ⟨⟨_, t₃⟩, e₃, hrun⟩ := bind_eq_ok.mp hrun
  obtain ⟨⟨c, t₄⟩, e₄, hrun⟩ := bind_eq_ok.mp hrun
  obtain ⟨⟨d, t₅⟩, e₅, hrun⟩ := bind_eq_ok.mp hrun
  obtain ⟨t₆, e₆, hrun⟩ := bind_eq_ok.mp hrun
  obtain ⟨⟨_, t₇⟩, e₇, hrun⟩ := bind_eq_ok.mp hrun
  obtain ⟨⟨_, t₈⟩, e₈, hrun⟩ := bind_eq_ok.mp hrun
  obtain ⟨⟨_, t⟩, e₉, hrun⟩ := bind_eq_ok.mp hrun
  obtain ⟨u, hu, hrun⟩ := bind_eq_ok.mp hrun
  obtain ⟨v, hv, hrun⟩ := bind_eq_ok.mp hrun
  obtain ⟨ho, hanswers⟩ := Prod.mk.inj (Except.ok.inj hrun)
  obtain ⟨-, hanswers⟩ := Prod.mk.inj hanswers
  obtain ⟨-, hanswers⟩ := Prod.mk.inj hanswers
  obtain ⟨hbefore, hafter⟩ := Prod.mk.inj hanswers
  subst ho
  have hreached : Reached .standard WithinBounds [(2, [(0, 1), (1, 1)])] r :=
    .call (.call .new (.addRow _ _ h₁)) (.assertBound _ _ _ _ h₂)
  have hinner : Excursion s.commit.push 1 t₅ :=
    .call (.call (.call (.push (.call (.call .rest _ e₁ trivial) _ e₂ trivial)) _ e₃ trivial) _ e₄ trivial) _ e₅ trivial
  have ht : Excursion s.commit.push 0 t :=
    .call (.call (.call (.pop hinner e₆) _ e₇ trivial) _ e₈ trivial) _ e₉ trivial
  obtain ⟨u', v', w, hu', hv', hvalues, hbounds, -, -, hw, hpivots⟩ := (hreached.backtracks hr).2 t ht
  cases hu.symm.trans hu'
  cases hv.symm.trans hv'
  exact ⟨r, s, t, u, v, w, hreached, hr, ht, hu, hv, hbefore, hafter, hvalues, hbounds, hw, hpivots⟩

end LinReal.Solver
