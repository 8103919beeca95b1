import LinReal.Proofs.Tally
import LinReal.Proofs.Solver.Budgets
import LinReal.Proofs.Solver.EarlyScan
import LinReal.Proofs.Solver.Histories

/-! Conflicts are seen in time. A pivot looks at the row of the variable that has entered and remembers whether it shows a conflict;
    the search looks at the same row once more, and the two looks agree. So a search makes no pivot after it has seen a conflict,
    and the next one forgets at its beginning what was seen. Only pivots from outside a search can come too late. -/

namespace LinReal

/-- The events of a pivot that comes after a conflict has been seen. -/
def Event.isLate : Event → Bool
  | pivotAfterConflict | wastefulCheck => true
  | _ => false

namespace Solver

variable {τ β : Type} {s t u w : Solver τ} {ds : List (Var × LinearForm)} {x y l e : Var} {v : DeltaRat} {i : Violation τ}
  {budget : Budget β} {b b' c : β} {o : Outcome τ} {p : Option (Outcome τ)} {answer : Option (Conflict τ)} {k n : Nat}

/-- No pivot on record has come after a conflict. -/
def Thrifty (s : Solver τ) : Prop := ∀ e ∈ s.log, e.isLate = false

/-- No conflict has been seen by this search, and no pivot on record has come after one. -/
structure Unwarned (s : Solver τ) : Prop where
  calm : s.foundConflict = false
  thrifty : s.Thrifty

theorem thrifty_iff : s.Thrifty ↔ s.tally.pivotsAfterConflict = 0 ∧ s.tally.wastefulChecks = 0 := by
  have hafter : s.tally.pivotsAfterConflict = s.log.count .pivotAfterConflict := Tally.counter_ofEvents s.log .pivotAfterConflict
  have hcheck : s.tally.wastefulChecks = s.log.count .wastefulCheck := Tally.counter_ofEvents s.log .wastefulCheck
  rw [hafter, hcheck, List.count_eq_zero, List.count_eq_zero]
  constructor
  · exact fun h => ⟨fun hin => Bool.noConfusion (h _ hin), fun hin => Bool.noConfusion (h _ hin)⟩
  · rintro ⟨hafter, hcheck⟩ e he
    cases e with
    | pivotAfterConflict => exact absurd he hafter
    | wastefulCheck => exact absurd he hcheck
    | _ => rfl

theorem Thrifty.of_record (hs : s.Thrifty) (h : t.record = s.record) : t.Thrifty := by
  rw [Thrifty, log_of_record h]
  exact hs

theorem Thrifty.note (hs : s.Thrifty) {e : Event} (he : e.isLate = false) : (s.note e).Thrifty :=
  List.forall_mem_cons.mpr ⟨he, hs⟩

theorem Thrifty.note_update (hs : s.Thrifty) (h : t.record = s.record ∨ t.record = (s.note .update).record) : t.Thrifty := by
  rcases h with h | h
  · exact hs.of_record h
  · exact (hs.note (e := .update) rfl).of_record h

/-! ### Pivots -/

/-- A variable whose row shows a conflict is looked at with the same result by a search. -/
theorem watch_inv (hx : s.isBasic x = true) (hf : s.foundConflict = false) (h : s.watch x = .ok t)
    (ht : t.foundConflict = true) : ∃ i, t.violation? x = some i ∧ t.partner? x i.side = .ok none := by
  rw [watch, hf] at h
  obtain ⟨slot, hslot, h⟩ := bind_eq_ok.mp h
  split at h
  · cases h
    rw [hf] at ht
    cases ht
  · rename_i i hi
    obtain ⟨partner, hp, h⟩ := bind_eq_ok.mp h
    cases h
    cases partner with
    | some y => cases ht
    | none =>
      refine ⟨i, ?_, hp⟩
      show s.violation? x = some i
      rw [violation?, if_pos hx, Store.slot_eq_ok_iff.mp hslot]
      exact hi

theorem notePivot_of_calm (hs : s.foundConflict = false) : s.notePivot = s.note .pivot :=
  if_neg (show ¬s.foundConflict = true from hs ▸ Bool.false_ne_true)

theorem Unwarned.pivot (hs : s.Unwarned) (h : s.pivot l e v = .ok t) :
    t.Thrifty ∧ (t.foundConflict = true → ∃ i, t.violation? e = some i ∧ t.partner? e i.side = .ok none) := by
  obtain ⟨u, w, tableau, hu, hw, hbasic, ht⟩ := pivot_inv h
  have hcalm : u.foundConflict = false := hu.foundConflict.trans hs.calm
  have hnote : u.notePivot = u.note .pivot := notePivot_of_calm hcalm
  have hthrifty : ({ u.notePivot with tableau := tableau } : Solver τ).Thrifty := by
    rw [hnote]
    exact (hs.thrifty.of_record hu.record).note (e := .pivot) rfl
  refine ⟨(hthrifty.of_record hw.record).of_record (record_watch ht), watch_inv hbasic ?_ ht⟩
  rw [hw.foundConflict, hnote]
  exact hcalm

/-! ### Steps that do not ask for conflicts -/

theorem Unwarned.counted {q : Option (Var × Violation τ)} (hs : s.Unwarned) (ht : s.takeViolated = (q, t))
    (hu : u = { t with rounds := t.rounds + 1 }) : u.Unwarned := by
  have hcalm : t.foundConflict = s.foundConflict := by
    unfold takeViolated at ht
    split at ht <;> (cases ht; rfl)
  have ht' : t.Thrifty := hs.thrifty.of_record (record_takeViolated ht)
  rw [hu]
  exact ⟨hcalm.trans hs.calm, ht'⟩

theorem Unwarned.openRound (hs : s.Unwarned) (h : s.openRound = .ok t) : t.Unwarned := by
  rcases openRound_inv h with rfl | rfl
  · exact hs
  · exact ⟨hs.calm, hs.thrifty.note (e := .antiCycle) rfl⟩

theorem thrifty_leaveRepair (hs : s.Thrifty) (h : s.leaveRepair o = .ok t) : t.Thrifty := by
  cases o with
  | unsat c => exact Thrifty.of_record (s := s.report c) hs (record_leaveRepair_unsat h)
  | sat | interrupted => exact hs.of_record (record_leaveRepair_of_ne h rfl)

variable [DecidableEq τ]

/-! ### Rounds and passes -/

/-- What a pivot has seen of the row of `x`, a search sees when it asks for the conflict. -/
theorem conflictOf_ne_none (hv : s.violation? x = some i) (hp : s.partner? x i.side = .ok none) :
    s.conflictOf x ≠ .ok none := by
  intro h
  unfold violation? at hv
  split at hv
  · rename_i hx
    obtain ⟨slot, hslot, hslotv⟩ := Option.bind_eq_some_iff.mp hv
    rw [conflictOf, if_pos hx, Store.slot_eq_ok_iff.mpr hslot, ok_bind] at h
    simp only [hslotv, hp, ok_bind] at h
    obtain ⟨c, -, h⟩ := bind_eq_ok.mp h
    cases h
  · cases hv

/-- A round that goes on has asked for the conflict of the row that the pivot looked at, and there was none. -/
theorem Unwarned.round (hs : s.Unwarned) (h : s.round = .ok (p, t)) : t.Thrifty ∧ (p = none → t.Unwarned) := by
  cases round_inv h with
  | satisfied ht => exact ⟨hs.thrifty.of_record (record_takeViolated ht), fun hp => by cases hp⟩
  | blocked ht hu hp hc => exact ⟨(hs.counted ht hu).thrifty.note (e := .updateConflict) rfl, fun hp => by cases hp⟩
  | refuted ht hu hp hw hc =>
    exact ⟨((hs.counted ht hu).pivot hw).1.note (e := .updateConflict) rfl, fun hp => by cases hp⟩
  | moved ht hu hp hw hc =>
    obtain ⟨hthrifty, hflag⟩ := (hs.counted ht hu).pivot hw
    refine ⟨hthrifty, fun _ => ⟨Bool.eq_false_iff.mpr fun hfound => ?_, hthrifty⟩⟩
    obtain ⟨i, hi, hblocked⟩ := hflag hfound
    exact conflictOf_ne_none hi hblocked hc

theorem Unwarned.pass (hs : s.Unwarned) (h : s.pass budget b = .ok (p, b', t)) :
    t.Thrifty ∧ (p = none → t.Unwarned) := by
  obtain ⟨-, hpass⟩ := pass_inv h
  cases hpass with
  | stopped hu hask => exact ⟨(hs.openRound hu).thrifty, fun hp => by cases hp⟩
  | allowed hu hask ht => exact (hs.openRound hu).round ht

theorem Unwarned.runRounds (hs : s.Unwarned) (h : s.runRounds budget n b = .ok (o, b', t)) : t.Thrifty := by
  induction n generalizing s b with
  | zero => cases h
  | succ n ih =>
    obtain ⟨⟨p, c, u⟩, hu, h⟩ := bind_eq_ok.mp h
    cases p with
    | none => exact ih ((hs.pass hu).2 rfl) h
    | some p =>
      cases h
      exact (hs.pass hu).1

/-! ### Whole searches -/

theorem thrifty_earlyConflict (hs : s.Thrifty) (h : s.earlyConflict = .ok (answer, t)) :
    t.Thrifty ∧ t.foundConflict = s.foundConflict := by
  obtain ⟨u, answers, hu, -, -, rfl⟩ := earlyConflict_inv h
  refine ⟨List.forall_mem_append.mpr ⟨fun e he => ?_, hs.of_record hu.record⟩, hu.shifted.foundConflict⟩
  rcases mem_scanNotes he with rfl | rfl <;> rfl

/-- Whatever has been seen before is forgotten when a search begins. -/
theorem unwarned_beginRepair (hs : s.Thrifty) (h : s.beginRepair = .ok (answer, t)) : t.Unwarned := by
  unfold beginRepair at h
  simp only at h
  split at h
  · obtain ⟨hthrifty, hcalm⟩ := thrifty_earlyConflict
      (s := { s with foundConflict := false, pivotsSinceConflict := 0 }) hs h
    exact ⟨hcalm, hthrifty⟩
  · cases h
    exact ⟨rfl, hs⟩

theorem thrifty_repairUpTo (hs : s.Thrifty) (h : s.repairUpTo n budget b = .ok (o, b', t)) : t.Thrifty := by
  cases repairUpTo_inv h with
  | idle he => exact hs
  | early he hu ht => exact thrifty_leaveRepair (unwarned_beginRepair hs hu).thrifty ht
  | passes he hu hw ht => exact thrifty_leaveRepair ((unwarned_beginRepair hs hu).runRounds hw) ht

theorem Head.unwarned (hh : Head budget s b k c t) (hs : s.Thrifty) : t.Unwarned := by
  induction hh with
  | first he ht => exact unwarned_beginRepair hs ht
  | next _ hp ih => exact (ih.pass hp).2 rfl

/-! ### Calls -/

theorem Thrifty.assert {a : Assertion τ} (hs : s.Thrifty) (h : a.apply s = .ok (answer, t)) : t.Thrifty := by
  have hregister : (s.register a.var).Thrifty := hs.of_record (record_register s a.var)
  cases Assertion.apply_inv h with
  | redundant => exact hregister
  | refused =>
    have hrefusal : a.refusal.isLate = false := by
      cases a with
      | bound side x v token => cases side <;> rfl
      | equal x v token => rfl
    exact hregister.note hrefusal
  | @narrowed _ store _ _ _ _ _ _ ht =>
    exact Thrifty.note_update (s := { s.register a.var with store := store }) hregister (record_settleBound ht)

/-- Every call but a pivot keeps it so that no pivot has come after a conflict. -/
theorem Thrifty.act {a : Action τ} (hs : s.Thrifty) (ha : ∀ l e v, a ≠ .pivot l e v) (h : a.apply s = .ok (answer, t)) :
    t.Thrifty := by
  cases a with
  | register x =>
    cases h
    exact hs.of_record (record_register s x)
  | addRow x d =>
    obtain ⟨u, hu, h⟩ := bind_eq_ok.mp h
    cases h
    exact hs.of_record (record_addRow hu)
  | assert a => exact hs.assert h
  | update x v =>
    obtain ⟨u, hu, h⟩ := bind_eq_ok.mp h
    cases h
    exact hs.note_update (Or.inr (record_update hu))
  | pivot l e v => exact absurd rfl (ha l e v)
  | search budget b n =>
    obtain ⟨⟨o, b', u⟩, hu, h⟩ := bind_eq_ok.mp h
    cases h
    exact thrifty_repairUpTo hs hu
  | commit | push =>
    cases h
    exact hs
  | revert =>
    obtain ⟨w, hw, h⟩ := bind_eq_ok.mp h
    cases h
    obtain ⟨u, hu, hw⟩ := bind_eq_ok.mp hw
    have hback : ({ s with store := s.store.revert } : Solver τ).Thrifty := hs
    have hclamped : u.Thrifty := foldlM_invariant (fun hs hu => hs.note_update (record_clamp hu)) hback hu
    exact hclamped.of_record (record_inspectAll hw)
  | pop =>
    obtain ⟨u, hu, h⟩ := bind_eq_ok.mp h
    cases h
    exact Thrifty.of_record (s := { s with store := s.store.pop.2 }) hs (record_inspectAll hu)

variable {settings : Settings} {admits : Solver τ → Var → DeltaRat → Prop} {as : List (Action τ)}

theorem History.thrifty (h : History settings admits as s) (hno : ∀ l e v, Action.pivot l e v ∉ as) : s.Thrifty := by
  induction h with
  | new => exact fun e he => by cases he
  | act h a ht _ ih =>
    refine (ih fun l e v hin => hno l e v (List.mem_cons_of_mem _ hin)).act (fun l e v ha => ?_) ht
    exact hno l e v (ha ▸ List.mem_cons_self)

/-! ### The pivots of a search -/

/-- The pass at `t` comes to a pivot, by which `x` moves onto the bound that it violates and `y` enters; `u` is the state before
    that. -/
inductive Pivots (budget : Budget β) (c : β) (t u : Solver τ) (x y : Var) (i : Violation τ) : Prop where
  | intro {r w : Solver τ} (hr : t.openRound = .ok r) (hask : (budget.ask c).1 = false)
      (hw : r.takeViolated = (some (x, i), w)) (hu : u = { w with rounds := w.rounds + 1 })
      (hp : u.partner? x i.side = .ok (some y))

omit [DecidableEq τ] in
theorem Pivots.unwarned (h : Pivots budget c t u x y i) (ht : t.Unwarned) : u.Unwarned := by
  obtain ⟨hr, -, hw, hu, -⟩ := h
  exact (ht.openRound hr).counted hw hu

omit [DecidableEq τ] in
theorem Pivots.walk (h : Pivots budget c t u x y i) : Walk t u := by
  obtain ⟨hr, -, hw, hu, -⟩ := h
  exact (idle_openRound hr).walk.rest (idle_counted hw hu)

theorem Pivots.pivot_ok (h : Pivots budget c t u x y i) (ht : t.Sound ds) : ∃ w, u.pivot x y i.bound.value = .ok w := by
  obtain ⟨hr, -, hw, rfl, hp⟩ := h
  obtain ⟨r, hr', hopened, hqueued, hsorted⟩ := openRound_ok ht
  cases hr.symm.trans hr'
  obtain ⟨p, z, hz, -⟩ := round_ok ⟨ht.coherent.idle hopened.idle, hqueued, hsorted⟩
  rw [Solver.round, hw] at hz
  obtain ⟨q, hq, hz⟩ := bind_eq_ok.mp hz
  cases hq.symm.trans hp
  obtain ⟨w, hw, -⟩ := bind_eq_ok.mp hz
  exact ⟨w, hw⟩

/-- If the pivot has seen a conflict, the pass ends the search with one. -/
theorem Pivots.refutes (h : Pivots budget c t u x y i) (ht : t.Sound ds) (hw : u.pivot x y i.bound.value = .ok w)
    (hbefore : u.Unwarned) (hfound : w.foundConflict = true) :
    ∃ conflict, t.pass budget c = .ok (some (.unsat conflict), (budget.ask c).2, w.note .updateConflict) := by
  obtain ⟨j, hj, hblocked⟩ := (hbefore.pivot hw).2 hfound
  obtain ⟨hcoh, -⟩ := (h.walk.pivot hw).kept ht.coherent
  obtain ⟨hy, -⟩ := outside_of_violation? hj
  obtain ⟨answer, hanswer, -⟩ := conflictOf_ok hcoh.shaped hcoh.denotes hcoh.solves hy
  cases answer with
  | none => exact absurd hanswer (conflictOf_ne_none hj hblocked)
  | some conflict =>
    obtain ⟨hr, hask, htaken, hu, hp⟩ := h
    exact ⟨conflict, pass_of_round hr hask (RoundStep.round_eq (.refuted htaken hu hp hw hanswer))⟩

/-- A search that has come to the head of its loop once more goes on from there. -/
theorem Head.repairUpTo_eq (hh : Head budget s b k c t) (n : Nat) : s.repairUpTo (k + n) budget b = (do
    let r ← t.runRounds budget n c
    return (r.1, r.2.1, ← r.2.2.leaveRepair r.1)) := by
  induction hh generalizing n with
  | first he ht => rw [Nat.zero_add, repairUpTo_of_begin he ht]
  | next _ hp ih => rw [Nat.add_assoc, Nat.add_comm 1 n, ih (n + 1), runRounds_of_goes hp]

/-- What ends a pass at the head of the loop ends the search. -/
theorem Head.ends {conflict : Conflict τ} (hh : Head budget s b k c t) (ht : t.Sound ds)
    (hp : t.pass budget c = .ok (some (.unsat conflict), b', u)) (hkn : k < n) :
    ∃ z, s.repairUpTo n budget b = .ok (.unsat conflict, b', z) ∧ z.tally.pivots = u.tally.pivots := by
  obtain ⟨m, rfl⟩ : ∃ m, n = k + (m + 1) := ⟨n - k - 1, by omega⟩
  have hrun : t.runRounds budget (m + 1) c = .ok (.unsat conflict, b', u) := runRounds_of_ends hp
  obtain ⟨z, hz, -⟩ := leaveRepair_ok (runRounds_searched ht hrun)
  refine ⟨z, ?_, pivots_leaveRepair hz⟩
  rw [hh.repairUpTo_eq, hrun, ok_bind, hz]
  rfl

/-- Unless a pivot was asked for from outside, no pivot comes after a conflict has been seen. At every pivot of every search
    nothing has been seen yet; and if the pivot sees a conflict, the search answers one, without a further pivot. -/
theorem History.wastes_no_pivot (h : History settings Anywhere as s) (hno : ∀ l e v, Action.pivot l e v ∉ as) :
    s.Thrifty ∧ s.tally.pivotsAfterConflict = 0 ∧ s.tally.wastefulChecks = 0 ∧
      ∀ (β : Type) (budget : Budget β) b k c t, Head budget s b k c t → t.Unwarned ∧
        ∀ u x y i, Pivots budget c t u x y i → u.foundConflict = false ∧
          ∃ w, u.pivot x y i.bound.value = .ok w ∧ w.Thrifty ∧ (w.foundConflict = true →
            ∃ conflict, ∀ n, k < n → ∃ z, s.repairUpTo n budget b = .ok (.unsat conflict, (budget.ask c).2, z) ∧
              z.tally.pivots = w.tally.pivots) := by
  have hs := h.thrifty hno
  obtain ⟨hafter, hcheck⟩ := thrifty_iff.mp hs
  refine ⟨hs, hafter, hcheck, fun β budget b k c t hh => ⟨hh.unwarned hs, fun u x y i hpivots => ?_⟩⟩
  have ht := (hh.kept h.reached.sound).1
  have hbefore := hpivots.unwarned (hh.unwarned hs)
  obtain ⟨w, hw⟩ := hpivots.pivot_ok ht
  refine ⟨hbefore.calm, w, hw, (hbefore.pivot hw).1, fun hfound => ?_⟩
  obtain ⟨conflict, hpass⟩ := hpivots.refutes ht hw hbefore hfound
  refine ⟨conflict, fun n hkn => ?_⟩
  obtain ⟨z, hz, hsame⟩ := hh.ends ht hpass hkn
  exact ⟨z, hz, hsame.trans (pivots_note_of_ne w (by decide))⟩

/-- A search is interrupted after one pivot and goes on. Its second pivot sees that the row of the variable that it enters cannot be
    repaired, and is the last. -/
theorem History.wastes_no_pivot_of_sum : ∃ (as : List (Action Nat)) (s t u w z : Solver Nat) (i : Violation Nat)
    (conflict : Conflict Nat), History .standard Anywhere as s ∧ (∀ l e v, Action.pivot l e v ∉ as) ∧
      Head .unlimited s () 0 () t ∧ Pivots .unlimited () t u 0 1 i ∧ u.foundConflict = false ∧
      u.pivot 0 1 i.bound.value = .ok w ∧ w.foundConflict = true ∧
      s.repairUpTo 9 .unlimited () = .ok (.unsat conflict, (), z) ∧ z.tally.pivots = w.tally.pivots := by
  have hrun : (do
      let s ← (Solver.new .standard).addRow 2 [(0, 1), (1, 1)]
      let (_, s) ← s.assertBound .upper 0 (.ofRat 1) 0
      let (_, s) ← s.assertBound .upper 1 (.ofRat 1) 1
      let (_, s) ← s.assertBound .lower 2 (.ofRat 4) 2
      let (_, _, s) ← s.repairUpTo 9 .pivots 1
      let (early, t) ← s.beginRepair
      let r ← t.openRound
      let y ← { r.takeViolated.2 with rounds := r.takeViolated.2.rounds + 1 }.partner? 0 .upper
      let w ← { r.takeViolated.2 with rounds := r.takeViolated.2.rounds + 1 }.pivot 0 1 (.ofRat 1)
      return (r.takeViolated.1, y, [s.queue.isEmpty, early.isSome, w.foundConflict])) =
      (.ok (some (0, ⟨.upper, ⟨.ofRat 1, 0⟩⟩), some 1, [false, false, true]) :
        Except Fault (Option (Var × Violation Nat) × Option Var × List Bool)) := by decide +kernel
  obtain ⟨s₁, h₁, hrun⟩ := bind_eq_ok.mp hrun
  obtain ⟨⟨_, s₂⟩, h₂, hrun⟩ := bind_eq_ok.mp hrun
  obtain ⟨⟨_, s₃⟩, h₃, hrun⟩ := bind_eq_ok.mp hrun
  obtain ⟨⟨_, s₄⟩, h₄, hrun⟩ := bind_eq_ok.mp hrun
  obtain ⟨⟨o, left, s⟩, h₅, hrun⟩ := bind_eq_ok.mp hrun
  obtain ⟨⟨early, t⟩, ht, hrun⟩ := bind_eq_ok.mp hrun
  obtain ⟨r, hr, hrun⟩ := bind_eq_ok.mp hrun
  obtain ⟨y, hy, hrun⟩ := bind_eq_ok.mp hrun
  obtain ⟨w, hw, hrun⟩ := bind_eq_ok.mp hrun
  have hvalues := Except.ok.inj hrun
  simp only [Prod.mk.injEq, List.cons.injEq, and_true, Option.isSome_eq_false_iff, Option.isNone_iff_eq_none] at hvalues
  obtain ⟨htaken, rfl, hqueue, rfl, hfound⟩ := hvalues
  have hnew : History .standard Anywhere [] (Solver.new .standard : Solver Nat) := .new
  have hacts := ((((hnew.act (.addRow 2 [(0, 1), (1, 1)])
    (show (Solver.new _).addRow _ _ >>= _ = _ from bind_eq_ok.mpr ⟨s₁, h₁, rfl⟩) trivial).act
    (.assert (.bound .upper 0 (.ofRat 1) 0)) h₂ trivial).act (.assert (.bound .upper 1 (.ofRat 1) 1)) h₃ trivial).act
    (.assert (.bound .lower 2 (.ofRat 4) 2)) h₄ trivial).act (.search .pivots 1 9) (bind_eq_ok.mpr ⟨_, h₅, rfl⟩) trivial
  obtain ⟨as, hs, hno⟩ : ∃ as, History .standard Anywhere as s ∧ ∀ l e v, Action.pivot l e v ∉ as :=
    ⟨_, hacts, fun l e v hin => by simp at hin⟩
  obtain ⟨-, -, -, hsearch⟩ := hs.wastes_no_pivot hno
  have hh : Head .unlimited s () 0 () t := .first hqueue ht
  have hpivots : Pivots .unlimited () t _ 0 1 ⟨.upper, ⟨.ofRat 1, 0⟩⟩ :=
    .intro hr rfl (Prod.ext htaken rfl) rfl hy
  obtain ⟨hcalm, w', hw', -, hlast⟩ := (hsearch Unit .unlimited () 0 () t hh).2 _ 0 1 _ hpivots
  cases hw.symm.trans hw'
  obtain ⟨conflict, hunsat⟩ := hlast hfound
  obtain ⟨z, hz, hsame⟩ := hunsat 9 (by decide)
  exact ⟨as, s, t, _, w, z, _, conflict, hs, hno, hh, hpivots, hcalm, hw, hfound, hz, hsame⟩

end Solver

end LinReal
