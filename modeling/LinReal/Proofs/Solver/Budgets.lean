import LinReal.Proofs.Tally
import LinReal.Proofs.Solver.Passes
import LinReal.Proofs.Solver.Reached

/-! Budgets. A budget decides whether a search goes on and nothing else, so one that never stops a search leaves no trace. A
    budget of pivots is asked once for every pivot: the round after a question either makes one pivot or is the last. -/

namespace LinReal

/-! ### Counting pivots -/

theorem Tally.pivots_ofEvents (es : List Event) : (ofEvents es).pivots = es.count .pivot := counter_ofEvents es .pivot

namespace Solver

variable {τ β : Type} {s t u : Solver τ} {ds : List (Var × LinearForm)} {settings : Settings} {x l e : Var} {a : Rat}
  {v step : DeltaRat} {budget : Budget β} {b b' : β} {o : Outcome τ} {p : Option (Outcome τ)} {k m n left : Nat}

theorem pivots_of_record (h : t.record = s.record) : t.tally.pivots = s.tally.pivots := by
  rw [tally, log_of_record h, tally]

theorem pivots_note (s : Solver τ) (e : Event) : (s.note e).tally.pivots = s.tally.pivots + if e = .pivot then 1 else 0 := by
  rw [tally, tally, Tally.pivots_ofEvents, Tally.pivots_ofEvents, note, List.count_cons]
  simp only [beq_iff_eq]

theorem pivots_note_of_ne (s : Solver τ) {e : Event} (he : e ≠ .pivot) : (s.note e).tally.pivots = s.tally.pivots := by
  rw [pivots_note, if_neg he, Nat.add_zero]

/-! ### Pivots -/

theorem pivots_notePivot (s : Solver τ) : s.notePivot.tally.pivots = s.tally.pivots + 1 := by
  have hnote : (s.note .pivot).tally.pivots = s.tally.pivots + 1 := by rw [pivots_note, if_pos rfl]
  unfold notePivot
  simp only
  split
  · rw [pivots_note_of_ne _ (by decide)]
    split
    · rw [pivots_note_of_ne _ (by decide)]
      exact hnote
    · exact hnote
  · exact hnote

theorem pivots_pivot (h : s.pivot l e v = .ok t) : t.tally.pivots = s.tally.pivots + 1 := by
  obtain ⟨u, hu, ht⟩ := record_pivot h
  rw [pivots_of_record ht, pivots_notePivot, pivots_of_record hu]

/-! ### Rounds and passes -/

theorem pivots_counted {q : Option (Var × Violation τ)} (ht : s.takeViolated = (q, t))
    (hu : u = { t with rounds := t.rounds + 1 }) : u.tally.pivots = s.tally.pivots := by
  rw [hu, ← pivots_of_record (record_takeViolated ht)]
  rfl

theorem pivots_openRound (h : s.openRound = .ok t) : t.tally.pivots = s.tally.pivots := by
  rcases openRound_inv h with rfl | rfl
  · rfl
  · exact pivots_note_of_ne _ (by decide)

theorem pivots_leaveRepair (h : s.leaveRepair o = .ok t) : t.tally.pivots = s.tally.pivots := by
  cases o with
  | unsat c => exact pivots_of_record (s := s.report c) (record_leaveRepair_unsat h)
  | sat | interrupted => exact pivots_of_record (record_leaveRepair_of_ne h rfl)

/-- `left` is what remains of `n` pivots after a part of a search that ended with `p`, if it did. A part that goes on has
    spent as many of them as it made pivots; one that the budget stopped has nothing left. -/
structure Spent (n : Nat) (s : Solver τ) (p : Option (Outcome τ)) (left : Nat) (t : Solver τ) : Prop where
  least : s.tally.pivots ≤ t.tally.pivots
  most : t.tally.pivots ≤ s.tally.pivots + n
  goes : p = none → t.tally.pivots + left = s.tally.pivots + n
  stopped : p = some .interrupted → t.tally.pivots = s.tally.pivots + n ∧ left = 0

theorem Spent.trans (h₁ : Spent n s none k t) (h₂ : Spent k t p left u) : Spent n s p left u where
  least := h₁.least.trans h₂.least
  most := h₁.goes rfl ▸ h₂.most
  goes hp := (h₂.goes hp).trans (h₁.goes rfl)
  stopped hp := ⟨(h₂.stopped hp).1.trans (h₁.goes rfl), (h₂.stopped hp).2⟩

variable [DecidableEq τ]

/-- A round makes at most one pivot, and exactly one if the search goes on. -/
theorem pivots_round (h : s.round = .ok (p, t)) :
    ∃ k ≤ 1, t.tally.pivots = s.tally.pivots + k ∧ (p = none → k = 1) ∧ p ≠ some .interrupted := by
  cases round_inv h with
  | satisfied ht => exact ⟨0, Nat.zero_le 1, pivots_of_record (record_takeViolated ht), by rintro ⟨⟩, by rintro ⟨⟩⟩
  | blocked ht hu hp hc =>
    refine ⟨0, Nat.zero_le 1, ?_, by rintro ⟨⟩, by rintro ⟨⟩⟩
    rw [pivots_note_of_ne _ (by decide), pivots_counted ht hu]
    rfl
  | refuted ht hu hp hw hc =>
    refine ⟨1, Nat.le_refl 1, ?_, by rintro ⟨⟩, by rintro ⟨⟩⟩
    rw [pivots_note_of_ne _ (by decide), pivots_pivot hw, pivots_counted ht hu]
  | moved ht hu hp hw hc =>
    refine ⟨1, Nat.le_refl 1, ?_, fun _ => rfl, by rintro ⟨⟩⟩
    rw [pivots_pivot hw, pivots_counted ht hu]

/-- A pass asks the budget once. -/
theorem pass_spent (h : s.pass .pivots n = .ok (p, left, t)) : Spent n s p left t := by
  obtain ⟨hleft, hpass⟩ := pass_inv h
  cases hpass with
  | stopped hu hask =>
    obtain rfl : n = 0 := beq_iff_eq.mp hask
    have hsame := pivots_openRound hu
    exact ⟨hsame.ge, hsame.le, (by rintro ⟨⟩), fun _ => ⟨hsame, hleft⟩⟩
  | allowed hu hask ht =>
    have hpos : n ≠ 0 := ne_of_beq_false hask
    have hleft' : left = n - 1 := hleft
    obtain ⟨k, hk, hpivots, hgoes, hne⟩ := pivots_round ht
    rw [pivots_openRound hu] at hpivots
    refine ⟨by omega, by omega, fun hp => ?_, fun hp => absurd hp hne⟩
    have hone := hgoes hp
    omega

theorem runRounds_spent (h : s.runRounds .pivots m n = .ok (o, left, t)) : Spent n s (some o) left t := by
  induction m generalizing s n with
  | zero => cases h
  | succ m ih =>
    obtain ⟨⟨p, k, u⟩, hu, h⟩ := bind_eq_ok.mp h
    cases p with
    | none => exact (pass_spent hu).trans (ih h)
    | some p =>
      cases h
      exact pass_spent hu

/-! ### Whole searches -/

theorem pivots_earlyConflict {c : Option (Conflict τ)} (h : s.earlyConflict = .ok (c, t)) :
    t.tally.pivots = s.tally.pivots := by
  obtain ⟨u, answers, hu, -, -, rfl⟩ := earlyConflict_inv h
  rw [← pivots_of_record hu.record, tally, tally, Tally.pivots_ofEvents, Tally.pivots_ofEvents, List.count_append,
    count_scanNotes_of_ne (by decide) (by decide), Nat.zero_add]

theorem pivots_beginRepair {c : Option (Conflict τ)} (h : s.beginRepair = .ok (c, t)) :
    t.tally.pivots = s.tally.pivots := by
  unfold beginRepair at h
  simp only at h
  split at h
  · exact (pivots_earlyConflict h).trans rfl
  · cases h
    rfl

theorem repairUpTo_spent (h : s.repairUpTo m .pivots n = .ok (o, left, t)) : Spent n s (some o) left t := by
  cases repairUpTo_inv h with
  | idle he => exact ⟨Nat.le_refl _, Nat.le_add_right _ _, (by rintro ⟨⟩), (by rintro ⟨⟩)⟩
  | early he hu ht =>
    have hsame := (pivots_leaveRepair ht).trans (pivots_beginRepair hu)
    exact ⟨hsame.ge, hsame.le.trans (Nat.le_add_right _ _), (by rintro ⟨⟩), (by rintro ⟨⟩)⟩
  | passes he hu hw ht =>
    obtain ⟨hleast, hmost, -, hstopped⟩ := runRounds_spent hw
    have hbegin := pivots_beginRepair hu
    have hleave := pivots_leaveRepair ht
    rw [hbegin] at hleast hmost hstopped
    exact ⟨hleave ▸ hleast, hleave ▸ hmost, (by rintro ⟨⟩), hleave ▸ hstopped⟩

/-! ### The unlimited search -/

theorem pass_unlimited (h : s.pass budget b = .ok (p, b', t)) (hp : p ≠ some .interrupted) :
    s.pass .unlimited () = .ok (p, (), t) := by
  obtain ⟨-, hpass⟩ := pass_inv h
  cases hpass with
  | stopped hu hask => exact absurd rfl hp
  | allowed hu hask ht => exact pass_of_round hu rfl ht

theorem runRounds_unlimited (h : s.runRounds budget m b = .ok (o, b', t)) (ho : o ≠ .interrupted) :
    s.runRounds .unlimited m () = .ok (o, (), t) := by
  induction m generalizing s b with
  | zero => cases h
  | succ m ih =>
    obtain ⟨⟨p, c, u⟩, hu, h⟩ := bind_eq_ok.mp h
    cases p with
    | none =>
      exact (runRounds_of_goes (pass_unlimited hu (by rintro ⟨⟩))).trans (ih h)
    | some p =>
      cases h
      exact runRounds_of_ends (pass_unlimited hu fun hp => ho (Option.some.inj hp))

theorem repairUpTo_unlimited (h : s.repairUpTo m budget b = .ok (o, b', t)) (ho : o ≠ .interrupted) :
    s.repairUpTo m .unlimited () = .ok (o, (), t) := by
  cases repairUpTo_inv h with
  | idle he =>
    rw [repairUpTo, he]
    rfl
  | early he hu ht =>
    rw [repairUpTo_of_early he hu, ht]
    rfl
  | passes he hu hw ht =>
    rw [repairUpTo_of_begin he hu, runRounds_unlimited hw ho, ok_bind]
    simp only [ht, ok_bind]
    rfl

/-! ### Searches that may make a number of pivots -/

theorem runRounds_pivots_ok (h : s.Sound ds) (hnm : n < m) : ∃ r, s.runRounds .pivots m n = .ok r := by
  induction m generalizing s n with
  | zero => exact absurd hnm (Nat.not_lt_zero n)
  | succ m ih =>
    obtain ⟨p, left, u, hu, hsearched, hleft, hgoes, -⟩ := pass_ok h .pivots n
    rw [runRounds, hu, ok_bind]
    cases p with
    | none =>
      have hpos : n ≠ 0 := ne_of_beq_false (hgoes rfl).1
      have hleft' : left = n - 1 := hleft
      exact ih hsearched.sound (by omega)
    | some p => exact ⟨_, rfl⟩

theorem repairUpTo_pivots_ok (h : s.Sound ds) (hnm : n < m) : ∃ r, s.repairUpTo m .pivots n = .ok r := by
  cases he : s.queue.isEmpty with
  | true => exact ⟨_, by rw [repairUpTo, he]; rfl⟩
  | false =>
    obtain ⟨c, u, hu, hpaused, hqueued, hsorted, hsound⟩ := beginRepair_ok h
    have hkeeps := hpaused.idle.keeps h.coherent
    cases c with
    | some c =>
      obtain ⟨t, ht, -⟩ := leaveRepair_ok (hkeeps.unsat (hsound c rfl))
      exact ⟨_, by rw [repairUpTo_of_early he hu, ht]; rfl⟩
    | none =>
      have hus : u.Sound ds := ⟨hkeeps.coherent, hqueued, hsorted⟩
      obtain ⟨⟨o, left, w⟩, hw⟩ := runRounds_pivots_ok hus hnm
      obtain ⟨t, ht, -⟩ := leaveRepair_ok (runRounds_searched hus hw)
      exact ⟨(o, left, t), by rw [repairUpTo_of_begin he hu, hw, ok_bind, ht]; rfl⟩

/-- A budget that does not stop a search changes nothing, neither the answer nor the state nor what is on record. A search that
    may make `n` pivots ends; it makes at most `n`, and if it is interrupted exactly `n`, with a sound state and all violators
    queued. -/
theorem Reached.budget_neutral (h : Reached settings Anywhere ds s) :
    (∀ (β : Type) (budget : Budget β) b m o b' t, s.repairUpTo m budget b = .ok (o, b', t) → o ≠ .interrupted →
      s.repairUpTo m .unlimited () = .ok (o, (), t)) ∧
    ∀ n, (∀ m, n < m → ∃ r, s.repairUpTo m .pivots n = .ok r) ∧
      ∀ m o left t, s.repairUpTo m .pivots n = .ok (o, left, t) →
        s.tally.pivots ≤ t.tally.pivots ∧ t.tally.pivots ≤ s.tally.pivots + n ∧
        (o = .interrupted → t.tally.pivots = s.tally.pivots + n ∧ left = 0 ∧ t.audit = .ok none ∧
          ∀ x, t.isBasic x = true → ¬t.Within x → x ∈ t.queue.order) := by
  have hs := h.sound
  refine ⟨fun β budget b m o b' t ht ho => repairUpTo_unlimited ht ho, fun n => ⟨?_, fun m o left t ht => ?_⟩⟩
  · exact fun m hnm => repairUpTo_pivots_ok hs hnm
  · have hspent := repairUpTo_spent ht
    refine ⟨hspent.least, hspent.most, fun ho => ?_⟩
    have hsound := (repairUpTo_searched hs ht).2
    obtain ⟨hall, hleft⟩ := hspent.stopped (congrArg some ho)
    exact ⟨hall, hleft, audit_eq_none hsound.coherent, hsound.queued⟩

/-- A search that may make one pivot is interrupted before it sees that this was the last; one that may make five is the unlimited
    search. -/
theorem Reached.budget_neutral_of_sum : ∃ (s t u : Solver Nat) (left : Nat),
    Reached .standard Anywhere [(2, [(0, 1), (1, 1)])] s ∧ s.repairUpTo 9 .pivots 1 = .ok (.interrupted, 0, t) ∧
      t.tally.pivots = s.tally.pivots + 1 ∧ t.audit = .ok none ∧ s.repairUpTo 9 .pivots 5 = .ok (.sat, left, u) ∧
      s.repairUpTo 9 .unlimited () = .ok (.sat, (), u) := by
  have hrun : (do
      let s ← (Solver.new .standard).addRow 2 [(0, 1), (1, 1)]
      let (_, s) ← s.assertBound .lower 2 (.ofRat 2) 0
      let (_, s) ← s.assertBound .upper 0 (.ofRat 0) 1
      let (o, left, _) ← s.repairUpTo 9 .pivots 1
      let (p, _, _) ← s.repairUpTo 9 .pivots 5
      return (o, left, p)) = (.ok (.interrupted, 0, .sat) : Except Fault (Outcome Nat × Nat × Outcome Nat)) := by
    decide +kernel
  obtain ⟨s₁, h₁, hrun⟩ := bind_eq_ok.mp hrun
  obtain ⟨⟨_, s₂⟩, h₂, hrun⟩ := bind_eq_ok.mp hrun
  obtain ⟨⟨_, s₃⟩, h₃, hrun⟩ := bind_eq_ok.mp hrun
  obtain ⟨⟨o, _, t⟩, ht, hrun⟩ := bind_eq_ok.mp hrun
  obtain ⟨⟨p, left, u⟩, hu, hanswers⟩ := bind_eq_ok.mp hrun
  cases hanswers
  have hs : Reached .standard Anywhere [(2, [(0, 1), (1, 1)])] s₃ :=
    .call (.call (.call .new (.addRow _ _ h₁)) (.assertBound _ _ _ _ h₂)) (.assertBound _ _ _ _ h₃)
  obtain ⟨hneutral, hlimited⟩ := hs.budget_neutral
  obtain ⟨hpivots, -, haudit, -⟩ := ((hlimited 1).2 9 _ _ _ ht).2.2 rfl
  exact ⟨s₃, t, u, left, hs, ht, hpivots, haudit, hu, hneutral Nat .pivots 5 9 _ _ _ hu (by rintro ⟨⟩)⟩

end Solver

end LinReal
