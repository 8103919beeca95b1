import LinReal.Proofs.Solver.Histories

/-! Tokens of bounds. A bound stays, with its token, until its scope is closed or an assertion replaces it. What is asserted on one
    side replaces only a bound that is strictly looser. An asserted value replaces both bounds as soon as one of them is strictly
    looser; so a bound that has this value already may get the token of an assertion that adds nothing to it. -/

namespace LinReal

theorem Side.eq_of_reached {side : Side} {v w : DeltaRat} (h : side.reached v w = true) (h' : side.reached w v = true) :
    v = w := by
  cases side with
  | lower => exact le_antisymm (of_decide_eq_true h) (of_decide_eq_true h')
  | upper => exact le_antisymm (of_decide_eq_true h') (of_decide_eq_true h)

theorem Side.eq_opposite_of_ne {side side' : Side} (h : side' ≠ side) : side' = side.opposite := by
  cases side <;> cases side' <;> trivial

/-- `c` has a bound on this side of `x`, which is strictly tighter than that of `b`, if `b` has one. -/
def Bounds.Tightened {τ : Type} (b c : Bounds τ) (side : Side) (x : Var) : Prop :=
  ∃ l, c side x = some l ∧ ∀ old, b side x = some old → side.outside old.value l.value = true

namespace Solver

variable {τ : Type} {s t : Solver τ} {answer : Option (Conflict τ)} {ds : List (Var × LinearForm)}
  {settings : Settings} {a : Assertion τ} {side : Side} {x : Var} {slot : Slot τ}

/-- On a side where the bound has not reached what is asserted, the bound becomes strictly tighter. -/
theorem tightened_of_not_reached (himposed : s.store.bounds.Imposed t.store.bounds a.Limits a.var a.value a.token)
    (hslot : s.store.slots.get? a.var = some slot) (hlimits : a.Limits side) (hn : slot.reached side a.value = false) :
    s.store.bounds.Tightened t.store.bounds side a.var := by
  obtain ⟨l, hl, hreached⟩ := himposed.holds side hlimits
  refine ⟨l, hl, fun old hold => ?_⟩
  have hlooser : side.reached a.value old.value = false := by
    by_contra hr
    rw [(reached_iff hslot).mpr ⟨old, hold, by simpa using hr⟩] at hn
    cases hn
  rw [← Side.reached_opposite] at hreached
  rw [← Side.outside_opposite]
  exact Side.outside_of_reached hreached (Side.reached_eq_false_iff.mp hlooser)

/-- A bound that has reached what is asserted, and is replaced all the same, has the asserted value already. -/
theorem value_of_reached (himposed : s.store.bounds.Imposed t.store.bounds a.Limits a.var a.value a.token)
    (hslot : s.store.slots.get? a.var = some slot) (hr : slot.reached side a.value = true)
    (hl : t.store.bounds side a.var = some ⟨a.value, a.token⟩) :
    ∃ old, s.store.bounds side a.var = some ⟨a.value, old⟩ := by
  obtain ⟨⟨value, token⟩, hold, hreached⟩ := (reached_iff hslot).mp hr
  obtain ⟨l, hl', hlooser⟩ := himposed.tightens side a.var _ hold
  cases hl.symm.trans hl'
  exact ⟨token, Side.eq_of_reached hreached hlooser ▸ hold⟩

variable [DecidableEq τ]

/-- The ways in which a call replaces the bound on a side of `x`. -/
inductive Replaced (s t : Solver τ) (side : Side) (x : Var) : Action τ → Prop where
  | restored : Replaced s t side x .pop
  | tightened {a : Assertion τ} {l : Bound τ} (hsets : a.Sets side x l) (hl : t.store.bounds side x = some l)
      (htight : s.store.bounds.Tightened t.store.bounds side x) : Replaced s t side x (.assert a)
  /-- The asserted value is that of the bound, and strictly tighter than the bound on the other side. -/
  | resigned {v : DeltaRat} {old token : τ} (hold : s.store.bounds side x = some ⟨v, old⟩)
      (hl : t.store.bounds side x = some ⟨v, token⟩)
      (htight : s.store.bounds.Tightened t.store.bounds side.opposite x) : Replaced s t side x (.assert (.equal x v token))

/-- An assertion replaces the bound on a side only if it is strictly tighter there, or if it asserts the value of that bound and is
    strictly tighter on the other side. -/
theorem replaced_of_assert (h : s.Sound ds) (ht : a.apply s = .ok (answer, t)) (side : Side) (x : Var) :
    t.store.bounds side x = s.store.bounds side x ∨ Replaced s t side x (.assert a) := by
  obtain ⟨answer', t', ht', hasserted⟩ := a.apply_ok h
  cases ht.symm.trans ht'
  have hbounds := (h.coherent.announced_register a.var).carries.bounds
  cases Assertion.apply_inv ht with
  | redundant hslot hreached => exact Or.inl (congrFun (congrFun hbounds side) x)
  | refused hslot hc hlimits => exact Or.inl (congrFun (congrFun hbounds side) x)
  | @narrowed slot store t move hslot htighter hopen hstore hmove =>
    have himposed := hasserted.imposed rfl
    have hget := Store.slot_eq_ok_iff.mp hslot
    cases hl : t.store.bounds side x with
    | none =>
      left
      cases hold : s.store.bounds side x with
      | none => rfl
      | some old =>
        obtain ⟨l, hl', -⟩ := himposed.tightens side x old hold
        cases hl.symm.trans hl'
    | some l =>
      rcases himposed.origin side x l hl with hold | ⟨hlimits, rfl, rfl⟩
      · exact Or.inl hold.symm
      right
      rw [← hbounds] at himposed
      cases hr : slot.reached side a.value with
      | false =>
        have htight := tightened_of_not_reached (s := s.register a.var) himposed hget hlimits hr
        exact .tightened ⟨hlimits, rfl, rfl⟩ hl (hbounds ▸ htight)
      | true =>
        -- Some side was not reached, so it is the other one, and only an asserted value limits both.
        obtain ⟨other, hother, hlooser⟩ := htighter
        have hne : other ≠ side := by
          rintro rfl
          cases hr.symm.trans hlooser
        have htight := tightened_of_not_reached (s := s.register a.var) himposed hget hother hlooser
        rw [Side.eq_opposite_of_ne hne, hbounds] at htight
        obtain ⟨old, hold⟩ := value_of_reached (s := s.register a.var) himposed hget hr hl
        rw [hbounds] at hold
        cases a with
        | bound side' y v token => exact absurd (Eq.trans hother hlimits.symm) hne
        | equal y v token => exact .resigned hold hl htight

/-- The bound on a side of a variable is replaced only when a scope is closed, by a strictly tighter bound, or by one of the same
    value, when this value is asserted and is strictly tighter on the other side. -/
theorem Reached.replaces_bounds (h : Reached settings Anywhere ds s) {a : Action τ} (ht : a.apply s = .ok (answer, t))
    (side : Side) (x : Var) : t.store.bounds side x = s.store.bounds side x ∨ Replaced s t side x a := by
  rcases a.carries h.sound ht with ⟨b, rfl⟩ | rfl | rfl | hc
  · exact replaced_of_assert h.sound ht side x
  · cases ht
    exact Or.inl rfl
  · exact Or.inr .restored
  · exact Or.inl (congrFun (congrFun hc.bounds side) x)

/-- A variable between two and five is asserted to be two: its upper bound becomes strictly tighter. -/
theorem Reached.replaces_bounds_of_limits : ∃ s t : Solver Nat, Reached .standard Anywhere [] s ∧
    (Action.assert (.equal 0 (.ofRat 2) 7)).apply s = .ok (none, t) ∧ s.store.bounds .upper 0 = some ⟨.ofRat 5, 1⟩ ∧
    t.store.bounds .upper 0 = some ⟨.ofRat 2, 7⟩ ∧ Replaced s t .upper 0 (.assert (.equal 0 (.ofRat 2) 7)) := by
  have hrun : (do
      let (_, s) ← (Solver.new .standard).assertBound .lower 0 (.ofRat 2) 0
      let (_, s) ← s.assertBound .upper 0 (.ofRat 5) 1
      let (answer, t) ← s.assertEqual 0 (.ofRat 2) 7
      return (s.store.bounds .upper 0, answer, t.store.bounds .upper 0)) =
      (.ok (some ⟨.ofRat 5, 1⟩, none, some ⟨.ofRat 2, 7⟩) :
        Except Fault (Option (Bound Nat) × Option (Conflict Nat) × Option (Bound Nat))) := by decide +kernel
  obtain ⟨⟨_, s₁⟩, h₁, hrun⟩ := bind_eq_ok.mp hrun
  obtain ⟨⟨_, s⟩, h₂, hrun⟩ := bind_eq_ok.mp hrun
  obtain ⟨⟨answer, t⟩, ht, hrun⟩ := bind_eq_ok.mp hrun
  have hbounds := Except.ok.inj hrun
  simp only [Prod.mk.injEq] at hbounds
  obtain ⟨hold, rfl, hnew⟩ := hbounds
  have hs : Reached .standard Anywhere [] s := .call (.call .new (.assertBound _ _ _ _ h₁)) (.assertBound _ _ _ _ h₂)
  refine ⟨s, t, hs, ht, hold, hnew, (hs.replaces_bounds (a := .assert (.equal 0 (.ofRat 2) 7)) ht .upper 0).resolve_left ?_⟩
  rw [hold, hnew]
  decide

/-- A variable that is at least two is asserted to be two: its lower bound gets another token, and no other value. -/
theorem Reached.resigns_bound : ∃ s t : Solver Nat, Reached .standard Anywhere [] s ∧
    (Assertion.equal 0 (.ofRat 2) 1).apply s = .ok (none, t) ∧ s.store.bounds .lower 0 = some ⟨.ofRat 2, 0⟩ ∧
    t.store.bounds .lower 0 = some ⟨.ofRat 2, 1⟩ ∧ ¬s.store.bounds.Tightened t.store.bounds .lower 0 := by
  have hrun : (do
      let (_, s) ← (Solver.new .standard).assertBound .lower 0 (.ofRat 2) 0
      let (answer, t) ← s.assertEqual 0 (.ofRat 2) 1
      return (s.store.bounds .lower 0, answer, t.store.bounds .lower 0)) =
      (.ok (some ⟨.ofRat 2, 0⟩, none, some ⟨.ofRat 2, 1⟩) :
        Except Fault (Option (Bound Nat) × Option (Conflict Nat) × Option (Bound Nat))) := by decide +kernel
  obtain ⟨⟨_, s⟩, h₁, hrun⟩ := bind_eq_ok.mp hrun
  obtain ⟨⟨answer, t⟩, ht, hrun⟩ := bind_eq_ok.mp hrun
  have hbounds := Except.ok.inj hrun
  simp only [Prod.mk.injEq] at hbounds
  obtain ⟨hold, rfl, hnew⟩ := hbounds
  refine ⟨s, t, .call .new (.assertBound _ _ _ _ h₁), ht, hold, hnew, ?_⟩
  rintro ⟨l, hl, htight⟩
  cases hnew.symm.trans hl
  cases (htight _ hold).symm.trans (Side.outside_self _ _)

end Solver

end LinReal
