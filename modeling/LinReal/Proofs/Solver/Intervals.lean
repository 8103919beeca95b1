import LinReal.Proofs.Solver.Reports
import Mathlib.Order.Interval.Set.Defs

/-! Assertions and intervals. The bounds of a variable leave it an interval, and what is asserted of it is another one. An assertion
    either finds that the two do not meet, and then changes nothing but the record; or it leaves the variable exactly what they have
    in common. No interval is ever empty, for a bound never crosses the one on the other side. -/

namespace LinReal

/-- The values that the bounds of `x` leave it. -/
def Bounds.interval {τ : Type} (b : Bounds τ) (x : Var) : Set DeltaRat :=
  {v | (∀ l, b .lower x = some l → l.value ≤ v) ∧ ∀ u, b .upper x = some u → v ≤ u.value}

/-- The values that are as asserted. -/
def Assertion.range {τ : Type} : Assertion τ → Set DeltaRat
  | .bound .lower _ c _ => Set.Ici c
  | .bound .upper _ c _ => Set.Iic c
  | .equal _ c _ => {c}

namespace Bounds

variable {τ : Type} {b : Bounds τ} {x : Var} {v : DeltaRat}

theorem mem_interval : v ∈ b.interval x ↔ b.Admits x v := by
  rw [Admits, Side.forall_iff]
  simp only [interval, Set.mem_ofPred_eq, Side.outside, decide_eq_false_iff_not, not_lt]

end Bounds

namespace Assertion

variable {τ : Type} {a : Assertion τ} {v : DeltaRat}

theorem mem_range : v ∈ a.range ↔ ∀ side, a.Limits side → side.outside v a.value = false := by
  have hholds : v ∈ a.range ↔ a.Holds fun _ => v := by
    cases a with
    | bound side x c token =>
      cases side <;> simp only [range, Holds, Side.outside, Set.mem_Ici, Set.mem_Iic, decide_eq_false_iff_not, not_lt]
    | equal x c token => exact Iff.rfl
  exact hholds.trans holds_iff

theorem exists_limits (a : Assertion τ) : ∃ side, a.Limits side := by
  cases a with
  | bound side x c token => exact ⟨side, rfl⟩
  | equal x c token => exact ⟨.lower, trivial⟩

end Assertion

namespace Solver

variable {τ : Type} {s t : Solver τ} {ds : List (Var × LinearForm)} {a : Assertion τ} {side : Side} {v : DeltaRat}
  {token : τ} {slot : Slot τ}

/-! ### Refusals -/

theorem scopes_register (s : Solver τ) (x : Var) : (s.register x).store.scopes = s.store.scopes := by
  unfold register
  split <;> rfl

variable [DecidableEq τ] {c : Conflict τ} {answer : Option (Conflict τ)}

theorem clash_eq_some_iff : clash slot side v token = some c ↔
    ∃ l, slot.bound? side = some l ∧ side.outside v l.value = true ∧ c = .ofTokens [l.token, token] := by
  simp only [clash, Option.map_eq_some_iff, Option.filter_eq_some_iff, and_assoc, eq_comm (a := c)]

/-- The asserted value lies outside a bound on the other side, and the conflict names that bound and the assertion. -/
def Opposes (s : Solver τ) (a : Assertion τ) (c : Conflict τ) : Prop :=
  ∃ side l, a.Limits side.opposite ∧ s.store.bounds side a.var = some l ∧ side.outside a.value l.value = true ∧
    c = .ofTokens [l.token, a.token]

/-- The assertion `a` is refused with the conflict `c`. Its variable is announced, if it was not before; bounds, scopes, values, rows
    and queue stay, and the conflict is the only one that is reported. -/
structure Refused (s t : Solver τ) (a : Assertion τ) (c : Conflict τ) : Prop where
  state : t = ((s.register a.var).note a.refusal).report c
  bounds : t.store.bounds = s.store.bounds
  scopes : t.store.scopes = s.store.scopes
  values : ∀ y, s.isRegistered y = true → t.store.value y = s.store.value y ∧ t.store.safe y = s.store.safe y
  row : ∀ y, t.tableau.row? y = s.tableau.row? y
  queue : t.queue = s.queue
  reported : t.reported = c :: s.reported
  opposes : s.Opposes a c

theorem refused_of_assert (h : s.Coherent ds) (ht : a.apply s = .ok (some c, t)) : Refused s t a c := by
  have hann := h.announced_register a.var
  have hreported := (recorded_assert ht).reported
  cases Assertion.apply_inv ht with
  | refused hslot hc hlimits =>
    obtain ⟨l, hl, hout, hc⟩ := clash_eq_some_iff.mp hc
    rw [← Store.bounds_of_get? (Store.slot_eq_ok_iff.mp hslot), hann.carries.bounds] at hl
    exact ⟨rfl, hann.carries.bounds, scopes_register s a.var, fun y hy => values_register hy a.var, hann.row, hann.queue, hreported,
      _, l, hlimits, hl, hout, hc⟩

/-- What opposes an assertion leaves it nothing. -/
theorem Opposes.disjoint (h : s.Opposes a c) : s.store.bounds.interval a.var ∩ a.range = ∅ := by
  obtain ⟨side, l, hlimits, hl, hout, -⟩ := h
  refine Set.eq_empty_iff_forall_notMem.mpr fun v ⟨hv, hasserted⟩ => ?_
  have hin := Bounds.mem_interval.mp hv side l hl
  have hreached := Side.outside_eq_false_iff.mp (Assertion.mem_range.mp hasserted _ hlimits)
  rw [Side.reached_opposite, Side.reached_opposite] at hreached
  rw [Side.outside_of_reached hreached hout] at hin
  cases hin

/-! ### Narrowing -/

/-- The assertion `a` is accepted: its variable keeps what its interval has in common with what is asserted, and lies there unless
    it is basic. The bounds of the other variables stay, and nothing is reported. -/
structure Narrowed (s t : Solver τ) (a : Assertion τ) : Prop where
  interval : t.store.bounds.interval a.var = s.store.bounds.interval a.var ∩ a.range
  nonempty : (t.store.bounds.interval a.var).Nonempty
  other : ∀ side y, y ≠ a.var → t.store.bounds side y = s.store.bounds side y
  within : t.isBasic a.var = false → t.store.value a.var ∈ t.store.bounds.interval a.var
  reported : t.reported = s.reported

theorem narrowed_of_assert (h : s.Sound ds) (hset : s.Settled) (ht : a.apply s = .ok (none, t)) : Narrowed s t a := by
  obtain ⟨answer, t', ht', hasserted⟩ := a.apply_ok h
  cases ht.symm.trans ht'
  have himposed := hasserted.imposed rfl
  obtain ⟨side, hlimits⟩ := a.exists_limits
  obtain ⟨l, hl, -⟩ := himposed.holds side hlimits
  refine ⟨?_, ⟨l.value, ?_⟩, fun side y hy => himposed.other fun hn => hy hn.2, fun hx => ?_, (recorded_assert ht).reported⟩
  · ext v
    rw [Set.mem_inter_iff, Bounds.mem_interval, Bounds.mem_interval, Assertion.mem_range]
    exact himposed.admits_iff
  · exact Bounds.mem_interval.mpr (hasserted.sound.coherent.disciplined.ordered.admits hl)
  · exact Bounds.mem_interval.mpr (hasserted.settled hset a.var hx)

variable {settings : Settings}

/-- Lower bounds do not exceed upper bounds; and an assertion is refused exactly if the interval of its variable and what it asserts
    have nothing in common. Then it changes nothing but the record. Else it leaves the variable what they have in common. -/
theorem Reached.intersects (h : Reached settings WithinBounds ds s) :
    s.store.bounds.Ordered ∧
    ∀ a : Assertion τ, ∃ answer t, a.apply s = .ok (answer, t) ∧
      (answer.isSome = true ↔ s.store.bounds.interval a.var ∩ a.range = ∅) ∧
      (∀ c, answer = some c → Refused s t a c) ∧ (answer = none → Narrowed s t a) := by
  have hs := h.sound
  refine ⟨hs.coherent.disciplined.ordered, fun a => ?_⟩
  obtain ⟨answer, t, ht, -⟩ := a.apply_ok hs
  refine ⟨answer, t, ht, ?_, fun c hc => refused_of_assert hs.coherent (hc ▸ ht),
    fun hn => narrowed_of_assert hs h.settled (hn ▸ ht)⟩
  cases answer with
  | some c => exact iff_of_true rfl (refused_of_assert hs.coherent ht).opposes.disjoint
  | none =>
    have hnarrowed := narrowed_of_assert hs h.settled ht
    exact iff_of_false Bool.false_ne_true (hnarrowed.interval ▸ hnarrowed.nonempty).ne_empty

/-- A variable between one and three cannot be five; it can be at least two, and moves there. -/
theorem Reached.intersects_of_limits : ∃ (s t u : Solver Nat) (c : Conflict Nat),
    Reached .standard WithinBounds [(2, [(0, 1), (1, 1)])] s ∧
      (Assertion.equal 0 (.ofRat 5) 7).apply s = .ok (some c, t) ∧ c.tokens = [0, 7] ∧
      Refused s t (.equal 0 (.ofRat 5) 7) c ∧
      (Assertion.bound .lower 0 (.ofRat 2) 8).apply s = .ok (none, u) ∧ u.store.value 0 = .ofRat 2 ∧
      Narrowed s u (.bound .lower 0 (.ofRat 2) 8) := by
  have hrun : (do
      let s ← (Solver.new .standard).addRow 2 [(0, 1), (1, 1)]
      let (_, s) ← s.assertBound .upper 0 (.ofRat 3) 0
      let (_, s) ← s.assertBound .lower 0 (.ofRat 1) 1
      let (refused, _) ← s.assertEqual 0 (.ofRat 5) 7
      let (accepted, u) ← s.assertBound .lower 0 (.ofRat 2) 8
      return (refused, accepted, u.store.value 0)) =
      (.ok (some ⟨[0, 7]⟩, none, .ofRat 2) :
        Except Fault (Option (Conflict Nat) × Option (Conflict Nat) × DeltaRat)) := by decide +kernel
  obtain ⟨s₁, h₁, hrun⟩ := bind_eq_ok.mp hrun
  obtain ⟨⟨_, s₂⟩, h₂, hrun⟩ := bind_eq_ok.mp hrun
  obtain ⟨⟨_, s⟩, h₃, hrun⟩ := bind_eq_ok.mp hrun
  obtain ⟨⟨refused, t⟩, ht, hrun⟩ := bind_eq_ok.mp hrun
  obtain ⟨⟨accepted, u⟩, hu, hrun⟩ := bind_eq_ok.mp hrun
  have hvalues := Except.ok.inj hrun
  simp only [Prod.mk.injEq] at hvalues
  obtain ⟨rfl, rfl, hvalue⟩ := hvalues
  have hs : Reached .standard WithinBounds [(2, [(0, 1), (1, 1)])] s :=
    .call (.call (.call .new (.addRow _ _ h₁)) (.assertBound _ _ _ _ h₂)) (.assertBound _ _ _ _ h₃)
  obtain ⟨answer, t', ht', -, hrefused, -⟩ := hs.intersects.2 (.equal 0 (.ofRat 5) 7)
  cases ht'.symm.trans ht
  obtain ⟨answer, u', hu', -, -, hnarrowed⟩ := hs.intersects.2 (.bound .lower 0 (.ofRat 2) 8)
  cases hu'.symm.trans hu
  exact ⟨s, t, u, _, hs, ht, rfl, hrefused _ rfl, hu, hvalue, hnarrowed rfl⟩

end Solver

end LinReal
