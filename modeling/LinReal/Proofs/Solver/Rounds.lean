import LinReal.Solver.Repair
import LinReal.Proofs.Solver.Audits

/-! Rounds. A round takes a violated variable from the queue and moves it onto its bound. It keeps the invariant if it goes
    on; it ends with a state in which no basic variable lies outside its bounds, or with a sound conflict. In the
    anti-cycle stage it takes the smallest violated variable and the smallest eligible partner. -/

namespace LinReal.Solver

variable {τ : Type} {s t u : Solver τ} {ds : List (Var × LinearForm)} {x y : Var} {v : Violation τ} {c : Conflict τ}
  {o : Option (Outcome τ)}

/-- What a part of a search keeps. -/
structure Keeps (ds : List (Var × LinearForm)) (s t : Solver τ) : Prop where
  coherent : t.Coherent ds
  carries : Carries s t
  settled : s.Settled → t.Settled
  settings : t.settings = s.settings
  registered : t.registered = s.registered

theorem Keeps.trans (h₁ : Keeps ds s t) (h₂ : Keeps ds t u) : Keeps ds s u where
  coherent := h₂.coherent
  carries := h₁.carries.trans h₂.carries
  settled := h₂.settled ∘ h₁.settled
  settings := h₂.settings.trans h₁.settings
  registered := h₂.registered.trans h₁.registered

theorem Idle.keeps (hi : Idle s t) (h : s.Coherent ds) : Keeps ds s t :=
  ⟨h.idle hi, hi.carries, hi.settled, hi.settings, hi.registered⟩

theorem Pivoted.keeps {w : DeltaRat} (hp : Pivoted s t x y w) (h : s.Coherent ds) (ht : t.Shaped)
    (hw : s.store.bounds.Admits x w) : Keeps ds s t :=
  ⟨hp.coherent h ht, hp.frame.carries, hp.settled h.shaped hw, hp.frame.settings, hp.frame.registered⟩

/-- What a part of a search has shown, given how it ended, if it did. -/
structure Searched (ds : List (Var × LinearForm)) (s t : Solver τ) (o : Option (Outcome τ)) : Prop where
  keeps : Keeps ds s t
  sat : o = some .sat → ∀ x, t.isBasic x = true → t.Within x
  unsat : ∀ c, o = some (.unsat c) → c.Sound ds t.store.bounds [] fun _ => True
  goes : o = none ∨ o = some .interrupted → t.Queued ∧ t.queue.Sorted

theorem Searched.sound (h : Searched ds s t none) : t.Sound ds :=
  ⟨h.keeps.coherent, (h.goes (Or.inl rfl)).1, (h.goes (Or.inl rfl)).2⟩

theorem Searched.trans {p : Option (Outcome τ)} (h₁ : Searched ds s t p) (h₂ : Searched ds t u o) : Searched ds s u o :=
  ⟨h₁.keeps.trans h₂.keeps, h₂.sat, h₂.unsat, h₂.goes⟩

theorem Keeps.sat (h : Keeps ds s t) (hall : ∀ x, t.isBasic x = true → t.Within x) : Searched ds s t (some .sat) :=
  ⟨h, fun _ => hall, fun _ hc => (by cases hc), fun ho => by rcases ho with ho | ho <;> cases ho⟩

theorem Keeps.unsat (h : Keeps ds s t) (hc : c.Sound ds t.store.bounds [] fun _ => True) :
    Searched ds s t (some (.unsat c)) :=
  ⟨h, fun ho => (by cases ho), fun c' hc' => (by cases hc'; exact hc), fun ho => by rcases ho with ho | ho <;> cases ho⟩

theorem Keeps.goes (h : Keeps ds s t) (hq : t.Queued) (hs : t.queue.Sorted) (ho : o = none ∨ o = some .interrupted) :
    Searched ds s t o :=
  ⟨h, fun h => (by rcases ho with rfl | rfl <;> cases h), fun _ h => (by rcases ho with rfl | rfl <;> cases h),
    fun _ => ⟨hq, hs⟩⟩

/-! ### The violated variable -/

/-- Either no basic variable lies outside its bounds, or one that does is taken, and the others remain queued. -/
theorem takeViolated_cases (hq : s.Queued) (hs : s.queue.Sorted) :
    (s.takeViolated = (none, { s with queue := s.queue.cleared }) ∧ ∀ x, s.isBasic x = true → s.Within x) ∨
      ∃ x v q, s.takeViolated = (some (x, v), { s with queue := q }) ∧ s.violation? x = some v ∧
        q.stage = s.queue.stage ∧ q.Sorted ∧ (∀ y, y ≠ x → s.isBasic y = true → ¬s.Within y → y ∈ q.order) ∧
        (s.queue.stage = .antiCycle → ∀ z < x, s.isBasic z = true → s.Within z) := by
  unfold takeViolated
  cases hp : (s.queue.dropUntil fun x => (s.violation? x).isSome).pop with
  | none =>
    refine Or.inl ⟨rfl, fun x hx => ?_⟩
    by_contra hn
    have hv := RepairQueue.not_wanted_of_pop_eq_none hp (hq x hx hn)
    rw [isSome_violation?_iff.mpr ⟨hx, hn⟩] at hv
    cases hv
  | some p =>
    obtain ⟨x, q⟩ := p
    obtain ⟨hwanted, -, hkeep⟩ := RepairQueue.taken hp
    obtain ⟨hstage, hsorted, hleast⟩ := RepairQueue.sorted_pop (RepairQueue.sorted_dropUntil _ hs) hp
    rw [RepairQueue.stage_dropUntil] at hstage hleast
    obtain ⟨v, hv⟩ := Option.isSome_iff_exists.mp hwanted
    refine Or.inr ⟨x, v, q, by simp only [hv, Option.map_some], hv, hstage, hsorted, fun y hyx hy hn => ?_, fun hst z hz hzb => ?_⟩
    · exact (hkeep y (hq y hy hn) (isSome_violation?_iff.mpr ⟨hy, hn⟩)).resolve_left hyx
    · by_contra hn
      rcases hkeep z (hq z hzb hn) (isSome_violation?_iff.mpr ⟨hzb, hn⟩) with rfl | hin
      · exact Nat.lt_irrefl _ hz
      · exact absurd (hleast hst z hin) (Nat.not_le.mpr hz)

/-! ### One round -/

/-- The round that moves `x` onto the bound `v` that it violates, by an exchange with `y`. -/
structure Repaired (s t : Solver τ) (x : Var) (v : Violation τ) (y : Var) : Prop where
  violation : s.violation? x = some v
  row : ∃ f a, s.tableau.row? x = some f ∧ (y, a) ∈ f ∧ s.isEligible v.side y a = true ∧
    (s.queue.stage = .antiCycle → ∀ e ∈ f, e.1 < y → s.isEligible v.side e.1 e.2 = false)
  least : s.queue.stage = .antiCycle → ∀ z < x, s.isBasic z = true → s.Within z
  pivoted : ∃ q, q.stage = s.queue.stage ∧ Pivoted { s with queue := q, rounds := s.rounds + 1 } t x y v.bound.value

variable [DecidableEq τ]

/-- A round that goes on is a repair of the violated variable. -/
theorem round_ok (h : s.Sound ds) :
    ∃ o t, s.round = .ok (o, t) ∧ Searched ds s t o ∧ o ≠ some .interrupted ∧
      (o = none → ∃ x v y, Repaired s t x v y) := by
  rcases takeViolated_cases h.queued h.sorted with ⟨htake, hall⟩ | ⟨x, v, q, htake, hv, hstage, hsorted, hq, hleast⟩
  · have hidle : Idle s { s with queue := s.queue.cleared } := ⟨rfl, rfl, rfl, rfl⟩
    exact ⟨some .sat, _, by rw [round, htake], (hidle.keeps h.coherent).sat hall, (by rintro ⟨⟩), fun hn => by cases hn⟩
  obtain ⟨hx, hbound, hout⟩ := bounds_of_violation? hv
  obtain ⟨f, -, hf⟩ := h.coherent.shaped.row_ok hx
  -- `x` has left the queue but still lies outside its bounds; only after the pivot are all violators queued again.
  obtain ⟨s', hs'⟩ : ∃ s', s' = { s with queue := q, rounds := s.rounds + 1 } := ⟨_, rfl⟩
  have hidle : Idle s s' := hs' ▸ ⟨rfl, rfl, rfl, rfl⟩
  have hqueue : s'.queue = q := by rw [hs']
  have hcoh := h.coherent.idle hidle
  have hf' : s'.tableau.row? x = some f := by rw [hidle.tableau, hf]
  have hbound' : s'.store.bounds v.side x = some v.bound := by rw [hidle.store, hbound]
  have hout' : v.side.outside (s'.store.value x) v.bound.value = true := by rw [hidle.store, hout]
  obtain ⟨p, hp, hnone, hsome⟩ := partner?_ok hf' v.side
  cases p with
  | none =>
    obtain ⟨c, hc, hsound⟩ := sound_explain hcoh.shaped hf' (hnone rfl) hcoh.denotes hcoh.solves hbound' hout'
    have hnote : Idle s (s'.note .updateConflict) := ⟨hidle.settings, hidle.registered, hidle.store, hidle.tableau⟩
    refine ⟨some (.unsat c), s'.note .updateConflict, ?_, (hnote.keeps h.coherent).unsat hsound, (by rintro ⟨⟩),
      fun hn => by cases hn⟩
    rw [round, htake]
    subst hs'
    exact bind_eq_ok.mpr ⟨none, hp, bind_eq_ok.mpr ⟨c, hc, rfl⟩⟩
  | some y =>
    obtain ⟨⟨a, ha, hel⟩, hsmall⟩ := hsome y rfl
    have hnormal := hcoh.shaped.wellFormed.normal hf'
    obtain ⟨t, ht, hpivoted, hshaped⟩ := pivot_ok hcoh.shaped hf' (hnormal.coeff?_of_mem ha) v.bound.value
    have hkeeps : Keeps ds s t :=
      (hidle.keeps h.coherent).trans (hpivoted.keeps hcoh hshaped (hcoh.disciplined.ordered.admits hbound'))
    -- Whatever else the pivot moved outside its bounds it has queued itself.
    have hqueued : t.Queued := hpivoted.queued fun z hzx hz hn => by
      rw [hqueue]
      exact hq z hzx ((hidle.isBasic z).symm.trans hz) (hidle.within.not.mp hn)
    have hy : t.isBasic y = true := (hpivoted.isBasic_iff hcoh.shaped).mpr (Or.inl rfl)
    obtain ⟨c, hc, hsound⟩ := conflictOf_ok hkeeps.coherent.shaped hkeeps.coherent.denotes hkeeps.coherent.solves hy
    cases c with
    | none =>
      have hrepaired : Repaired s t x v y := by
        refine ⟨hv, ⟨f, a, hf, ha, ?_, fun hst e he hlt => ?_⟩, hleast, q, hstage, hs' ▸ hpivoted⟩
        · rw [hs'] at hel
          exact hel
        · have hno := hsmall (by rw [hqueue, hstage, hst]) hnormal e he hlt
          rw [hs'] at hno
          exact hno
      refine ⟨none, t, ?_, hkeeps.goes hqueued (hpivoted.frame.queue.sorted (hqueue ▸ hsorted)) (Or.inl rfl), (by rintro ⟨⟩),
        fun _ => ⟨x, v, y, hrepaired⟩⟩
      rw [round, htake]
      subst hs'
      exact bind_eq_ok.mpr ⟨some y, hp, bind_eq_ok.mpr ⟨t, ht, bind_eq_ok.mpr ⟨none, hc, rfl⟩⟩⟩
    | some c =>
      have hnote : Idle t (t.note .updateConflict) := ⟨rfl, rfl, rfl, rfl⟩
      refine ⟨some (.unsat c), t.note .updateConflict, ?_,
        (hkeeps.trans (hnote.keeps hkeeps.coherent)).unsat (hsound c rfl), (by rintro ⟨⟩), fun hn => by cases hn⟩
      rw [round, htake]
      subst hs'
      exact bind_eq_ok.mpr ⟨some y, hp, bind_eq_ok.mpr ⟨t, ht, bind_eq_ok.mpr ⟨some c, hc, rfl⟩⟩⟩

end LinReal.Solver
