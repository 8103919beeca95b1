import LinReal.Solver.Assert
import LinReal.Proofs.Solver.Moves

/-! Conflicts. A row that cannot be repaired has a violated bound on its owner and, on each of its variables, a bound that
    has been reached. Values that respect all of these bounds and satisfy the row do not exist: towards the violated
    side no term of the row can go further than it has gone, so neither can its owner. -/

namespace LinReal

variable {τ : Type}

/-- A conflict is sound for definitions and bounds: its tokens are those listed as `own` and tokens of bounds, and no values
    satisfy the definitions, the bounds with these tokens, and what `own` asserts. -/
structure Conflict.Sound (c : Conflict τ) (ds : List (Var × LinearForm)) (b : Bounds τ) (own : List τ)
    (asserted : (Var → DeltaRat) → Prop) : Prop where
  nonempty : c.tokens ≠ []
  nodup : c.tokens.Nodup
  includes : ∀ t ∈ own, t ∈ c.tokens
  inForce : ∀ t ∈ c.tokens, t ∈ own ∨ ∃ side x l, b side x = some l ∧ l.token = t
  refuted : ¬∃ w, SatisfiesDelta w ds ∧ asserted w ∧
    ∀ side x l, b side x = some l → l.token ∈ c.tokens → side.outside (w x) l.value = false

namespace Solver

variable {s t : Solver τ} {ds : List (Var × LinearForm)} {x y : Var} {f : LinearForm} {side : Side} {a : Rat}
  {v : Violation τ}

/-! ### Eligible entries -/

theorem isEligible_eq_false_iff (hy : y < s.store.size) :
    s.isEligible side y a = false ↔
      ∃ l, s.store.bounds (side.remedy a) y = some l ∧ (side.remedy a).reached (s.store.value y) l.value = true := by
  obtain ⟨c, hc⟩ := Store.exists_slot hy
  simp only [isEligible, hc, Option.any_some, Slot.hasRoom, Slot.reached, Bool.not_eq_false', Store.bounds_of_get? hc,
    Store.value_of_get? hc]
  cases c.bound? (side.remedy a) <;> simp

theorem blocking_ok {l : Bound τ} (hy : y < s.store.size) (hl : s.store.bounds (side.remedy a) y = some l) :
    s.blocking side y a = .ok l.token := by
  obtain ⟨c, hslot, hc⟩ := Store.slot_ok hy
  rw [Store.bounds_of_get? hc] at hl
  simp only [blocking, hslot, ok_bind, hl]
  rfl

/-- The token of the bound that limits an entry towards the remedy; that of the violated bound if there is none. -/
def blockingToken (s : Solver τ) (v : Violation τ) (e : Var × Rat) : τ :=
  ((s.store.bounds (v.side.remedy e.2) e.1).map (·.token)).getD v.bound.token

section Explain

variable (h : s.Shaped) (hf : s.tableau.row? x = some f) (hnone : ∀ e ∈ f, s.isEligible v.side e.1 e.2 = false)
include h hf hnone

theorem exists_blocking {e : Var × Rat} (he : e ∈ f) :
    ∃ l, s.store.bounds (v.side.remedy e.2) e.1 = some l ∧
      (v.side.remedy e.2).reached (s.store.value e.1) l.value = true ∧ s.blockingToken v e = l.token := by
  have hlt : e.1 < s.store.size := h.size ▸ h.wellFormed.range hf (LinearForm.mem_vars_of_mem he)
  obtain ⟨l, hl, hr⟩ := (isEligible_eq_false_iff hlt).mp (hnone e he)
  exact ⟨l, hl, hr, by rw [blockingToken, hl, Option.map_some, Option.getD_some]⟩

theorem explain_ok [DecidableEq τ] : s.explain x v = .ok (.ofTokens (v.bound.token :: f.map (s.blockingToken v))) := by
  have hrow : s.tableau.row x = .ok f := by simp [Tableau.row, hf]
  have hmap : f.mapM (fun e => s.blocking v.side e.1 e.2) = .ok (f.map (s.blockingToken v)) := mapM_eq_ok fun e he => by
    obtain ⟨l, hl, -, htoken⟩ := exists_blocking h hf hnone he
    rw [htoken]
    exact blocking_ok (h.size ▸ h.wellFormed.range hf (LinearForm.mem_vars_of_mem he)) hl
  rw [explain, hrow, ok_bind, hmap]
  rfl

/-- The row cannot bring its owner back over the violated bound: no solution that respects the blocking bounds does. -/
theorem outside_of_blocked (hs : s.tableau.SolvesDelta s.store.value)
    (hv : v.side.outside (s.store.value x) v.bound.value = true) {w : Var → DeltaRat} (hw : s.tableau.SolvesDelta w)
    (hwithin : ∀ e ∈ f, ∀ l, s.store.bounds (v.side.remedy e.2) e.1 = some l →
      (v.side.remedy e.2).outside (w e.1) l.value = false) :
    v.side.outside (w x) v.bound.value = true := by
  -- Under `w` no entry can go beyond the bound that it has reached already.
  have hterm : ∀ e ∈ f, (v.side.remedy e.2).reached (s.store.value e.1) (w e.1) = true := by
    intro e he
    obtain ⟨l, hl, hr, -⟩ := exists_blocking h hf hnone he
    have hback := Side.outside_eq_false_iff.mp (hwithin e he l hl)
    rw [Side.reached_opposite] at hback
    exact Side.reached_trans hr hback
  have hsum := LinearForm.reached_evalDelta hterm
  rw [Side.reached_opposite, ← hs x f hf, ← hw x f hf] at hsum
  exact Side.outside_of_reached hsum hv

theorem sound_explain [DecidableEq τ] (hd : s.tableau.Denotes ds) (hs : s.tableau.SolvesDelta s.store.value)
    (hbound : s.store.bounds v.side x = some v.bound) (hv : v.side.outside (s.store.value x) v.bound.value = true) :
    ∃ c, s.explain x v = .ok c ∧ c.Sound ds s.store.bounds [] fun _ => True := by
  refine ⟨_, explain_ok h hf hnone, ?_, nodup_firsts _, fun t ht => (by cases ht), fun t ht => Or.inr ?_, ?_⟩
  · simp [Conflict.ofTokens, firsts]
  · rcases List.mem_cons.mp (mem_firsts.mp ht) with rfl | ht
    · exact ⟨v.side, x, v.bound, hbound, rfl⟩
    · obtain ⟨e, he, rfl⟩ := List.mem_map.mp ht
      obtain ⟨l, hl, -, htoken⟩ := exists_blocking h hf hnone he
      exact ⟨_, _, l, hl, htoken.symm⟩
  · rintro ⟨w, hw, -, hwithin⟩
    have hx := hwithin v.side x v.bound hbound (mem_firsts.mpr List.mem_cons_self)
    rw [outside_of_blocked h hf hnone hs hv (hd.delta.mpr hw) fun e he l hl => ?_] at hx
    · cases hx
    · obtain ⟨l', hl', -, htoken⟩ := exists_blocking h hf hnone he
      obtain rfl : l' = l := Option.some.inj (hl'.symm.trans hl)
      exact hwithin _ _ _ hl (mem_firsts.mpr (List.mem_cons_of_mem _ (htoken ▸ List.mem_map_of_mem he)))

end Explain

/-! ### Conflicts of basic variables -/

variable [DecidableEq τ]

/-- A basic variable outside a bound of which no entry is eligible gives a sound conflict. -/
theorem conflictOf_ok (h : s.Shaped) (hd : s.tableau.Denotes ds) (hs : s.tableau.SolvesDelta s.store.value)
    (hx : s.isBasic x = true) :
    ∃ c, s.conflictOf x = .ok c ∧ ∀ c', c = some c' → c'.Sound ds s.store.bounds [] fun _ => True := by
  obtain ⟨slot, hslot, hget⟩ := h.slot_ok (h.wellFormed.lt_size hx)
  obtain ⟨f, -, hf⟩ := h.row_ok hx
  simp only [conflictOf, hx, if_true, hslot, ok_bind]
  cases hv : slot.violation? with
  | none => exact ⟨none, rfl, fun _ hc => by cases hc⟩
  | some v =>
    obtain ⟨hbound, hout⟩ := Slot.bound?_of_violation? hv
    obtain ⟨p, hp, hnone, -⟩ := partner?_ok hf v.side
    cases p with
    | some y => exact ⟨none, by simp only [hp, ok_bind]; rfl, fun _ hc => by cases hc⟩
    | none =>
      obtain ⟨c, hc, hsound⟩ := sound_explain h hf (hnone rfl) hd hs (by rw [Store.bounds_of_get? hget, hbound])
        (by rwa [Store.value_of_get? hget])
      refine ⟨some c, by simp only [hp, ok_bind, hc]; rfl, fun c' hc' => ?_⟩
      obtain rfl := Option.some.inj hc'
      exact hsound

theorem conflictOf_requires {c : Option (Conflict τ)} (hc : s.conflictOf x = .ok c) : s.isBasic x = true := by
  unfold conflictOf at hc
  split at hc
  · assumption
  · cases hc

/-! ### Conflicts of assertions -/

theorem sound_clash {slot : Slot τ} {v : DeltaRat} {token : τ} {c : Conflict τ} {asserted : (Var → DeltaRat) → Prop}
    (hget : s.store.slots.get? x = some slot) (hc : clash slot side v token = some c)
    (hasserted : ∀ w, asserted w → side.reached (w x) v = true) :
    c.Sound ds s.store.bounds [token] asserted := by
  simp only [clash, Option.map_eq_some_iff, Option.filter_eq_some_iff] at hc
  obtain ⟨l, ⟨hl, hout⟩, rfl⟩ := hc
  rw [← Store.bounds_of_get? hget] at hl
  refine ⟨by simp [Conflict.ofTokens, firsts], nodup_firsts _, fun t ht => ?_, fun t ht => ?_, ?_⟩
  · exact mem_firsts.mpr (List.mem_cons_of_mem _ ht)
  · rcases List.mem_cons.mp (mem_firsts.mp ht) with rfl | ht
    · exact Or.inr ⟨side, x, l, hl, rfl⟩
    · exact Or.inl ht
  · rintro ⟨w, -, hw, hwithin⟩
    have hx := hwithin side x l hl (mem_firsts.mpr List.mem_cons_self)
    rw [Side.outside_of_reached (hasserted w hw) hout] at hx
    cases hx

end Solver

end LinReal
