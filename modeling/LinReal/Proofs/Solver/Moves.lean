import LinReal.Proofs.Solver.Frame

/-! Moves. Moving a nonbasic variable shifts every basic variable by its coefficient, so the rows go on holding; a pivot does
    the same, and then exchanges two variables in the rows. Both leave the other nonbasic variables where they are. -/

namespace LinReal

namespace Stage

theorem leastBy_eq_none_iff {measure : Var → Nat} {xs : List Var} : leastBy measure xs = none ↔ xs = [] := by
  cases xs with
  | nil => simp [leastBy]
  | cons x xs =>
    simp only [leastBy]
    cases leastBy measure xs with
    | none => simp
    | some y =>
      simp only
      split <;> simp

theorem mem_of_leastBy {measure : Var → Nat} {xs : List Var} {y : Var} (h : leastBy measure xs = some y) : y ∈ xs := by
  induction xs generalizing y with
  | nil => cases h
  | cons x xs ih =>
    simp only [leastBy] at h
    cases hl : leastBy measure xs with
    | none =>
      simp only [hl, Option.some.injEq] at h
      exact h ▸ List.mem_cons_self
    | some z =>
      simp only [hl] at h
      split at h
      · exact List.mem_cons_of_mem _ (ih (hl.trans h))
      · exact Option.some.inj h ▸ List.mem_cons_self

theorem choosePartner_eq_none_iff {stage : Stage} {eligible : List Var} {count : Var → Nat} :
    stage.choosePartner eligible count = none ↔ eligible = [] := by
  cases stage with
  | heuristic => exact leastBy_eq_none_iff
  | antiCycle => exact List.head?_eq_none_iff

theorem mem_of_choosePartner {stage : Stage} {eligible : List Var} {count : Var → Nat} {y : Var}
    (h : stage.choosePartner eligible count = some y) : y ∈ eligible := by
  cases stage with
  | heuristic => exact mem_of_leastBy h
  | antiCycle => exact List.mem_of_head? h

end Stage

namespace Tableau

variable {t : Tableau} {b x : Var} {f : LinearForm}

/-- The coefficient of `x` in the row of `b`; zero if there is none. -/
def entry (t : Tableau) (b x : Var) : Rat := ((t.row? b).bind (·.coeff? x)).getD 0

theorem entry_of_row? (h : t.row? b = some f) (x : Var) : t.entry b x = (f.coeff? x).getD 0 := by simp [entry, h]

theorem WellFormed.entry_eq_zero (h : t.WellFormed) (hb : b ∉ t.column x) : t.entry b x = 0 := by
  cases hr : t.row? b with
  | none => simp [entry, hr]
  | some f =>
    have hx : x ∉ f.vars := fun hx => hb (h.mem_column.mpr ⟨f, hr, hx⟩)
    simp [entry, hr, LinearForm.coeff?_eq_none_iff.mpr hx]

theorem WellFormed.isBasic_of_mem_column (h : t.WellFormed) (hb : b ∈ t.column x) : t.isBasic b = true := by
  obtain ⟨f, hf, -⟩ := h.mem_column.mp hb
  exact h.isBasic_iff.mpr ⟨f, hf⟩

/-- The rows go on holding when a nonbasic variable is moved and the basic ones follow by their coefficients. -/
theorem WellFormed.solvesDelta_shift (h : t.WellFormed) {w w' : Var → DeltaRat} (step : DeltaRat)
    (hnonbasic : ∀ y, t.isBasic y = false → w' y = Function.update w x (w x + step) y)
    (hbasic : ∀ b, t.isBasic b = true → w' b = w b + step.scale (t.entry b x)) (hw : t.SolvesDelta w) :
    t.SolvesDelta w' := by
  intro b f hb
  have hcongr : f.evalDelta w' = f.evalDelta (Function.update w x (w x + step)) :=
    LinearForm.evalDelta_congr fun y hy => hnonbasic y (h.nonbasic hb hy)
  rw [hcongr, (h.normal hb).evalDelta_update, hbasic b (h.isBasic_iff.mpr ⟨f, hb⟩), hw b f hb, entry_of_row? hb]

end Tableau

namespace Solver

variable {τ : Type} {s t u : Solver τ} {x y b l e : Var} {v step : DeltaRat} {f r : LinearForm} {a : Rat} {side : Side}

/-! ### Partners -/

/-- The partner that is chosen is an eligible entry of the row; in the anti-cycle stage the smallest one. -/
theorem partner?_ok (hf : s.tableau.row? x = some f) (side : Side) :
    ∃ p, s.partner? x side = .ok p ∧ (p = none → ∀ u ∈ f, s.isEligible side u.1 u.2 = false) ∧
      ∀ y, p = some y → (∃ a, (y, a) ∈ f ∧ s.isEligible side y a = true) ∧
        (s.queue.stage = .antiCycle → f.IsNormal → ∀ u ∈ f, u.1 < y → s.isEligible side u.1 u.2 = false) := by
  have hrow : s.tableau.row x = .ok f := by simp [Tableau.row, hf]
  refine ⟨_, by rw [partner?, hrow, ok_bind]; rfl, fun hnone u hu => ?_, fun y hy => ⟨?_, fun hstage hnormal u hu hlt => ?_⟩⟩
  · have hnil := List.map_eq_nil_iff.mp (Stage.choosePartner_eq_none_iff.mp hnone)
    simpa using List.filter_eq_nil_iff.mp hnil u hu
  · obtain ⟨a, ha⟩ := LinearForm.mem_vars_iff.mp (Stage.mem_of_choosePartner hy)
    exact ⟨a, List.mem_filter.mp ha⟩
  · rw [hstage] at hy
    simp only [Stage.choosePartner, LinearForm.vars] at hy
    by_contra hel
    rw [Bool.not_eq_false] at hel
    have hin : u ∈ f.filter fun w => s.isEligible side w.1 w.2 := List.mem_filter.mpr ⟨hu, hel⟩
    have hsorted := hnormal.1.filter fun w => s.isEligible side w.1 w.2
    cases hl : f.filter fun w => s.isEligible side w.1 w.2 with
    | nil =>
      rw [hl] at hin
      cases hin
    | cons w ws =>
      rw [hl] at hin hy hsorted
      obtain rfl : w.1 = y := Option.some.inj hy
      rcases List.mem_cons.mp hin with rfl | hin
      · exact absurd hlt (Nat.lt_irrefl _)
      · exact absurd ((List.pairwise_cons.mp hsorted).1 u hin) (Nat.lt_asymm hlt)

/-! ### Following a move -/

theorem follow_ok (h : s.Shaped) (hb : s.isBasic b = true) (x : Var) (step : DeltaRat) :
    ∃ t, follow x step s b = .ok t ∧ Frame s t ∧ t.tableau = s.tableau ∧
      t.store.value = Function.update s.store.value b (s.store.value b + step.scale (s.tableau.entry b x)) ∧
      (¬t.Within b → b ∈ t.queue.order ∨ ¬s.Within b) := by
  obtain ⟨f, hrow, hf⟩ := h.row_ok hb
  cases hc : f.coeff? x with
  | none =>
    refine ⟨s, by simp only [follow, hrow, ok_bind, hc]; rfl, .refl s, rfl, ?_, Or.inr⟩
    have hzero : step.scale 0 = 0 := by ext <;> simp
    rw [Tableau.entry_of_row? hf, hc, Option.getD_none, hzero, add_zero, Function.update_eq_self]
  | some a =>
    have hlt := h.wellFormed.lt_size hb
    obtain ⟨c, hslot, hget⟩ := h.slot_ok hlt
    obtain ⟨u, hu, hframe, htab, -, hvalue⟩ := assign_ok (h.size ▸ hlt) (c.value + step.scale a)
    obtain ⟨q, hq, hgrows, hin, -⟩ := inspect_ok (h.of_frame hframe htab) (x := b) (by rwa [isBasic, htab])
    refine ⟨{ u with queue := q }, ?_, hframe.trans (frame_queue hgrows), htab, ?_, fun hn => Or.inl (hin hn)⟩
    · simp only [follow, hrow, ok_bind, hc, hslot, hu, hq]
    · rw [Tableau.entry_of_row? hf, hc, Option.getD_some, Store.value_of_get? hget]
      exact hvalue

theorem followAll_ok (h : s.Shaped) {bs : List Var} (hnodup : bs.Nodup) (hbs : ∀ b ∈ bs, s.isBasic b = true) (x : Var)
    (step : DeltaRat) :
    ∃ t, bs.foldlM (follow x step) s = .ok t ∧ Frame s t ∧ t.tableau = s.tableau ∧
      (∀ y, t.store.value y = s.store.value y + if y ∈ bs then step.scale (s.tableau.entry y x) else 0) ∧
      ∀ y, ¬t.Within y → y ∈ t.queue.order ∨ ¬s.Within y := by
  induction bs generalizing s with
  | nil => exact ⟨s, rfl, .refl s, rfl, fun y => by simp, fun y => Or.inr⟩
  | cons b bs ih =>
    obtain ⟨hb, hnodup⟩ := List.nodup_cons.mp hnodup
    obtain ⟨u, hu, hframe, htab, hvalue, hwatch⟩ := follow_ok h (hbs b List.mem_cons_self) x step
    have hbs' : ∀ y ∈ bs, u.isBasic y = true := by
      intro y hy
      rw [isBasic, htab]
      exact hbs y (List.mem_cons_of_mem _ hy)
    obtain ⟨t, ht, hframe', htab', hvalue', hwatch'⟩ := ih (h.of_frame hframe htab) hnodup hbs'
    refine ⟨t, by rw [List.foldlM_cons, hu, ok_bind, ht], hframe.trans hframe', htab'.trans htab, fun y => ?_,
      fun y hn => ?_⟩
    · rw [hvalue', hvalue, htab]
      by_cases hy : y = b
      · subst hy
        simp [hb]
      · simp [hy]
    · rcases hwatch' y hn with hin | hn'
      · exact Or.inl hin
      · by_cases hy : y = b
        · subst hy
          exact (hwatch hn').imp hframe'.queue.mem id
        · have hsame : u.store.value y = s.store.value y := by rw [hvalue, Function.update_of_ne hy]
          exact Or.inr ((within_congr hframe.store.bounds hsame).not.mp hn')

/-! ### Moving a nonbasic variable -/

/-- What moving the nonbasic `x` to the value `v` does. -/
structure Moved (s t : Solver τ) (x : Var) (v : DeltaRat) : Prop where
  frame : Frame s t
  tableau : t.tableau = s.tableau
  nonbasic : ∀ {y}, s.isBasic y = false → t.store.value y = Function.update s.store.value x v y
  solves : s.tableau.SolvesDelta s.store.value → t.tableau.SolvesDelta t.store.value
  watched : ∀ {y}, t.isBasic y = true → ¬t.Within y → y ∈ t.queue.order ∨ ¬s.Within y

theorem nodup_column (h : s.Shaped) (x : Var) : (s.tableau.column x).Nodup :=
  (h.wellFormed.ascending x).imp fun hlt => Nat.ne_of_lt hlt

theorem update_ok (h : s.Shaped) (hx : s.isBasic x = false) (hlt : x < s.tableau.size) (v : DeltaRat) :
    ∃ t, s.update x v = .ok t ∧ Moved s t x v := by
  obtain ⟨c, hslot, hget⟩ := h.slot_ok hlt
  have hcol : ∀ b ∈ s.tableau.column x, s.isBasic b = true := fun b hb => h.wellFormed.isBasic_of_mem_column hb
  obtain ⟨u, hu, hframe, htab, hvalue, hwatch⟩ := followAll_ok h (nodup_column h x) hcol x (v - c.value)
  obtain ⟨t, ht, hframe', htab', hqueue, hvalue'⟩ := assign_ok (s := u) (x := x) (by rw [hframe.store.size, h.size]; exact hlt) v
  have hnonbasic : ∀ {y}, s.isBasic y = false → t.store.value y = Function.update s.store.value x v y := fun {y} hy => by
    have hnot : y ∉ s.tableau.column x := by
      intro hin
      rw [hcol y hin] at hy
      cases hy
    rw [hvalue']
    by_cases hyx : y = x
    · rw [hyx, Function.update_self, Function.update_self]
    · rw [Function.update_of_ne hyx, Function.update_of_ne hyx, hvalue, if_neg hnot, add_zero]
  have hbasic : ∀ b, s.isBasic b = true →
      t.store.value b = s.store.value b + (v - c.value).scale (s.tableau.entry b x) := by
    intro b hb
    have hbx : b ≠ x := by
      rintro rfl
      rw [hb] at hx
      cases hx
    rw [hvalue', Function.update_of_ne hbx, hvalue]
    by_cases hin : b ∈ s.tableau.column x
    · rw [if_pos hin]
    · have hzero : (v - c.value).scale 0 = 0 := by ext <;> simp
      rw [if_neg hin, h.wellFormed.entry_eq_zero hin, hzero]
  refine ⟨t.note .update, ?_, (hframe.trans hframe').trans (frame_note t .update), htab'.trans htab, hnonbasic, ?_, ?_⟩
  · simp only [update, hx, Bool.false_eq_true, if_false, hslot, ok_bind, hu, ht]
    rfl
  · intro hs
    have htt : (t.note .update).tableau = s.tableau := htab'.trans htab
    rw [htt]
    refine h.wellFormed.solvesDelta_shift (x := x) (v - c.value) (fun y hy => ?_) hbasic hs
    rw [Store.value_of_get? hget, add_sub_cancel]
    exact hnonbasic hy
  · intro y hy hn
    have hyx : y ≠ x := by
      rintro rfl
      have hty : s.tableau.isBasic y = true := (htab'.trans htab) ▸ hy
      rw [isBasic, hty] at hx
      cases hx
    have hsame : t.store.value y = u.store.value y := by rw [hvalue', Function.update_of_ne hyx]
    have hn' : ¬u.Within y := (within_congr hframe'.store.bounds hsame).not.mp hn
    exact (hwatch y hn').imp hframe'.queue.mem id

theorem update_requires (h : s.Shaped) (ht : s.update x v = .ok t) : s.isBasic x = false ∧ x < s.tableau.size := by
  unfold update at ht
  split at ht
  · cases ht
  · rename_i hx
    obtain ⟨c, hslot, -⟩ := bind_eq_ok.mp ht
    refine ⟨by simpa using hx, ?_⟩
    rw [← h.size]
    exact Table.lt_size_of_get? (Store.slot_eq_ok_iff.mp hslot)

/-! ### Pivots -/

/-- What moving the basic `l` to the value `v` by an exchange with the nonbasic `e` does. -/
structure Pivoted (s t : Solver τ) (l e : Var) (v : DeltaRat) : Prop where
  frame : Frame s t
  tableau : ∃ r a, s.tableau.row? l = some r ∧ r.coeff? e = some a ∧ t.tableau = s.tableau.exchange l e r a
  leaving : t.store.value l = v
  nonbasic : ∀ {y}, s.isBasic y = false → y ≠ e → t.store.value y = s.store.value y
  solves : s.tableau.SolvesDelta s.store.value → t.tableau.SolvesDelta t.store.value
  watched : ∀ {y}, t.isBasic y = true → ¬t.Within y → y ∈ t.queue.order ∨ (y ≠ l ∧ s.isBasic y = true ∧ ¬s.Within y)

theorem notePivot_view (s : Solver τ) :
    Frame s s.notePivot ∧ s.notePivot.tableau = s.tableau ∧ s.notePivot.queue = s.queue ∧
      s.notePivot.store = s.store := by
  have hview : s.notePivot.settings = s.settings ∧ s.notePivot.registered = s.registered ∧
      s.notePivot.rounds = s.rounds ∧ s.notePivot.tableau = s.tableau ∧ s.notePivot.queue = s.queue ∧
      s.notePivot.store = s.store := by
    by_cases hf : s.foundConflict = true
    · by_cases hp : s.pivotsSinceConflict = 0 <;> simp [notePivot, note, hf, hp]
    · simp [notePivot, note, hf]
  obtain ⟨h1, h2, h3, h4, h5, h6⟩ := hview
  exact ⟨⟨h1, h2, h3, h6 ▸ .refl _, by rw [h6], by rw [h6]; exact id, h5 ▸ .refl _⟩, h4, h5, h6⟩

theorem watch_ok (h : s.Shaped) (hx : s.isBasic x = true) : ∃ found, s.watch x = .ok { s with foundConflict := found } := by
  obtain ⟨c, hslot, -⟩ := h.slot_ok (h.wellFormed.lt_size hx)
  obtain ⟨f, -, hf⟩ := h.row_ok hx
  unfold watch
  split
  · exact ⟨s.foundConflict, rfl⟩
  · rw [hslot, ok_bind]
    split
    · exact ⟨s.foundConflict, rfl⟩
    · rename_i w hw
      obtain ⟨p, hp, -⟩ := partner?_ok hf w.side
      rw [hp, ok_bind]
      exact ⟨p.isNone, rfl⟩

theorem solvesDelta_exchange (h : s.Shaped) (hr : s.tableau.row? l = some r) (ha : r.coeff? e = some a)
    (w : Var → DeltaRat) : (s.tableau.exchange l e r a).SolvesDelta w ↔ s.tableau.SolvesDelta w :=
  Tableau.solvesDelta_congr (Tableau.solves_exchange_iff h.wellFormed hr ha)

/-- The state before the rows change: the two variables have moved, and the other basic ones have followed. -/
theorem moveBoth_ok (h : s.Shaped) (hr : s.tableau.row? l = some r) (ha : r.coeff? e = some a)
    (hstep : step.scale a = v - s.store.value l) :
    ∃ s₁ s₂ c t, s.assign l v = .ok s₁ ∧ s₁.store.slot e = .ok c ∧ s₁.assign e (c.value + step) = .ok s₂ ∧
      ((s₂.tableau.column e).filter (· ≠ l)).foldlM (follow e step) s₂ = .ok t ∧ Frame s t ∧ t.tableau = s.tableau ∧
      t.store.value l = v ∧ (∀ y, s.isBasic y = false → y ≠ e → t.store.value y = s.store.value y) ∧
      (s.tableau.SolvesDelta s.store.value → s.tableau.SolvesDelta t.store.value) ∧
      ∀ y, y ≠ l → y ≠ e → ¬t.Within y → y ∈ t.queue.order ∨ ¬s.Within y := by
  obtain ⟨hnb, -, hlt, hne⟩ := Tableau.entering_nonbasic h.wellFormed hr ha
  have hl : s.isBasic l = true := h.wellFormed.isBasic_iff.mpr ⟨r, hr⟩
  obtain ⟨s₁, h₁, f₁, t₁, -, v₁⟩ := assign_ok (h.size ▸ h.wellFormed.lt_size hl) v
  have hsh₁ := h.of_frame f₁ t₁
  obtain ⟨c, hc, hget⟩ := hsh₁.slot_ok (x := e) (by rwa [t₁])
  have hcv : c.value = s.store.value e := by rw [← Store.value_of_get? hget, v₁, Function.update_of_ne hne]
  obtain ⟨s₂, h₂, f₂, t₂, -, v₂⟩ := assign_ok (s := s₁) (x := e) (by rwa [hsh₁.size, t₁]) (c.value + step)
  have htab : s₂.tableau = s.tableau := t₂.trans t₁
  have hv₂ : ∀ {y}, y ≠ l → y ≠ e → s₂.store.value y = s.store.value y := fun hyl hye => by
    rw [v₂, Function.update_of_ne hye, v₁, Function.update_of_ne hyl]
  have hbs : ∀ b ∈ (s₂.tableau.column e).filter (· ≠ l), s₂.isBasic b = true := by
    intro b hb
    rw [isBasic, htab]
    rw [htab] at hb
    exact h.wellFormed.isBasic_of_mem_column (List.mem_filter.mp hb).1
  obtain ⟨t, ht, f₃, t₃, v₃, hwatch⟩ :=
    followAll_ok (hsh₁.of_frame f₂ t₂) ((nodup_column (hsh₁.of_frame f₂ t₂) e).filter (· ≠ l)) hbs e step
  have hnot : ∀ {y}, s.isBasic y = false → y ∉ (s₂.tableau.column e).filter (· ≠ l) := fun hy hin => by
    have hb := hbs _ hin
    rw [isBasic, htab] at hb
    rw [isBasic, hb] at hy
    cases hy
  have hvl : t.store.value l = v := by
    rw [v₃, if_neg fun hin => by simp at hin, add_zero, v₂, Function.update_of_ne hne.symm, v₁, Function.update_self]
  have hnonbasic : ∀ y, s.isBasic y = false → y ≠ e → t.store.value y = s.store.value y := by
    intro y hy hye
    have hyl : y ≠ l := by
      rintro rfl
      rw [hl] at hy
      cases hy
    rw [v₃, if_neg (hnot hy), add_zero, hv₂ hyl hye]
  refine ⟨s₁, s₂, c, t, h₁, hc, h₂, ht, (f₁.trans f₂).trans f₃, t₃.trans htab, hvl, hnonbasic, fun hs => ?_,
    fun y hyl hye hn => (hwatch y hn).imp id ?_⟩
  · refine h.wellFormed.solvesDelta_shift (x := e) step (fun y hy => ?_) (fun b hb => ?_) hs
    · by_cases hye : y = e
      · rw [hye, v₃, if_neg (hnot hnb), add_zero, v₂, Function.update_self, Function.update_self, hcv]
      · rw [Function.update_of_ne hye, hnonbasic y hy hye]
    · by_cases hbl : b = l
      · rw [hbl, hvl, Tableau.entry_of_row? hr, ha, Option.getD_some, hstep, add_sub_cancel]
      · have hbe : b ≠ e := by
          rintro rfl
          rw [hnb] at hb
          cases hb
        rw [v₃, hv₂ hbl hbe, htab]
        by_cases hin : b ∈ s.tableau.column e
        · rw [if_pos (List.mem_filter.mpr ⟨hin, by simpa using hbl⟩)]
        · have hzero : step.scale 0 = 0 := by ext <;> simp
          rw [if_neg fun hin' => hin (List.mem_filter.mp hin').1, h.wellFormed.entry_eq_zero hin, hzero]
  · exact (within_congr (f₁.trans f₂).store.bounds (hv₂ hyl hye)).not.mp

theorem pivot_ok (h : s.Shaped) (hr : s.tableau.row? l = some r) (ha : r.coeff? e = some a) (v : DeltaRat) :
    ∃ t, s.pivot l e v = .ok t ∧ Pivoted s t l e v ∧ t.Shaped := by
  obtain ⟨hnb, -, hlt, hne⟩ := Tableau.entering_nonbasic h.wellFormed hr ha
  have hl : s.isBasic l = true := h.wellFormed.isBasic_iff.mpr ⟨r, hr⟩
  have ha0 : a ≠ 0 := (h.wellFormed.normal hr).coeff?_ne_zero ha
  obtain ⟨c, hslot, hget⟩ := h.slot_ok (h.wellFormed.lt_size hl)
  have hdiv := DeltaRat.div?_of_ne_zero (v - c.value) ha0
  have hstep : ((v - c.value).scale a⁻¹).scale a = v - s.store.value l := by
    rw [Store.value_of_get? hget]
    exact DeltaRat.scale_of_div? hdiv
  obtain ⟨s₁, s₂, d, u, h₁, hd, h₂, hu, hframe, htab, hvl, hnonbasic, hsolves, hwatch⟩ := moveBoth_ok h hr ha hstep
  obtain ⟨nframe, ntab, nqueue, nstore⟩ := notePivot_view u
  obtain ⟨-, hsize, hbasic, -⟩ := Tableau.exchange_view h.wellFormed hr ha
  have hw : ({ u.notePivot with tableau := s.tableau.exchange l e r a } : Solver τ).Shaped := by
    refine ⟨Tableau.wellFormed_exchange h.wellFormed hr ha, ?_⟩
    rw [show ({ u.notePivot with tableau := s.tableau.exchange l e r a } : Solver τ).store = u.store from nstore,
      hframe.store.size, h.size]
    exact hsize.symm
  obtain ⟨q, hq, hgrows, hin, -⟩ := inspect_ok hw (x := e) ((hbasic e).mpr (Or.inl rfl))
  obtain ⟨found, hfound⟩ := watch_ok (s := { u.notePivot with tableau := s.tableau.exchange l e r a, queue := q }) (x := e)
    ⟨hw.wellFormed, hw.size⟩ ((hbasic e).mpr (Or.inl rfl))
  have hex : s.exchange l e a v = .ok { u.notePivot with
      tableau := s.tableau.exchange l e r a, queue := q, foundConflict := found } := by
    unfold exchange
    rw [hslot, ok_bind, hdiv]
    simp only [h₁, hd, h₂, hu, ok_bind, ntab, htab, Tableau.pivot_of_row? h.wellFormed hr ha, hq]
    exact hfound
  have hrow : s.tableau.row l = .ok r := by simp [Tableau.row, hr]
  have hpivot : s.pivot l e v = s.exchange l e a v := by
    simp only [pivot, hl, Bool.not_true, Bool.false_eq_true, if_false, show s.isBasic e = false from hnb, hrow, ok_bind, ha]
  refine ⟨{ u.notePivot with tableau := s.tableau.exchange l e r a, queue := q, foundConflict := found },
    hpivot.trans hex, ⟨?_, ⟨r, a, hr, ha, rfl⟩, ?_, ?_, ?_, ?_⟩, hw.wellFormed, hw.size⟩
  · exact ⟨nframe.settings.trans hframe.settings, nframe.registered.trans hframe.registered,
      nframe.rounds.trans hframe.rounds, hframe.store.trans nframe.store, nframe.safe.trans hframe.safe,
      nframe.tracks ∘ hframe.tracks, (hframe.queue.trans nframe.queue).trans hgrows⟩
  · exact (congrArg (·.value l) nstore).trans hvl
  · intro y hy hye
    exact (congrArg (·.value y) nstore).trans (hnonbasic y hy hye)
  · intro hs
    refine (solvesDelta_exchange h hr ha _).mpr ?_
    rw [show ({ u.notePivot with tableau := s.tableau.exchange l e r a, queue := q, foundConflict := found } :
      Solver τ).store = u.store from nstore]
    exact hsolves hs
  · intro y hy hn
    rcases (hbasic y).mp hy with rfl | ⟨hyl, hys⟩
    · exact Or.inl (hin hn)
    · have hye : y ≠ e := by
        rintro rfl
        rw [hys] at hnb
        cases hnb
      have hn' : ¬u.Within y := by
        rw [Within, ← nstore]
        exact hn
      refine (hwatch y hyl hye hn').imp (fun hmem => hgrows.mem ?_) fun hns => ⟨hyl, hys, hns⟩
      exact nqueue ▸ hmem

/-- A pivot reads the coefficient of the entering variable off the row. -/
theorem exchange_of_pivot (h : s.pivot l e v = .ok t) :
    ∃ f a, s.tableau.row? l = some f ∧ f.coeff? e = some a ∧ s.exchange l e a v = .ok t := by
  unfold pivot at h
  split at h
  · cases h
  · split at h
    · cases h
    · obtain ⟨f, hf, h⟩ := bind_eq_ok.mp h
      split at h
      · cases h
      · rename_i a ha
        exact ⟨f, a, row?_of_row hf, ha, h⟩

theorem pivot_requires (h : s.pivot l e v = .ok t) :
    ∃ r a, s.tableau.row? l = some r ∧ r.coeff? e = some a := by
  obtain ⟨r, a, hr, ha, -⟩ := exchange_of_pivot h
  exact ⟨r, a, hr, ha⟩

end Solver

end LinReal
