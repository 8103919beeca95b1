import LinReal.Proofs.Solver.Invariant

/-! New rows. A variable that owns no row and occurs in none can be given one, and the invariant then holds for the
    definitions with the new one. -/

namespace LinReal

namespace Solver

variable {τ : Type} {s t : Solver τ} {ds : List (Var × LinearForm)} {x y : Var} {d f : LinearForm}

theorem rowValue_ok (part : Slot τ → DeltaRat) (hf : s.tableau.row? x = some f) (hslots : ∀ y ∈ f.vars, y < s.store.size) :
    s.rowValue part x = .ok (f.evalDelta fun y => ((s.store.slots.get? y).map part).getD 0) := by
  have key : ∀ (g : LinearForm) (sum : DeltaRat), (∀ y ∈ g.vars, y < s.store.size) →
      g.foldlM (fun sum e => return sum + (part (← s.store.slot e.1)).scale e.2) sum =
        (.ok (sum + g.evalDelta fun y => ((s.store.slots.get? y).map part).getD 0) : Except Fault DeltaRat) := by
    intro g
    induction g with
    | nil => exact fun sum _ => by rw [LinearForm.evalDelta_nil, add_zero]; rfl
    | cons e g ih =>
      intro sum hg
      obtain ⟨a, hslot, hget⟩ := Store.slot_ok (hg e.1 List.mem_cons_self)
      rw [List.foldlM_cons, hslot, ok_bind]
      refine (ih (sum + (part a).scale e.2) fun y hy => hg y (List.mem_cons_of_mem _ hy)).trans ?_
      rw [LinearForm.evalDelta_cons, hget, Option.map_some, Option.getD_some, add_assoc]
  have hrow : s.tableau.row x = .ok f := by simp [Tableau.row, hf]
  rw [rowValue, hrow, ok_bind]
  exact (key f 0 hslots).trans (by rw [zero_add])

/-- Present and committed values of a basic variable are those of its row. -/
theorem Coherent.rowValue_ok (h : s.Coherent ds) (hf : s.tableau.row? x = some f) :
    ∃ slot, s.store.slot x = .ok slot ∧ s.rowValue (·.value) x = .ok slot.value ∧ s.rowValue (·.safe) x = .ok slot.safe := by
  have hslots : ∀ y ∈ f.vars, y < s.store.size := fun y hy => h.shaped.size ▸ h.shaped.wellFormed.range hf hy
  obtain ⟨slot, hslot, hget⟩ := h.shaped.slot_ok (Tableau.lt_size_of_row? hf)
  refine ⟨slot, hslot, ?_, ?_⟩
  · rw [Solver.rowValue_ok _ hf hslots, ← Store.value_of_get? hget]
    exact congrArg _ (h.solves x f hf).symm
  · rw [Solver.rowValue_ok _ hf hslots, ← Store.safe_of_get? hget]
    exact congrArg _ (h.safe x f hf).symm

/-- Values solve the rows with a new one if the owner of that row takes its value. -/
theorem solvesDelta_addRow {t u : Tableau} (h : t.WellFormed) (hu : t.addRow x d = .ok u) {w : Var → DeltaRat}
    (hw : t.SolvesDelta w) : u.SolvesDelta (Function.update w x ((t.resolve d).evalDelta w)) := by
  intro b f hb
  obtain ⟨hnb, hocc, -⟩ := Tableau.addRow_requires hu
  rw [Tableau.row?_addRow h hu] at hb
  have hother : ∀ {g : LinearForm}, x ∉ g.vars → ∀ v, g.evalDelta (Function.update w x v) = g.evalDelta w := fun hx v =>
    LinearForm.evalDelta_congr fun y hy => Function.update_of_ne (by rintro rfl; exact hx hy) _ _
  split at hb
  · rename_i hbx
    obtain rfl := Option.some.inj hb
    rw [← hbx, Function.update_self, hother fun hx => (Tableau.nonbasic_resolve h hu hx).2 rfl]
  · rename_i hbx
    rw [Function.update_of_ne (Ne.symm hbx), hother (h.not_mem_vars hocc hb), hw b f hb]

theorem addRow_requires (h : s.Coherent ds) (ht : s.addRow x d = .ok t) :
    s.isBasic x = false ∧ s.tableau.occurs x = false ∧ x ∉ d.vars := by
  obtain ⟨hc, hann, -⟩ := h.registerAll (x :: d.vars)
  obtain ⟨u, hu, -⟩ := bind_eq_ok.mp ht
  obtain ⟨h1, h2, h3⟩ := Tableau.addRow_requires hu
  exact ⟨(hann.basic x).symm.trans h1, (h.shaped.wellFormed.occurs_congr hc.shaped.wellFormed hann.row x).symm.trans h2, h3⟩

theorem Coherent.unused (h : s.Coherent ds) (hx : ¬Mentions ds x) : s.isBasic x = false ∧ s.tableau.occurs x = false := by
  have hwf := h.shaped.wellFormed
  constructor
  · refine (Bool.not_eq_true _).mp fun hb => ?_
    obtain ⟨f, hf⟩ := hwf.isBasic_iff.mp hb
    exact hx (h.mentioned hf).1
  · refine (Bool.not_eq_true _).mp fun hocc => ?_
    obtain ⟨b, f, hb, hin⟩ := hwf.occurs_iff.mp hocc
    exact hx ((h.mentioned hb).2 x hin)

theorem Coherent.addRow (h : s.Coherent ds) {u : Tableau} (hu : s.tableau.addRow x d = .ok u)
    (hreg : ∀ y ∈ x :: d.vars, s.isRegistered y = true) {st : Store τ} (hsame : Store.SameBounds s.store st)
    (hvalue : st.value = Function.update s.store.value x ((s.tableau.resolve d).evalDelta s.store.value))
    (hsafe : st.safe = Function.update s.store.safe x ((s.tableau.resolve d).evalDelta s.store.safe))
    (htracks : s.store.Tracks → st.Tracks) :
    ({ s with tableau := u, store := st } : Solver τ).Coherent ((x, d) :: ds) := by
  have hwf := h.shaped.wellFormed
  have hsize : u.size = s.tableau.size := Tableau.size_addRow hwf hu fun y hy => h.room (hreg y hy)
  refine ⟨⟨Tableau.wellFormed_addRow hwf hu, ?_⟩, fun hy => ?_, ?_, fun {b f} hb => ?_, Tableau.denotes_addRow hwf hu h.denotes,
    ?_, ?_, htracks h.tracks, h.disciplined.congr hsame⟩
  · exact hsame.size.trans (h.shaped.size.trans hsize.symm)
  · exact Nat.lt_of_lt_of_eq (h.room hy) hsize.symm
  · rintro y ⟨d', hd', hy⟩
    rcases List.mem_cons.mp hd' with rfl | hd'
    · exact hreg y (List.mem_cons.mpr hy)
    · exact h.announced ⟨d', hd', hy⟩
  · rw [Tableau.row?_addRow hwf hu] at hb
    split at hb
    · rename_i hbx
      obtain rfl := Option.some.inj hb
      refine ⟨⟨(x, d), List.mem_cons_self, Or.inl hbx.symm⟩, fun y hy => ?_⟩
      obtain ⟨z, hz, ⟨-, rfl⟩ | ⟨g, hg, hyg⟩⟩ := Tableau.mem_vars_resolve hy
      · exact ⟨(x, d), List.mem_cons_self, Or.inr hz⟩
      · exact ((h.mentioned hg).2 y hyg).cons _
    · exact ⟨(h.mentioned hb).1.cons _, fun y hy => ((h.mentioned hb).2 y hy).cons _⟩
  · show u.SolvesDelta st.value
    rw [hvalue]
    exact solvesDelta_addRow hwf hu h.solves
  · show u.SolvesDelta st.safe
    rw [hsafe]
    exact solvesDelta_addRow hwf hu h.safe

/-- A variable that owns no row and occurs in none can be given one that does not mention it. -/
theorem addRow_ok (h : s.Sound ds) (hnb : s.isBasic x = false) (hocc : s.tableau.occurs x = false) (hself : x ∉ d.vars) :
    ∃ t, s.addRow x d = .ok t ∧ t.Sound ((x, d) :: ds) ∧ Carries s t ∧ (s.Settled → t.Settled) := by
  obtain ⟨hc, hann, hreg⟩ := h.coherent.registerAll (x :: d.vars)
  obtain ⟨s₁, hs₁⟩ : ∃ s₁, s₁ = (x :: d.vars).foldl Solver.register s := ⟨_, rfl⟩
  rw [← hs₁] at hc hann hreg
  have hwf := hc.shaped.wellFormed
  have hnb' : s₁.tableau.isBasic x = false := (hann.basic x).trans hnb
  have hocc' : s₁.tableau.occurs x = false := by
    rw [h.coherent.shaped.wellFormed.occurs_congr hwf hann.row, hocc]
  obtain ⟨u, hu⟩ := Tableau.addRow_ok hnb' hocc' hself
  have hsize : u.size = s₁.tableau.size := Tableau.size_addRow hwf hu fun y hy => hc.room (hreg y hy)
  have hrow : u.row? x = some (s₁.tableau.resolve d) := by rw [Tableau.row?_addRow hwf hu, if_pos rfl]
  have hslots : ∀ y ∈ (s₁.tableau.resolve d).vars, y < s₁.store.size := by
    intro y hy
    rw [hc.shaped.size, ← hsize]
    exact (Tableau.wellFormed_addRow hwf hu).range hrow hy
  have hvalue := rowValue_ok (s := { s₁ with tableau := u }) (·.value) hrow hslots
  have hsafe := rowValue_ok (s := { s₁ with tableau := u }) (·.safe) hrow hslots
  obtain ⟨st, hst, hsame, hv, hs, htracks⟩ := Store.assignBoth_ok (s := s₁.store) (x := x)
    (hc.shaped.size ▸ hc.room (hreg x List.mem_cons_self)) ((s₁.tableau.resolve d).evalDelta s₁.store.value)
    ((s₁.tableau.resolve d).evalDelta s₁.store.safe)
  have hcoh := hc.addRow hu hreg hsame hv hs htracks
  have hbasic : ∀ {y}, u.isBasic y = true ↔ y = x ∨ s₁.tableau.isBasic y = true := Tableau.isBasic_addRow hwf hu _
  obtain ⟨q, hq, hgrows, hin, -⟩ := inspect_ok hcoh.shaped (x := x) (hbasic.mpr (Or.inl rfl))
  have hwithin : ∀ {y}, y ≠ x →
      (({ s₁ with tableau := u, store := st, queue := q } : Solver τ).Within y ↔ s₁.Within y) := fun hy =>
    within_congr hsame.bounds ((congrFun hv _).trans (Function.update_of_ne hy _ _))
  refine ⟨{ s₁ with tableau := u, store := st, queue := q }, ?_, ⟨hcoh.withQueue q, fun y hy hn => ?_, ?_⟩, ?_,
    fun hset y hy => ?_⟩
  · have hfold : s.addRow x d = (do
        let s := { s₁ with tableau := ← s₁.tableau.addRow x d }
        let value ← s.rowValue (·.value) x
        let safe ← s.rowValue (·.safe) x
        { s with store := ← s.store.assignBoth x value safe }.inspect x) := by
      rw [hs₁]
      rfl
    rw [hfold]
    simp only [hu, ok_bind, hvalue, hsafe]
    exact (congrArg (· >>= _) hst).trans hq
  · -- The new owner is inspected; the values of all others are what they were.
    by_cases hyx : y = x
    · subst hyx
      exact hin hn
    · refine hgrows.mem ?_
      exact hann.queued h.queued y ((hbasic.mp hy).resolve_left hyx) ((hwithin hyx).not.mp hn)
  · exact hgrows.sorted (hann.queue ▸ h.sorted)
  · exact hann.carries.trans ⟨Store.levels_congr hsame, id⟩
  · have hy' := hbasic.not.mp (by rw [show u.isBasic y = false from hy]; exact Bool.false_ne_true)
    rw [not_or, Bool.not_eq_true] at hy'
    exact (hwithin hy'.1).mpr (hann.settled hset y hy'.2)

/-- Rows can be added one after the other if none of them defines a variable that one before mentions. -/
theorem addRows_ok {rows : List (Var × LinearForm)} (h : s.Sound ds) (hset : s.Settled)
    (hunused : ∀ p ∈ rows, ¬Mentions ds p.1) (hself : ∀ p ∈ rows, p.1 ∉ p.2.vars)
    (hfresh : rows.Pairwise fun p q => q.1 ≠ p.1 ∧ q.1 ∉ p.2.vars) :
    ∃ t, rows.foldlM (fun s p => s.addRow p.1 p.2) s = .ok t ∧ t.Sound (rows.reverse ++ ds) ∧ t.Settled ∧ Carries s t := by
  induction rows generalizing ds s with
  | nil => exact ⟨s, rfl, h, hset, .refl s⟩
  | cons p rows ih =>
    obtain ⟨hnew, hrest⟩ := List.forall_mem_cons.mp hunused
    obtain ⟨hp, hrestSelf⟩ := List.forall_mem_cons.mp hself
    obtain ⟨hlater, hrestFresh⟩ := List.pairwise_cons.mp hfresh
    obtain ⟨hnb, hocc⟩ := h.coherent.unused hnew
    obtain ⟨u, hu, hsound, hcarries, hsettled⟩ := addRow_ok h hnb hocc hp
    have hunused' : ∀ q ∈ rows, ¬Mentions (p :: ds) q.1 := by
      rintro q hq ⟨p', hp', hmentions⟩
      rcases List.mem_cons.mp hp' with rfl | hp'
      · exact hmentions.elim (hlater q hq).1 (hlater q hq).2
      · exact hrest q hq ⟨p', hp', hmentions⟩
    obtain ⟨t, ht, hsound', hsettled', hcarries'⟩ := ih hsound (hsettled hset) hunused' hrestSelf hrestFresh
    refine ⟨t, ?_, ?_, hsettled', hcarries.trans hcarries'⟩
    · rw [List.foldlM_cons, hu, ok_bind, ht]
    · rw [List.reverse_cons, List.append_assoc]
      exact hsound'

end Solver

end LinReal
