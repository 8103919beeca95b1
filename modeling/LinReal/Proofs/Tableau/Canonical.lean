import LinReal.Proofs.Tableau.Histories
import Mathlib.Data.List.Sort

/-! The form of a tableau is canonical: its size, its basis and the solutions of its rows determine it, down to the order of the
    terms and the columns. Pivots keep the size and the solutions, so of a series of pivots only the basis that it ends with
    can be seen. -/

namespace LinReal

namespace LinearForm

variable {f g : LinearForm} {x : Var} {a : Rat}

theorem IsNormal.mem_iff_coeff? (hf : f.IsNormal) : (x, a) ∈ f ↔ f.coeff? x = some a :=
  ⟨hf.coeff?_of_mem, mem_of_coeff?⟩

/-- The coefficient of a variable is what the form gains when the variable grows by one. -/
theorem IsNormal.coeff_eq_of_eval_eq (hf : f.IsNormal) (hg : g.IsNormal) (h : ∀ v, f.eval v = g.eval v) (x : Var) :
    f.coeff? x = g.coeff? x := by
  have hgain : (f.coeff? x).getD 0 = (g.coeff? x).getD 0 := by
    have hone := h (Function.update (fun _ => 0) x (0 + 1))
    rw [hf.eval_update, hg.eval_update, h] at hone
    simpa using hone
  cases hfx : f.coeff? x with
  | none =>
    cases hgx : g.coeff? x with
    | none => rfl
    | some b =>
      rw [hfx, hgx] at hgain
      exact absurd hgain.symm (hg.coeff?_ne_zero hgx)
  | some a =>
    cases hgx : g.coeff? x with
    | none =>
      rw [hfx, hgx] at hgain
      exact absurd hgain (hf.coeff?_ne_zero hfx)
    | some b =>
      rw [hfx, hgx] at hgain
      exact congrArg some hgain

/-- A normal form is determined by its values. -/
theorem IsNormal.eq_of_eval_eq (hf : f.IsNormal) (hg : g.IsNormal) (h : ∀ v, f.eval v = g.eval v) : f = g := by
  let r : Var × Rat → Var × Rat → Prop := fun p q => p.1 < q.1
  have hirrefl : Std.Irrefl r := ⟨fun p => lt_irrefl p.1⟩
  have hantisymm : Std.Antisymm r := ⟨fun p q hpq hqp => absurd hqp (lt_asymm hpq)⟩
  refine List.Pairwise.eq_of_mem_iff hf.1 hg.1 fun ⟨x, a⟩ => ?_
  rw [hf.mem_iff_coeff?, hg.mem_iff_coeff?, hf.coeff_eq_of_eval_eq hg h]

end LinearForm

namespace Tableau

open LinearForm

variable {t u w : Tableau} {ds : List (Var × LinearForm)} {l e x : Var}

/-! ### A tableau is known by its basis and its solutions -/

/-- The values of the nonbasic variables extend to a solution. -/
theorem WellFormed.exists_solves (h : t.WellFormed) (v : Var → Rat) :
    ∃ v', t.Solves v' ∧ ∀ x, t.isBasic x = false → v' x = v x := by
  obtain ⟨w, hw, hfree⟩ := h.exists_solution fun x => .ofRat (v x)
  exact ⟨fun x => (w x).std, (solvesDelta_iff.mp hw).1, fun x hx => congrArg DeltaRat.std (hfree x hx)⟩

theorem WellFormed.row?_eq (ht : t.WellFormed) (hu : u.WellFormed) (hbasic : ∀ x, u.isBasic x = t.isBasic x)
    (hsolves : ∀ v, u.Solves v ↔ t.Solves v) (x : Var) : u.row? x = t.row? x := by
  cases hx : t.isBasic x with
  | false => rw [ht.row?_eq_none hx, hu.row?_eq_none ((hbasic x).trans hx)]
  | true =>
    obtain ⟨f, hf⟩ := ht.isBasic_iff.mp hx
    obtain ⟨g, hg⟩ := hu.isBasic_iff.mp ((hbasic x).trans hx)
    rw [hf, hg]
    refine congrArg some ((hu.normal hg).eq_of_eval_eq (ht.normal hf) fun v => ?_)
    -- Both rows give `x` its value in the solution that extends the values of the nonbasic variables.
    obtain ⟨v', hv', hfree⟩ := ht.exists_solves v
    calc g.eval v = g.eval v' := eval_congr fun y hy => (hfree y ((hbasic y).symm.trans (hu.nonbasic hg hy))).symm
      _ = v' x := ((hsolves v').mpr hv' x g hg).symm
      _ = f.eval v' := hv' x f hf
      _ = f.eval v := eval_congr fun y hy => hfree y (ht.nonbasic hf hy)

theorem rows_get? (t : Tableau) (x : Var) : t.rows.get? x = if x < t.size then some (t.stored? x) else none := by
  split
  · rename_i hx
    obtain ⟨r, hr⟩ := Option.isSome_iff_exists.mp (Table.isSome_get?_iff.mpr hx)
    rw [stored?, hr, Option.join_some]
  · rename_i hx
    exact Table.get?_eq_none_iff.mpr (Nat.le_of_not_lt hx)

theorem Stored.columns_get? (h : t.Stored) (x : Var) :
    t.columns.get? x = if x < t.size then some (t.column x) else none := by
  rw [← h.columns_size]
  split
  · rename_i hx
    obtain ⟨c, hc⟩ := Option.isSome_iff_exists.mp (Table.isSome_get?_iff.mpr hx)
    rw [column, hc, Option.getD_some]
  · rename_i hx
    exact Table.get?_eq_none_iff.mpr (Nat.le_of_not_lt hx)

theorem Stored.stored?_eq_map (h : t.Stored) (x : Var) : t.stored? x = (t.row? x).map (Row.mk x) := by
  cases hx : t.row? x with
  | none => exact Option.map_eq_none_iff.mp hx
  | some f => exact h.stored?_eq hx

/-- The rows determine the tableau. -/
theorem WellFormed.eq_of_row? (ht : t.WellFormed) (hu : u.WellFormed) (hsize : u.size = t.size)
    (hrow : ∀ x, u.row? x = t.row? x) : u = t := by
  have hrows : u.rows = t.rows := Table.ext fun x => by
    rw [rows_get?, rows_get?, hsize, hu.stored?_eq_map, ht.stored?_eq_map, hrow]
  have hcolumn : ∀ x, u.column x = t.column x := fun x =>
    List.Pairwise.eq_of_mem_iff (hu.ascending x) (ht.ascending x) fun b => by
      rw [hu.mem_column, ht.mem_column, hrow]
  have hcolumns : u.columns = t.columns := Table.ext fun x => by
    rw [hu.columns_get?, ht.columns_get?, hsize, hcolumn]
  have hbasis : u.basis = t.basis := VarSet.ext (by rw [hu.basis_size, ht.basis_size, hsize]) fun x => by
    rw [← isBasic_iff_mem, ← isBasic_iff_mem, hu.isBasic_iff, ht.isBasic_iff, hrow]
  cases u
  cases t
  cases hrows
  cases hcolumns
  cases hbasis
  rfl

theorem WellFormed.eq_of_solves_iff (ht : t.WellFormed) (hu : u.WellFormed) (hsize : u.size = t.size)
    (hbasic : ∀ x, u.isBasic x = t.isBasic x) (hsolves : ∀ v, u.Solves v ↔ t.Solves v) : u = t :=
  ht.eq_of_row? hu hsize (ht.row?_eq hu hbasic hsolves)

/-! ### Series of pivots -/

/-- `u` comes from `t` by pivots, each of them legal where it is made. -/
inductive Pivots : Tableau → List (Var × Var) → Tableau → Prop where
  | nil {t : Tableau} : Pivots t [] t
  | cons {t u w : Tableau} {l e : Var} {ps : List (Var × Var)} (hl : (Edit.pivot l e).Legal t) (hu : t.pivot l e = .ok u)
    (hs : Pivots u ps w) : Pivots t ((l, e) :: ps) w

/-- What a legal pivot does: it exchanges two variables, and keeps the size and the solutions. -/
theorem WellFormed.pivot_ok (h : t.WellFormed) (hl : (Edit.pivot l e).Legal t) :
    ∃ u, t.pivot l e = .ok u ∧ u.WellFormed ∧ u.size = t.size ∧ (∀ v, u.Solves v ↔ t.Solves v) ∧
      (∀ x, u.isBasic x = true ↔ x = e ∨ (x ≠ l ∧ t.isBasic x = true)) ∧ ∃ f, u.row? e = some f ∧ l ∈ f.vars := by
  obtain ⟨hl, -, he⟩ := hl
  obtain ⟨r, hr⟩ := h.isBasic_iff.mp hl
  rw [hr, Option.getD_some] at he
  obtain ⟨a, ha⟩ := Option.ne_none_iff_exists'.mp (mt coeff?_eq_none_iff.mp (not_not_intro he))
  obtain ⟨-, hsize, hbasic, hrows⟩ := exchange_view h hr ha
  have hnot : l ∉ ((r.erase e).scale (-a⁻¹)).vars := fun hx => by
    have hnonbasic := h.nonbasic hr (mem_vars_erase.mp (mem_vars_scale.mp hx)).2
    exact Bool.noConfusion (hl.symm.trans hnonbasic)
  exact ⟨t.exchange l e r a, pivot_of_row? h hr ha, wellFormed_exchange h hr ha, hsize, solves_exchange_iff h hr ha, hbasic,
    (r.erase e).solve l a, by rw [hrows, if_pos rfl], mem_vars_insertTerm_self hnot⟩

theorem Pivots.keeps {ps : List (Var × Var)} (hp : Pivots t ps u) (h : t.WellFormed) :
    u.WellFormed ∧ u.size = t.size ∧ ∀ v, u.Solves v ↔ t.Solves v := by
  induction hp with
  | nil => exact ⟨h, rfl, fun _ => Iff.rfl⟩
  | cons hl hu _ ih =>
    obtain ⟨u', hu', hwf, hsize, hsolves, -⟩ := h.pivot_ok hl
    cases hu.symm.trans hu'
    obtain ⟨hwf', hsize', hsolves'⟩ := ih hwf
    exact ⟨hwf', hsize'.trans hsize, fun v => (hsolves' v).trans (hsolves v)⟩

theorem WellFormed.pivot_pivot (h : t.WellFormed) (hl : (Edit.pivot l e).Legal t) :
    ∃ u, t.pivot l e = .ok u ∧ (Edit.pivot e l).Legal u ∧ u.pivot e l = .ok t := by
  obtain ⟨u, hu, hwf, hsize, hsolves, hbasic, f, hf, hlf⟩ := h.pivot_ok hl
  have hback : (Edit.pivot e l).Legal u :=
    ⟨(hbasic e).mpr (Or.inl rfl), hwf.nonbasic hf hlf, by rwa [hf, Option.getD_some]⟩
  obtain ⟨w, hw, hwf', hsize', hsolves', hbasic', -⟩ := hwf.pivot_ok hback
  have hsame : ∀ x, w.isBasic x = t.isBasic x := fun x => by
    obtain ⟨hbl, hbe, -⟩ := hl
    rw [Bool.eq_iff_iff, hbasic', hbasic]
    by_cases hxl : x = l
    · simp [hxl, hbl]
    · by_cases hxe : x = e
      · simp [hxe, hbe, hxe ▸ hxl]
      · simp [hxl, hxe]
  refine ⟨u, hu, hback, ?_⟩
  rw [hw, h.eq_of_solves_iff hwf' (hsize'.trans hsize) hsame fun v => (hsolves' v).trans (hsolves v)]

/-- Two series of legal pivots that end with the same basis end with the same tableau: rows with the order of their terms,
    columns and basis are equal. In particular the opposite pivot takes a pivot back. -/
theorem Built.pivots_determined (h : Built ds t) :
    (∀ ps qs u w, Pivots t ps u → Pivots t qs w → (∀ x, x ∈ u.basis ↔ x ∈ w.basis) → u = w) ∧
      ∀ l e, (Edit.pivot l e).Legal t → ∃ u, t.pivot l e = .ok u ∧ (Edit.pivot e l).Legal u ∧ u.pivot e l = .ok t := by
  refine ⟨fun ps qs u w hu hw hbasis => ?_, fun l e => h.sound.1.pivot_pivot⟩
  obtain ⟨hwfu, hsizeu, hsolvesu⟩ := hu.keeps h.sound.1
  obtain ⟨hwfw, hsizew, hsolvesw⟩ := hw.keeps h.sound.1
  exact hwfw.eq_of_solves_iff hwfu (hsizeu.trans hsizew.symm) (fun x => Bool.eq_iff_iff.mpr (hbasis x))
    fun v => (hsolvesu v).trans (hsolvesw v).symm

/-- One pivot, and two pivots by way of another basis, both make the rows of `0` and `3` from those of `2` and `3`. -/
theorem Built.pivots_determined_detour : ∃ t u w, Built [(3, [(0, 1), (1, -1)]), (2, [(0, 1), (1, 1)])] t ∧
    Pivots t [(2, 0)] u ∧ Pivots t [(2, 1), (1, 0)] w ∧ (∀ x, x ∈ u.basis ↔ x ∈ w.basis) ∧ u = w ∧
      (Edit.pivot 3 1).Legal t ∧ ∃ v, t.pivot 3 1 = .ok v ∧ (Edit.pivot 1 3).Legal v ∧ v.pivot 1 3 = .ok t := by
  have hrun : (do
      let t₁ ← (Edit.addRow 2 [(0, 1), (1, 1)]).apply .empty
      let t₂ ← (Edit.addRow 3 [(0, 1), (1, -1)]).apply t₁
      let u ← t₂.pivot 2 0
      let w₁ ← t₂.pivot 2 1
      let w₂ ← w₁.pivot 1 0
      return decide ((Edit.addRow 3 [(0, 1), (1, -1)]).Legal t₁ ∧ (Edit.pivot 2 0).Legal t₂ ∧ (Edit.pivot 2 1).Legal t₂ ∧
        (Edit.pivot 1 0).Legal w₁ ∧ u.basis.members = w₂.basis.members ∧ (Edit.pivot 3 1).Legal t₂)) =
      (.ok true : Except Fault Bool) := by decide +kernel
  obtain ⟨t₁, h₁, hrun⟩ := bind_eq_ok.mp hrun
  obtain ⟨t₂, h₂, hrun⟩ := bind_eq_ok.mp hrun
  obtain ⟨u, hu, hrun⟩ := bind_eq_ok.mp hrun
  obtain ⟨w₁, hw₁, hrun⟩ := bind_eq_ok.mp hrun
  obtain ⟨w₂, hw₂, hrun⟩ := bind_eq_ok.mp hrun
  obtain ⟨hl₂, hlu, hlw₁, hlw₂, hmembers, hback⟩ := of_decide_eq_true (Except.ok.inj hrun)
  have h := (Built.empty.edit _ (by decide) h₁).edit _ hl₂ h₂
  have hpu : Pivots t₂ [(2, 0)] u := .cons hlu hu .nil
  have hpw : Pivots t₂ [(2, 1), (1, 0)] w₂ := .cons hlw₁ hw₁ (.cons hlw₂ hw₂ .nil)
  have hbasis : ∀ x, x ∈ u.basis ↔ x ∈ w₂.basis := fun x => by
    rw [← VarSet.mem_members, hmembers, VarSet.mem_members]
  obtain ⟨hsame, hundo⟩ := h.pivots_determined
  exact ⟨t₂, u, w₂, h, hpu, hpw, hbasis, hsame _ _ u w₂ hpu hpw hbasis, hback, hundo 3 1 hback⟩

end Tableau

end LinReal
