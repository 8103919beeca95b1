import LinReal.Proofs.Tableau.Solutions
import Mathlib.Tactic.LinearCombination

/-! Pivots. The row of the leaving variable is solved for the entering one, and every other row has the entering variable
    replaced by the solved row. So the rows after a pivot follow from the rows before it, and they have the same
    solutions. -/

namespace LinReal

namespace LinearForm

variable {f g : LinearForm} {e x : Var} {v : Var → Rat}

/-- The form with `e` replaced by the form `g`. -/
def replace (f : LinearForm) (e : Var) (g : LinearForm) : LinearForm :=
  match f.coeff? e with
  | none => f
  | some a => (f.erase e).addScaled a g

theorem replace_of_not_mem (h : e ∉ f.vars) : f.replace e g = f := by
  rw [replace, coeff?_eq_none_iff.mpr h]

theorem IsNormal.replace (hf : f.IsNormal) (e : Var) (g : LinearForm) : (f.replace e g).IsNormal := by
  unfold LinearForm.replace
  split
  · exact hf
  · exact (hf.erase e).addScaled _ g

theorem mem_vars_replace (h : x ∈ (f.replace e g).vars) : (x ≠ e ∧ x ∈ f.vars) ∨ x ∈ g.vars := by
  unfold LinearForm.replace at h
  split at h
  · rename_i hn
    refine Or.inl ⟨?_, h⟩
    rintro rfl
    exact coeff?_eq_none_iff.mp hn h
  · exact (mem_vars_addScaled h).imp mem_vars_erase.mp id

theorem IsNormal.eval_replace (hf : f.IsNormal) (hv : v e = g.eval v) : (f.replace e g).eval v = f.eval v := by
  unfold LinearForm.replace
  split
  · rfl
  · rename_i a ha
    rw [eval_addScaled, hf.eval_eq ha, hv]
    ring

end LinearForm

namespace Tableau

open LinearForm

variable {t u : Tableau} {b c e l x y : Var} {f g r : LinearForm} {a : Rat}

/-! ### Adding a multiple of a form to a row -/

section AddMultiple

variable {s : Row} {before after : LinearForm} {columns : Table (List Var)}

theorem size_reindex (b x : Var) (before after : LinearForm) (columns : Table (List Var)) :
    (reindex b x before after columns).size = columns.size := by
  unfold reindex
  split <;> simp

theorem get?_reindex_of_ne (h : y ≠ x) (b : Var) : (reindex b y before after columns).get? x = columns.get? x := by
  unfold reindex
  split <;> simp [Table.get?_modify, h]

theorem ascending_reindex (h : ∀ x, ((columns.get? x).getD []).Pairwise (· < ·)) (b y : Var) (before after : LinearForm)
    (x : Var) : (((reindex b y before after columns).get? x).getD []).Pairwise (· < ·) := by
  unfold reindex
  split
  · exact foldl_modify_column (p := List.Pairwise (· < ·)) (fun _ => pairwise_enterColumn) [y] h x
  · exact foldl_modify_column (p := List.Pairwise (· < ·)) (fun _ => pairwise_leaveColumn) [y] h x
  · exact h x

/-- If the column of `x` listed `b` just when its row mentioned `x`, it does so after the term has changed. -/
theorem mem_column_reindex (hx : x < columns.size) (hb : b ∈ (columns.get? x).getD [] ↔ x ∈ before.vars) (c : Var) :
    c ∈ ((reindex b x before after columns).get? x).getD [] ↔
      if c = b then x ∈ after.vars else c ∈ (columns.get? x).getD [] := by
  obtain ⟨col, hcol⟩ := Option.isSome_iff_exists.mp (Table.isSome_get?_iff.mpr hx)
  rw [hcol, Option.getD_some, ← mentions_iff] at hb
  rw [← mentions_iff, reindex]
  cases hbefore : before.mentions x <;> cases hafter : after.mentions x <;> by_cases hc : c = b <;>
    simp_all [Table.get?_modify, mem_enterColumn]

theorem mem_column_addTerm (hx : x < columns.size) (hs : s.owner ∈ (columns.get? x).getD [] ↔ x ∈ s.form.vars) (y : Var)
    (a : Rat) (c : Var) : c ∈ ((addTerm s columns y a).2.get? x).getD [] ↔
      if c = s.owner then x ∈ (addTerm s columns y a).1.form.vars else c ∈ (columns.get? x).getD [] := by
  by_cases hxy : y = x
  · subst hxy
    exact mem_column_reindex hx hs c
  · rw [addTerm, get?_reindex_of_ne hxy, mem_vars_insertTerm_of_ne (Ne.symm hxy)]
    split
    · rename_i hc
      rw [hc, hs]
    · rfl

theorem addMultiple_cons (s : Row) (columns : Table (List Var)) (m : Rat) (p : Var × Rat) (g : LinearForm) :
    addMultiple s columns m (p :: g) =
      addMultiple (addTerm s columns p.1 (m * p.2)).1 (addTerm s columns p.1 (m * p.2)).2 m g := rfl

/-- A multiple of a normal form has no term that is zero, so every term can be put into its place. -/
theorem addMultiple_fst {m : Rat} (hm : m ≠ 0) (hg : g.IsNormal) (s : Row) (columns : Table (List Var)) :
    (addMultiple s columns m g).1 = ⟨s.owner, s.form.addScaled m g⟩ := by
  induction g generalizing s columns with
  | nil => rfl
  | cons p g ih =>
    obtain ⟨-, hp, hg⟩ := isNormal_cons.mp hg
    have hterm : s.form.addTerm p.1 (m * p.2) = insertTerm p.1 (m * p.2) s.form := addTerm_of_ne_zero (mul_ne_zero hm hp)
    rw [addMultiple_cons, ih hg, addScaled_cons, hterm]
    rfl

theorem size_addMultiple (s : Row) (columns : Table (List Var)) (m : Rat) (g : LinearForm) :
    (addMultiple s columns m g).2.size = columns.size := by
  induction g generalizing s columns with
  | nil => rfl
  | cons p g ih => rw [addMultiple_cons, ih, addTerm, size_reindex]

theorem ascending_addMultiple (h : ∀ x, ((columns.get? x).getD []).Pairwise (· < ·)) (s : Row) (m : Rat) (g : LinearForm)
    (x : Var) : (((addMultiple s columns m g).2.get? x).getD []).Pairwise (· < ·) := by
  induction g generalizing s columns with
  | nil => exact h x
  | cons p g ih => exact ih (ascending_reindex h s.owner p.1 s.form (insertTerm p.1 (m * p.2) s.form)) _

theorem mem_column_addMultiple (hx : x < columns.size) (hs : s.owner ∈ (columns.get? x).getD [] ↔ x ∈ s.form.vars) (m : Rat)
    (g : LinearForm) (c : Var) : c ∈ ((addMultiple s columns m g).2.get? x).getD [] ↔
      if c = s.owner then x ∈ (addMultiple s columns m g).1.form.vars else c ∈ (columns.get? x).getD [] := by
  induction g generalizing s columns with
  | nil =>
    split
    · rename_i hc
      exact hc ▸ hs
    · rfl
  | cons p g ih =>
    have hterm := mem_column_addTerm hx hs p.1 (m * p.2)
    have howner := (hterm s.owner).trans (iff_of_eq (if_pos rfl))
    rw [addMultiple_cons, ih (by rwa [addTerm, size_reindex]) howner, hterm]
    have hsame : (addTerm s columns p.1 (m * p.2)).1.owner = s.owner := rfl
    rw [hsame]
    by_cases hc : c = s.owner
    · rw [if_pos hc, if_pos hc]
    · simp only [if_neg hc]

end AddMultiple

/-! ### Replacing a variable in some rows -/

/-- The row of `b` is changed, and all columns follow but that of the replaced variable. -/
theorem rowChange_substitute (h : t.Stored) (hf : t.row? b = some f) (he : e ∈ f.vars) (hg : g.IsNormal) :
    RowChange t (t.substitute e g b) b (some (f.replace e g)) (· ≠ e) := by
  obtain ⟨a, ha⟩ := Option.ne_none_iff_exists'.mp (mt coeff?_eq_none_iff.mp (not_not_intro he))
  have hstored := h.stored?_eq hf
  have hrow := addMultiple_fst ((h.normal hf).coeff?_ne_zero ha) hg ⟨b, f.erase e⟩ t.columns
  have hsub : t.substitute e g b = { t with
      rows := t.rows.set b (some ⟨b, (f.erase e).addScaled a g⟩)
      columns := (addMultiple ⟨b, f.erase e⟩ t.columns a g).2 } := by
    simp only [substitute, hstored, ha, hrow]
  have hreplace : f.replace e g = (f.erase e).addScaled a g := by rw [LinearForm.replace, ha]
  rw [hsub, hreplace]
  refine ⟨Table.size_set _ _ _, size_addMultiple _ _ _ _, rfl, fun c => ?_, fun hasc x => ?_, fun {x} hxe hx hl c => ?_⟩
  · rw [stored?, Table.get?_set]
    simp only [show b < t.rows.size from lt_size_of_row? hf, and_true]
    split
    · rfl
    · rfl
  · exact ascending_addMultiple hasc _ _ _ _
  · rw [show (f.erase e).addScaled a g = (addMultiple ⟨b, f.erase e⟩ t.columns a g).1.form by rw [hrow]]
    refine mem_column_addMultiple hx ?_ a g c
    rw [mem_vars_erase, and_iff_right hxe]
    refine (hl b).trans ⟨?_, fun hxf => ⟨f, hf, hxf⟩⟩
    rintro ⟨f', hf', hxf⟩
    rw [hf] at hf'
    exact Option.some.inj hf' ▸ hxf

/-- What replacing a variable in the rows of several owners does to the tableau: the rows of these owners are changed, and
    the columns follow, but for that of the replaced variable. -/
theorem foldl_substitute (h : t.Stored) (hnormal : g.IsNormal) (hg : ∀ x ∈ g.vars, x < t.size) {bs : List Var} (hbs : bs.Nodup)
    (hin : ∀ b ∈ bs, ∃ f, t.row? b = some f ∧ e ∈ f.vars) :
    (bs.foldl (substitute · e g) t).Stored ∧
      (∀ x, x ≠ e → t.Lists x → (bs.foldl (substitute · e g) t).Lists x) ∧
      (bs.foldl (substitute · e g) t).basis = t.basis ∧ (bs.foldl (substitute · e g) t).size = t.size ∧
      ∀ x, (bs.foldl (substitute · e g) t).row? x = if x ∈ bs then (t.row? x).map (·.replace e g) else t.row? x := by
  induction bs generalizing t with
  | nil => exact ⟨h, fun _ _ hl => hl, rfl, rfl, fun x => by simp⟩
  | cons b bs ih =>
    obtain ⟨hb, hbs⟩ := List.nodup_cons.mp hbs
    obtain ⟨f, hf, he⟩ := hin b List.mem_cons_self
    have hchange := rowChange_substitute h hf he hnormal
    have hstored : (t.substitute e g b).Stored := by
      refine hchange.stored h (fun _ hf' => ?_) (fun _ hf' x hx => ?_)
      · obtain rfl := Option.some.inj hf'
        exact (h.normal hf).replace e g
      · obtain rfl := Option.some.inj hf'
        rcases mem_vars_replace hx with hx | hx
        · exact h.range hf hx.2
        · exact hg x hx
    have hin' : ∀ c ∈ bs, ∃ f, (t.substitute e g b).row? c = some f ∧ e ∈ f.vars := by
      intro c hc
      have hbc : b ≠ c := by
        rintro rfl
        exact hb hc
      rw [hchange.row?, if_neg hbc]
      exact hin c (List.mem_cons_of_mem _ hc)
    obtain ⟨h1, h2, h3, h4, h5⟩ := ih hstored (by rwa [hchange.size]) hbs hin'
    refine ⟨h1, fun x hx hl => h2 x hx (hchange.lists h hstored hx hl), h3.trans hchange.basis, h4.trans hchange.size,
      fun x => ?_⟩
    rw [List.foldl_cons, h5, hchange.row?]
    by_cases hx : b = x
    · subst hx
      simp [hb, hf]
    · simp [hx, Ne.symm hx]

/-- Once no row mentions a variable, emptying its column brings all columns up to date. -/
theorem Stored.indexed_of_unmentioned (h : t.Stored) (hlists : ∀ x, x ≠ e → t.Lists x) (he : e < t.size)
    (hmention : ∀ b f, t.row? b = some f → e ∉ f.vars) : ({ t with columns := t.columns.set e [] } : Tableau).Indexed := by
  have hcolumn : ∀ x, ({ t with columns := t.columns.set e [] } : Tableau).column x = if x = e then [] else t.column x := by
    intro x
    rw [column, Table.get?_set]
    simp only [show e < t.columns.size from h.columns_size ▸ he, and_true, eq_comm (a := e)]
    split <;> rfl
  refine ⟨⟨(Table.size_set _ _ _).trans h.columns_size, h.basis_size, h.owner, h.normal, h.range, fun x => ?_⟩,
    fun x b => ?_⟩
  · rw [hcolumn]
    split
    · exact List.Pairwise.nil
    · exact h.ascending x
  · rw [hcolumn]
    split
    · rename_i hxe
      simp only [List.not_mem_nil, false_iff, not_exists, not_and]
      exact fun f hf => hxe ▸ hmention b f hf
    · rename_i hxe
      exact hlists x hxe b

/-! ### Exchanging two variables -/

section Exchange

variable (h : t.WellFormed) (hr : t.row? l = some r) (ha : r.coeff? e = some a)
include h hr ha

theorem entering_nonbasic : t.isBasic e = false ∧ t.row? e = none ∧ e < t.size ∧ e ≠ l := by
  have he := h.nonbasic hr (mem_vars_of_coeff? ha)
  refine ⟨he, h.row?_eq_none he, h.range hr (mem_vars_of_coeff? ha), ?_⟩
  rintro rfl
  rw [h.row?_eq_none he] at hr
  cases hr

/-- The variables of the solved row are the leaving variable and nonbasic variables other than the entering one. -/
theorem mem_vars_solved (hx : x ∈ ((r.erase e).solve l a).vars) : x ≠ e ∧ x < t.size ∧ (x = l ∨ t.isBasic x = false) := by
  rcases mem_vars_solve hx with rfl | hx
  · exact ⟨(entering_nonbasic h hr ha).2.2.2.symm, lt_size_of_row? hr, Or.inl rfl⟩
  · obtain ⟨hne, hx⟩ := mem_vars_erase.mp hx
    exact ⟨hne, h.range hr hx, Or.inr (h.nonbasic hr hx)⟩

theorem isNormal_solved : ((r.erase e).solve l a).IsNormal :=
  ((h.normal hr).erase e).solve l ((h.normal hr).coeff?_ne_zero ha)

/-- The tableau with the solved row in place of the row of the leaving variable. -/
theorem solved_view {s : Tableau} (hs : s = (t.setRow l none).setRow e (some ((r.erase e).solve l a))) :
    s.Indexed ∧ s.basis = t.basis ∧ s.size = t.size ∧
      ∀ x, s.row? x = if x = e then some ((r.erase e).solve l a) else if x = l then none else t.row? x := by
  have hl : l < t.size := lt_size_of_row? hr
  have he : e < (t.setRow l none).size := by
    rw [size_setRow]
    exact (entering_nonbasic h hr ha).2.2.1
  have hcleared : (t.setRow l none).Indexed :=
    h.toIndexed.setRow hl (fun f hf => by cases hf) (fun f hf => by cases hf)
  subst hs
  refine ⟨hcleared.setRow he (fun f hf => ?_) (fun f hf x hx => ?_), by simp, by simp, fun x => ?_⟩
  · obtain rfl := Option.some.inj hf
    exact isNormal_solved h hr ha
  · obtain rfl := Option.some.inj hf
    rw [size_setRow]
    exact (mem_vars_solved h hr ha hx).2.1
  · rw [row?_setRow, row?_setRow]
    simp only [he, hl, and_true, eq_comm (b := x)]

/-- The tableau with the entering variable replaced in all rows. Its own column is the one that was left behind. -/
theorem replaced_view {s u : Tableau} (hs : s = (t.setRow l none).setRow e (some ((r.erase e).solve l a)))
    (hu : u = (s.column e).foldl (substitute · e ((r.erase e).solve l a)) s) :
    u.Stored ∧ (∀ x, x ≠ e → u.Lists x) ∧ u.basis = t.basis ∧ u.size = t.size ∧
      ∀ x, u.row? x = if x = e then some ((r.erase e).solve l a)
        else if x = l then none else (t.row? x).map (·.replace e ((r.erase e).solve l a)) := by
  obtain ⟨hind, hbasis, hsize, hrows⟩ := solved_view h hr ha hs
  have hnot : e ∉ ((r.erase e).solve l a).vars := fun he => (mem_vars_solved h hr ha he).1 rfl
  have hnodup : (s.column e).Nodup := (hind.ascending e).imp fun hlt => Nat.ne_of_lt hlt
  obtain ⟨hstored, hlists, hbasis', hsize', hrows'⟩ := foldl_substitute hind.toStored
    (isNormal_solved h hr ha) (fun x hx => hsize ▸ (mem_vars_solved h hr ha hx).2.1) hnodup fun b hb => hind.mem_column.mp hb
  rw [← hu] at hstored hlists hbasis' hsize' hrows'
  refine ⟨hstored, fun x hx => hlists x hx (hind.lists x), hbasis'.trans hbasis, hsize'.trans hsize, fun x => ?_⟩
  have hmem := hind.mem_column (b := x) (x := e)
  rw [hrows', hrows] at *
  by_cases hxe : x = e
  · rw [if_pos hxe, Option.map_some, replace_of_not_mem hnot, ite_self, if_pos hxe]
  · by_cases hxl : x = l
    · have hle : l ≠ e := (entering_nonbasic h hr ha).2.2.2.symm
      simp [hxl, hle]
    · rw [if_neg hxe, if_neg hxl] at hmem ⊢
      rw [if_neg hxe, if_neg hxl]
      cases hrx : t.row? x with
      | none => simp
      | some f =>
        -- A row outside the column does not mention the variable, so replacing it there changes nothing.
        by_cases hef : e ∈ f.vars
        · rw [if_pos (hmem.mpr ⟨f, hrx, hef⟩)]
        · rw [Option.map_some, replace_of_not_mem hef, ite_self]

/-- The rows and the basis of the tableau after the exchange. -/
theorem exchange_view : (t.exchange l e r a).Indexed ∧ (t.exchange l e r a).size = t.size ∧
    (∀ x, (t.exchange l e r a).isBasic x = true ↔ x = e ∨ (x ≠ l ∧ t.isBasic x = true)) ∧
    ∀ x, (t.exchange l e r a).row? x =
      if x = e then some ((r.erase e).solve l a)
      else if x = l then none else (t.row? x).map (·.replace e ((r.erase e).solve l a)) := by
  obtain ⟨s, hs⟩ : ∃ s, s = (t.setRow l none).setRow e (some ((r.erase e).solve l a)) := ⟨_, rfl⟩
  obtain ⟨u, hu⟩ : ∃ u, u = (s.column e).foldl (substitute · e ((r.erase e).solve l a)) s := ⟨_, rfl⟩
  have heq : t.exchange l e r a = { u with columns := u.columns.set e [], basis := (u.basis.erase l).insert e } := by
    rw [hu, hs]
    rfl
  obtain ⟨hstored, hlists, hbasis, hsize, hrows⟩ := replaced_view h hr ha hs hu
  obtain ⟨-, -, he, -⟩ := entering_nonbasic h hr ha
  rw [← hsize] at he
  have hmention : ∀ b f, u.row? b = some f → e ∉ f.vars := fun b f hf hx => by
    have hnot : e ∉ ((r.erase e).solve l a).vars := fun he => (mem_vars_solved h hr ha he).1 rfl
    rw [hrows] at hf
    split at hf
    · exact hnot (Option.some.inj hf ▸ hx)
    · split at hf
      · cases hf
      · obtain ⟨g, -, rfl⟩ := Option.map_eq_some_iff.mp hf
        exact (mem_vars_replace hx).elim (fun hx => hx.1 rfl) hnot
  have hbasisSize : ((u.basis.erase l).insert e).size = u.basis.size := by
    rw [VarSet.size_insert, VarSet.size_erase]
    rwa [VarSet.size_erase, hstored.basis_size]
  rw [heq]
  refine ⟨(hstored.indexed_of_unmentioned hlists he hmention).withBasis hbasisSize, hsize, fun x => ?_, hrows⟩
  rw [isBasic_iff_mem, isBasic_iff_mem, VarSet.mem_insert, VarSet.mem_erase, hbasis]

theorem wellFormed_exchange : (t.exchange l e r a).WellFormed := by
  obtain ⟨hind, hsize, hbasic, hrows⟩ := exchange_view h hr ha
  refine ⟨hind, fun {x} => ?_, fun {b f x} hf hx => ?_⟩
  · rw [hbasic, hrows]
    by_cases hxe : x = e
    · simp [hxe]
    · by_cases hxl : x = l
      · simp [hxl, hxl ▸ hxe]
      · simp [hxe, hxl, h.isBasic_iff]
  · rw [← Bool.not_eq_true, hbasic, not_or, not_and, Bool.not_eq_true]
    have hsolved : ∀ {x}, x ∈ ((r.erase e).solve l a).vars → x ≠ e ∧ (x ≠ l → t.isBasic x = false) := fun hx =>
      ⟨(mem_vars_solved h hr ha hx).1, fun hxl => (mem_vars_solved h hr ha hx).2.2.resolve_left hxl⟩
    rw [hrows] at hf
    split at hf
    · obtain rfl := Option.some.inj hf
      exact hsolved hx
    · split at hf
      · cases hf
      · obtain ⟨g, hg, rfl⟩ := Option.map_eq_some_iff.mp hf
        rcases mem_vars_replace hx with ⟨hxe, hx⟩ | hx
        · exact ⟨hxe, fun _ => h.nonbasic hg hx⟩
        · exact hsolved hx

/-- A pivot keeps the solutions. -/
theorem solves_exchange_iff (v : Var → Rat) : (t.exchange l e r a).Solves v ↔ t.Solves v := by
  obtain ⟨-, hrow, -, hne⟩ := entering_nonbasic h hr ha
  obtain ⟨-, -, -, hrows⟩ := exchange_view h hr ha
  have ha0 : a ≠ 0 := (h.normal hr).coeff?_ne_zero ha
  have hsplit := (h.normal hr).eval_eq ha v
  have hentering : (t.exchange l e r a).row? e = some ((r.erase e).solve l a) := by rw [hrows, if_pos rfl]
  have hother : ∀ {x f}, x ≠ l → t.row? x = some f →
      (t.exchange l e r a).row? x = some (f.replace e ((r.erase e).solve l a)) := fun {x f} hxl hx => by
    have hxe : x ≠ e := by
      rintro rfl
      rw [hrow] at hx
      cases hx
    rw [hrows, if_neg hxe, if_neg hxl, hx, Option.map_some]
  constructor
  · intro hv b f hb
    have he : v e = ((r.erase e).solve l a).eval v := hv _ _ hentering
    by_cases hbl : b = l
    · subst hbl
      rw [hr] at hb
      obtain rfl := Option.some.inj hb
      have hcancel : a * a⁻¹ = 1 := mul_inv_cancel₀ ha0
      rw [hsplit, he, solve, eval_insertTerm, eval_scale]
      linear_combination (v b - (r.erase e).eval v) * -hcancel
    · have hb' := hv _ _ (hother hbl hb)
      rw [(h.normal hb).eval_replace he] at hb'
      exact hb'
  · intro hv b f hb
    have he : ((r.erase e).solve l a).eval v = v e := eval_solve v _ l e ha0 ((hv _ _ hr).trans hsplit)
    rw [hrows] at hb
    split at hb
    · rename_i hbe
      obtain rfl := Option.some.inj hb
      rw [hbe, he]
    · split at hb
      · cases hb
      · obtain ⟨g, hg, rfl⟩ := Option.map_eq_some_iff.mp hb
        rw [(h.normal hg).eval_replace he.symm]
        exact hv _ _ hg

end Exchange

theorem pivot_of_row? (h : t.WellFormed) (hr : t.row? l = some r) (ha : r.coeff? e = some a) :
    t.pivot l e = .ok (t.exchange l e r a) := by
  have hl : t.isBasic l = true := h.isBasic_iff.mpr ⟨r, hr⟩
  have he := (entering_nonbasic h hr ha).1
  have ha0 : a ≠ 0 := (h.normal hr).coeff?_ne_zero ha
  simp [pivot, hl, he, hr, ha, ha0]

end Tableau

end LinReal
