import LinReal.Tableau
import LinReal.Proofs.Form

/-! A tableau is well formed when its rows are normal forms over nonbasic variables, exactly the basic variables own one,
    and the columns list exactly the rows that mention a variable. What a change of row does to the columns is said one
    column at a time, since a pivot leaves one of them behind until its end. -/

namespace LinReal.Tableau

open LinearForm

variable {t u : Tableau} {b c e l x y : Var} {f r : LinearForm} {a : Rat}

/-! ### Rows and columns -/

theorem lt_size_of_stored? {r : Row} (h : t.stored? b = some r) : b < t.size :=
  Table.lt_size_of_get? (Option.join_eq_some_iff.mp h)

theorem lt_size_of_row? (h : t.row? b = some f) : b < t.size := by
  obtain ⟨r, hr, -⟩ := row?_eq_some_iff.mp h
  exact lt_size_of_stored? hr

/-- The rows are stored by their owners, as normal forms over the variables that the tableau has room for, and the columns
    ascend. -/
structure Stored (t : Tableau) : Prop where
  columns_size : t.columns.size = t.size
  basis_size : t.basis.size = t.size
  owner : ∀ {b r}, t.stored? b = some r → r.owner = b
  normal : ∀ {b f}, t.row? b = some f → f.IsNormal
  range : ∀ {b f x}, t.row? b = some f → x ∈ f.vars → x < t.size
  ascending : ∀ x, (t.column x).Pairwise (· < ·)

/-- The column of `x` lists the rows that mention `x`. -/
def Lists (t : Tableau) (x : Var) : Prop := ∀ b, b ∈ t.column x ↔ ∃ f, t.row? b = some f ∧ x ∈ f.vars

structure Indexed (t : Tableau) : Prop extends Stored t where
  lists : ∀ x, t.Lists x

theorem Indexed.mem_column (h : t.Indexed) : b ∈ t.column x ↔ ∃ f, t.row? b = some f ∧ x ∈ f.vars := h.lists x b

theorem Stored.stored?_eq (h : t.Stored) (hf : t.row? b = some f) : t.stored? b = some ⟨b, f⟩ := by
  obtain ⟨⟨c, g⟩, hr, rfl⟩ := row?_eq_some_iff.mp hf
  have hc : c = b := h.owner hr
  rw [hr, hc]

theorem Stored.mem_ownedRows (h : t.Stored) : (b, f) ∈ t.ownedRows ↔ t.row? b = some f := by
  simp only [ownedRows, List.mem_filterMap, List.mem_range, Option.map_eq_some_iff, Prod.mk.injEq]
  constructor
  · rintro ⟨x, -, r, hr, rfl, rfl⟩
    rw [h.owner hr]
    exact row?_eq_some_iff.mpr ⟨r, hr, rfl⟩
  · intro hf
    exact ⟨b, lt_size_of_row? hf, ⟨b, f⟩, h.stored?_eq hf, rfl, rfl⟩

theorem Indexed.withBasis (h : t.Indexed) {basis : VarSet} (hb : basis.size = t.basis.size) :
    ({ t with basis := basis } : Tableau).Indexed :=
  ⟨⟨h.columns_size, hb.trans h.basis_size, h.owner, h.normal, h.range, h.ascending⟩, h.lists⟩

theorem row?_withBasis (t : Tableau) (basis : VarSet) (x : Var) :
    ({ t with basis := basis } : Tableau).row? x = t.row? x := rfl

theorem size_withBasis (t : Tableau) (basis : VarSet) : ({ t with basis := basis } : Tableau).size = t.size := rfl

theorem column_of_size_le (h : t.columns.size ≤ x) : t.column x = [] := by
  rw [column, Table.get?_eq_none_iff.mpr h, Option.getD_none]

theorem columns_size_setRow (t : Tableau) (b : Var) (f : Option LinearForm) :
    (t.setRow b f).columns.size = t.columns.size := by
  simp only [setRow, Table.size_foldl_modify]

theorem pairwise_leaveColumn {cs : List Var} (h : cs.Pairwise (· < ·)) : (leaveColumn b cs).Pairwise (· < ·) := h.filter _

theorem pairwise_enterColumn {cs : List Var} (h : cs.Pairwise (· < ·)) : (enterColumn b cs).Pairwise (· < ·) := by
  induction cs with
  | nil => exact List.pairwise_singleton _ _
  | cons c cs ih =>
    obtain ⟨hc, hcs⟩ := List.pairwise_cons.mp h
    simp only [enterColumn]
    split
    · rename_i hb
      refine List.pairwise_cons.mpr ⟨fun d hd => ?_, h⟩
      rcases List.mem_cons.mp hd with rfl | hd
      · exact hb
      · exact Nat.lt_trans hb (hc d hd)
    · split
      · exact h
      · rename_i hb hne
        refine List.pairwise_cons.mpr ⟨fun d hd => ?_, ih hcs⟩
        rcases mem_enterColumn.mp hd with rfl | hd
        · exact Nat.lt_of_le_of_ne (Nat.le_of_not_lt hb) (Ne.symm hne)
        · exact hc d hd

/-- A property of all columns is kept when some of them are changed by a function that keeps it. -/
theorem foldl_modify_column {p : List Var → Prop} {g : List Var → List Var} (hg : ∀ cs, p cs → p (g cs)) (xs : List Var)
    {cs : Table (List Var)} (h : ∀ x, p ((cs.get? x).getD [])) :
    ∀ x, p (((xs.foldl (fun cs x => cs.modify x g) cs).get? x).getD []) := by
  induction xs generalizing cs with
  | nil => exact h
  | cons y ys ih =>
    refine ih fun x => ?_
    have hx := h x
    rw [Table.get?_modify]
    split
    · cases hc : cs.get? x with
      | none => rwa [hc] at hx
      | some col =>
        rw [hc] at hx
        exact hg col hx
    · exact hx

theorem lists_of_size_le (h : t.Stored) (hx : t.size ≤ x) : t.Lists x := by
  intro b
  rw [column_of_size_le (h.columns_size ▸ hx)]
  constructor
  · intro hb
    cases hb
  · rintro ⟨f, hf, hxf⟩
    exact absurd (h.range hf hxf) (Nat.not_lt.mpr hx)

/-! ### A change of one row -/

/-- `u` is `t` after the row of `b` has become `row`. The columns in `p` have followed. -/
structure RowChange (t u : Tableau) (b : Var) (row : Option LinearForm) (p : Var → Prop) : Prop where
  size : u.size = t.size
  columns_size : u.columns.size = t.columns.size
  basis : u.basis = t.basis
  stored? : ∀ c, u.stored? c = if b = c then row.map (Row.mk b) else t.stored? c
  ascending : (∀ x, (t.column x).Pairwise (· < ·)) → ∀ x, (u.column x).Pairwise (· < ·)
  column : ∀ {x}, p x → x < t.columns.size → t.Lists x →
    ∀ c, c ∈ u.column x ↔ if c = b then x ∈ (row.getD []).vars else c ∈ t.column x

namespace RowChange

variable {row : Option LinearForm} {p : Var → Prop}

theorem row? (h : RowChange t u b row p) (c : Var) : u.row? c = if b = c then row else t.row? c := by
  rw [Tableau.row?, h.stored?]
  split
  · cases row <;> rfl
  · rfl

theorem stored (h : RowChange t u b row p) (ht : t.Stored) (hnormal : ∀ f, row = some f → f.IsNormal)
    (hrange : ∀ f, row = some f → ∀ x ∈ f.vars, x < t.size) : u.Stored where
  columns_size := by rw [h.columns_size, h.size, ht.columns_size]
  basis_size := by rw [h.basis, h.size, ht.basis_size]
  owner := by
    intro c r hr
    rw [h.stored?] at hr
    split at hr
    · rename_i hbc
      obtain ⟨f, -, rfl⟩ := Option.map_eq_some_iff.mp hr
      exact hbc
    · exact ht.owner hr
  normal := by
    intro c f hc
    rw [h.row?] at hc
    split at hc
    · exact hnormal f hc
    · exact ht.normal hc
  range := by
    intro c f x hc hx
    rw [h.row?] at hc
    rw [h.size]
    split at hc
    · exact hrange f hc x hx
    · exact ht.range hc hx
  ascending := h.ascending ht.ascending

theorem lists (h : RowChange t u b row p) (ht : t.Stored) (hu : u.Stored) (hp : p x) (hl : t.Lists x) : u.Lists x := by
  by_cases hx : x < t.size
  · intro c
    rw [h.column hp (ht.columns_size ▸ hx) hl, h.row?]
    by_cases hc : c = b
    · rw [if_pos hc, if_pos hc.symm]
      cases row <;> simp
    · rw [if_neg hc, if_neg (Ne.symm hc)]
      exact hl c
  · exact lists_of_size_le hu (h.size ▸ Nat.le_of_not_lt hx)

end RowChange

theorem ascending_setRow (h : ∀ x, (t.column x).Pairwise (· < ·)) (b : Var) (f : Option LinearForm) (x : Var) :
    ((t.setRow b f).column x).Pairwise (· < ·) :=
  foldl_modify_column (p := List.Pairwise (· < ·)) (fun _ => pairwise_enterColumn) _
    (foldl_modify_column (p := List.Pairwise (· < ·)) (fun _ => pairwise_leaveColumn) _ h) x

theorem rowChange_setRow (hb : b < t.size) (row : Option LinearForm) :
    RowChange t (t.setRow b row) b row fun _ => True where
  size := size_setRow t b row
  columns_size := columns_size_setRow t b row
  basis := basis_setRow t b row
  stored? c := by
    rw [stored?_setRow]
    simp only [hb, and_true]
  ascending h := ascending_setRow h b row
  column {x} _ hx hl c := by
    rw [mem_column_setRow t b row hx]
    split
    · refine or_iff_left ?_
      rintro ⟨hold, hin⟩
      obtain ⟨f, hf, hxf⟩ := (hl b).mp hin
      rw [hf] at hold
      exact hold hxf
    · rfl

theorem Indexed.setRow (h : t.Indexed) (hb : b < t.size) {row : Option LinearForm}
    (hnormal : ∀ f, row = some f → f.IsNormal) (hrange : ∀ f, row = some f → ∀ x ∈ f.vars, x < t.size) :
    (t.setRow b row).Indexed := by
  have hchange := rowChange_setRow hb row
  have hstored := hchange.stored h.toStored hnormal hrange
  exact ⟨hstored, fun x => hchange.lists h.toStored hstored trivial (h.lists x)⟩

/-- The tableau as it stands between the operations of a solver. -/
structure WellFormed (t : Tableau) : Prop extends Indexed t where
  isBasic_iff : ∀ {x}, t.isBasic x = true ↔ ∃ f, t.row? x = some f
  nonbasic : ∀ {b f x}, t.row? b = some f → x ∈ f.vars → t.isBasic x = false

theorem isBasic_iff_mem : t.isBasic x = true ↔ x ∈ t.basis := Iff.rfl

theorem WellFormed.row?_eq_none (h : t.WellFormed) (hx : t.isBasic x = false) : t.row? x = none := by
  cases hr : t.row? x with
  | none => rfl
  | some f => exact absurd (h.isBasic_iff.mpr ⟨f, hr⟩) (by rw [hx]; exact Bool.false_ne_true)

theorem WellFormed.lt_size (h : t.WellFormed) (hx : t.isBasic x = true) : x < t.size := by
  obtain ⟨f, hf⟩ := h.isBasic_iff.mp hx
  exact lt_size_of_row? hf

theorem WellFormed.occurs_iff (h : t.WellFormed) : t.occurs x = true ↔ ∃ b f, t.row? b = some f ∧ x ∈ f.vars := by
  rw [occurs, Bool.not_eq_true', ← Bool.not_eq_true, List.isEmpty_iff]
  constructor
  · intro hne
    obtain ⟨b, hb⟩ := List.exists_mem_of_ne_nil _ hne
    exact ⟨b, h.mem_column.mp hb⟩
  · rintro ⟨b, hb⟩ hnil
    have hin := h.mem_column.mpr hb
    rw [hnil] at hin
    cases hin

theorem WellFormed.occurs_congr (ht : t.WellFormed) (hu : u.WellFormed) (h : ∀ x, u.row? x = t.row? x) (x : Var) :
    u.occurs x = t.occurs x := by
  rw [Bool.eq_iff_iff, hu.occurs_iff, ht.occurs_iff]
  simp only [h]

theorem wellFormed_empty : empty.WellFormed := by
  have hrow : ∀ x, empty.row? x = none := fun x => by simp [row?, stored?, empty]
  have hcol : ∀ x, empty.column x = [] := fun x => by simp [column, empty]
  refine ⟨⟨⟨rfl, rfl, ?_, ?_, ?_, ?_⟩, ?_⟩, ?_, ?_⟩
  · intro b r h
    simp [stored?, empty] at h
  · intro b f h
    simp [hrow] at h
  · intro b f x h
    simp [hrow] at h
  · intro x
    simp [hcol]
  · intro x b
    simp [hrow, hcol]
  · intro x
    have hx : x ∉ empty.basis := VarSet.not_mem_empty x
    simp [isBasic_iff_mem, hrow, hx]
  · intro b f x h
    simp [hrow] at h

/-! ### Room for a variable -/

theorem size_grow (t : Tableau) (x : Var) : (t.grow x).size = max t.size (x + 1) := Table.size_grow _ _ _

theorem isBasic_grow (t : Tableau) (x y : Var) : (t.grow x).isBasic y = t.isBasic y := by
  rw [Bool.eq_iff_iff]
  exact VarSet.mem_grow

theorem column_grow (t : Tableau) (x y : Var) : (t.grow x).column y = t.column y := by
  simp only [column, grow, Table.get?_grow]
  by_cases h : y < t.columns.size
  · simp [h]
  · have hy : t.columns.get? y = none := Table.get?_eq_none_iff.mpr (Nat.le_of_not_lt h)
    by_cases h' : y ≤ x <;> simp [h, h', hy]

theorem WellFormed.grow (h : t.WellFormed) (x : Var) : (t.grow x).WellFormed := by
  refine ⟨⟨⟨?_, ?_, ?_, ?_, ?_, ?_⟩, ?_⟩, ?_, ?_⟩
  · have hcol : (t.grow x).columns.size = max t.columns.size (x + 1) := Table.size_grow _ _ _
    rw [hcol, size_grow, h.columns_size]
  · have hbasis : (t.grow x).basis.size = max t.basis.size (x + 1) := Table.size_grow _ _ _
    rw [hbasis, size_grow, h.basis_size]
  · intro b r hr
    rw [stored?_grow] at hr
    exact h.owner hr
  · intro b f hf
    rw [row?_grow] at hf
    exact h.normal hf
  · intro b f y hf hy
    rw [row?_grow] at hf
    rw [size_grow]
    exact Nat.lt_of_lt_of_le (h.range hf hy) (Nat.le_max_left _ _)
  · intro y
    rw [column_grow]
    exact h.ascending y
  · intro y b
    rw [column_grow, h.mem_column, row?_grow]
  · intro y
    rw [isBasic_grow, h.isBasic_iff, row?_grow]
  · intro b f y hf hy
    rw [row?_grow] at hf
    rw [isBasic_grow]
    exact h.nonbasic hf hy

end LinReal.Tableau
