import LinReal.Proofs.Tableau.Histories
import Mathlib.Data.List.Sort

/-! The rows of a tableau, scanned from the first to the last. Their owners are the basic variables, and a column lists the
    owners of the rows that mention its variable. All three are ascending lists, so each is known by its members. -/

namespace LinReal.Tableau

open LinearForm

variable {t : Tableau} {ds : List (Var × LinearForm)}

/-! ### Scans -/

theorem Stored.ownedRows_eq (h : t.Stored) : t.ownedRows = (List.range t.size).filterMap fun x => (t.row? x).map (x, ·) := by
  rw [ownedRows]
  congr 1
  funext x
  cases hx : t.stored? x with
  | none => simp [row?, hx]
  | some r => simp [row?, hx, h.owner hx]

theorem Stored.ownedRows_ascending (h : t.Stored) : t.ownedRows.Pairwise fun p q => p.1 < q.1 := by
  rw [h.ownedRows_eq, List.pairwise_filterMap]
  refine List.pairwise_lt_range.imp fun hlt p hp q hq => ?_
  obtain ⟨f, -, rfl⟩ := Option.map_eq_some_iff.mp hp
  obtain ⟨g, -, rfl⟩ := Option.map_eq_some_iff.mp hq
  exact hlt

theorem WellFormed.owners_eq_members (h : t.WellFormed) : t.ownedRows.map (·.1) = t.basis.members := by
  refine List.Pairwise.eq_of_mem_iff (List.pairwise_map.mpr h.ownedRows_ascending)
    (List.pairwise_lt_range.filter _) fun x => ?_
  rw [VarSet.mem_members, ← isBasic_iff_mem, h.isBasic_iff, List.mem_map]
  constructor
  · rintro ⟨⟨b, f⟩, hf, rfl⟩
    exact ⟨f, h.mem_ownedRows.mp hf⟩
  · rintro ⟨f, hf⟩
    exact ⟨(x, f), h.mem_ownedRows.mpr hf, rfl⟩

theorem WellFormed.length_ownedRows (h : t.WellFormed) : t.ownedRows.length = t.basis.card := by
  rw [← List.length_map, h.owners_eq_members, VarSet.length_members]

/-- A column is what a scan of all rows finds. -/
theorem Indexed.column_eq_scan (h : t.Indexed) (x : Var) :
    t.column x = (t.ownedRows.filter (·.2.mentions x)).map (·.1) := by
  refine List.Pairwise.eq_of_mem_iff (h.ascending x)
    (List.pairwise_map.mpr (h.ownedRows_ascending.filter _)) fun b => ?_
  simp only [h.mem_column, List.mem_map, List.mem_filter, mentions_iff]
  constructor
  · rintro ⟨f, hf, hx⟩
    exact ⟨(b, f), ⟨h.mem_ownedRows.mpr hf, hx⟩, rfl⟩
  · rintro ⟨⟨c, f⟩, ⟨hf, hx⟩, rfl⟩
    exact ⟨f, h.mem_ownedRows.mp hf, hx⟩

theorem Indexed.rowCount_eq_scan (h : t.Indexed) (x : Var) :
    t.rowCount x = t.ownedRows.countP (·.2.mentions x) := by
  rw [rowCount, h.column_eq_scan, List.length_map, List.countP_eq_length_filter]

theorem Indexed.occurs_eq_scan (h : t.Indexed) (x : Var) : t.occurs x = t.ownedRows.any (·.2.mentions x) := by
  rw [occurs, h.column_eq_scan, List.isEmpty_map, Bool.eq_iff_iff]
  simp [List.filter_eq_nil_iff]

/-! ### Tableaux that edits lead to -/

/-- In a tableau that edits have led to, exactly the basic variables own a row, and they are counted right; a row is stored with
    its owner as strictly ascending terms without zeros over nonbasic variables; and columns answer what a scan of all rows
    would. -/
theorem Built.rows_and_columns (h : Built ds t) :
    (∀ x, (t.stored? x).isSome = true ↔ x ∈ t.basis) ∧ t.ownedRows.length = t.basis.card ∧
      (∀ b r, t.stored? b = some r → r.owner = b ∧ r.form.Pairwise (fun p q => p.1 < q.1) ∧
        ∀ p ∈ r.form, p.2 ≠ 0 ∧ p.1 ∉ t.basis) ∧
      ∀ x, t.column x = (t.ownedRows.filter (·.2.mentions x)).map (·.1) ∧
        t.rowCount x = t.ownedRows.countP (·.2.mentions x) ∧ t.occurs x = t.ownedRows.any (·.2.mentions x) := by
  have hwf := h.sound.1
  refine ⟨fun x => ?_, hwf.length_ownedRows, fun b r hr => ?_, fun x =>
    ⟨hwf.column_eq_scan x, hwf.rowCount_eq_scan x, hwf.occurs_eq_scan x⟩⟩
  · rw [← isBasic_iff_mem, hwf.isBasic_iff, Option.isSome_iff_exists]
    exact ⟨fun ⟨r, hr⟩ => ⟨r.form, row?_eq_some_iff.mpr ⟨r, hr, rfl⟩⟩,
      fun ⟨f, hf⟩ => ⟨⟨x, f⟩, hwf.stored?_eq hf⟩⟩
  · have hf : t.row? b = some r.form := row?_eq_some_iff.mpr ⟨r, hr, rfl⟩
    obtain ⟨hasc, hne⟩ := hwf.normal hf
    refine ⟨hwf.owner hr, hasc, fun p hp => ⟨hne p hp, ?_⟩⟩
    rw [← isBasic_iff_mem, Bool.not_eq_true]
    exact hwf.nonbasic hf (mem_vars_of_mem hp)

/-- A pivot of `3` and `0`. In the row of `4` the term of `3` is new, and that of `1` stays; in the row of `5` the term of `3` is
    new, and that of `1` cancels. -/
theorem Built.rows_and_columns_exchanged : ∃ t,
    Built [(5, [(0, 1), (1, 1)]), (4, [(0, 1), (1, -1), (2, 1)]), (3, [(0, 1), (1, 1)])] t ∧
      t.ownedRows = [(0, [(1, -1), (3, 1)]), (4, [(1, -2), (2, 1), (3, 1)]), (5, [(3, 1)])] ∧
      t.column 1 = [0, 4] ∧ t.column 3 = [0, 4, 5] ∧ t.basis.card = 3 ∧
      ((∀ x, (t.stored? x).isSome = true ↔ x ∈ t.basis) ∧ t.ownedRows.length = t.basis.card ∧
        (∀ b r, t.stored? b = some r → r.owner = b ∧ r.form.Pairwise (fun p q => p.1 < q.1) ∧
          ∀ p ∈ r.form, p.2 ≠ 0 ∧ p.1 ∉ t.basis) ∧
        ∀ x, t.column x = (t.ownedRows.filter (·.2.mentions x)).map (·.1) ∧
          t.rowCount x = t.ownedRows.countP (·.2.mentions x) ∧ t.occurs x = t.ownedRows.any (·.2.mentions x)) := by
  have hrun : (do
      let t₁ ← (Edit.addRow 3 [(0, 1), (1, 1)]).apply .empty
      let t₂ ← (Edit.addRow 4 [(0, 1), (1, -1), (2, 1)]).apply t₁
      let t₃ ← (Edit.addRow 5 [(0, 1), (1, 1)]).apply t₂
      let t₄ ← (Edit.pivot 3 0).apply t₃
      return decide ((Edit.addRow 4 [(0, 1), (1, -1), (2, 1)]).Legal t₁ ∧ (Edit.addRow 5 [(0, 1), (1, 1)]).Legal t₂ ∧
        (Edit.pivot 3 0).Legal t₃ ∧
        t₄.ownedRows = [(0, [(1, -1), (3, 1)]), (4, [(1, -2), (2, 1), (3, 1)]), (5, [(3, 1)])] ∧
        t₄.column 1 = [0, 4] ∧ t₄.column 3 = [0, 4, 5] ∧ t₄.basis.card = 3)) =
      (.ok true : Except Fault Bool) := by decide +kernel
  obtain ⟨t₁, h₁, hrun⟩ := bind_eq_ok.mp hrun
  obtain ⟨t₂, h₂, hrun⟩ := bind_eq_ok.mp hrun
  obtain ⟨t₃, h₃, hrun⟩ := bind_eq_ok.mp hrun
  obtain ⟨t₄, h₄, hrun⟩ := bind_eq_ok.mp hrun
  obtain ⟨hl₂, hl₃, hl₄, hrows, hone, hthree, hcard⟩ := of_decide_eq_true (Except.ok.inj hrun)
  have h := (((Built.empty.edit _ (by decide) h₁).edit _ hl₂ h₂).edit _ hl₃ h₃).edit _ hl₄ h₄
  exact ⟨t₄, h, hrows, hone, hthree, hcard, h.rows_and_columns⟩

end LinReal.Tableau
