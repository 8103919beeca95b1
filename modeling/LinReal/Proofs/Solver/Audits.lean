import LinReal.Solver.Audit
import LinReal.Proofs.Solver.Rows
import LinReal.Proofs.Tableau.Columns

/-! Audits. The invariant is what an audit looks for: each of its three parts finds no defect in a coherent state. -/

namespace LinReal.Solver

open Tableau

variable {τ : Type} {s : Solver τ} {ds : List (Var × LinearForm)} {t : Tableau} {b x : Var} {f : LinearForm}

theorem findSomeM?_eq_none {α β : Type} {g : α → Except Fault (Option β)} {xs : List α}
    (h : ∀ x ∈ xs, g x = .ok none) : xs.findSomeM? g = .ok none := by
  induction xs with
  | nil => rfl
  | cons x xs ih =>
    rw [List.findSomeM?_cons, h x List.mem_cons_self, ok_bind]
    exact ih fun y hy => h y (List.mem_cons_of_mem _ hy)

theorem partitionDefect?_eq_none (h : t.WellFormed) (x : Var) : partitionDefect? t x = none := by
  have hx : t.isBasic x = (t.row? x).isSome := by
    rw [Bool.eq_iff_iff, h.isBasic_iff, Option.isSome_iff_exists]
  simp [partitionDefect?, hx]

theorem rowDefect?_eq_none (h : s.Coherent ds) (hb : s.tableau.row? b = some f) : s.rowDefect? b f = .ok none := by
  have hwf := h.shaped.wellFormed
  have hentries : f.findSome? (fun e => entryDefect? s.tableau b e.1 e.2) = none := by
    rw [List.findSome?_eq_none_iff]
    intro e he
    have hnb := hwf.nonbasic hb (LinearForm.mem_vars_of_mem he)
    have hne := (hwf.normal hb).2 e he
    simp [entryDefect?, hnb, hne]
  obtain ⟨slot, hslot, hvalue, -⟩ := h.rowValue_ok hb
  rw [rowDefect?, hentries]
  simp only [hvalue, hslot, ok_bind, if_true]
  rfl

theorem audit_eq_none (h : s.Coherent ds) : s.audit = .ok none := by
  have hwf := h.shaped.wellFormed
  have hpartition : (List.range s.tableau.size).findSome? (partitionDefect? s.tableau) = none :=
    List.findSome?_eq_none_iff.mpr fun x _ => partitionDefect?_eq_none hwf x
  have hrows : s.tableau.ownedRows.findSomeM? (fun e => s.rowDefect? e.1 e.2) = .ok none :=
    findSomeM?_eq_none fun e he => rowDefect?_eq_none h (hwf.mem_ownedRows.mp he)
  have hcolumns : (List.range s.tableau.size).findSome? (columnDefect? s.tableau) = none :=
    List.findSome?_eq_none_iff.mpr fun x _ => by
      simp [columnDefect?, hwf.rowCount_eq_scan]
  rw [audit, hpartition]
  simp only [hrows, ok_bind, hcolumns]
  rfl

end LinReal.Solver
