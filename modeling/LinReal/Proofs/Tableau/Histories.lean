import LinReal.Proofs.Tableau.Pivot
import LinReal.Proofs.Traversal

/-! Histories of a tableau. Rows are added and variables exchanged in any order, each edit where its requirement holds. Such an
    edit succeeds; of the edits only a new row changes what the rows denote, by just its definition. -/

namespace LinReal.Tableau

open LinearForm

/-- A change of a tableau. -/
inductive Edit where
  | grow (x : Var)
  | addRow (b : Var) (d : LinearForm)
  | pivot (l e : Var)
deriving DecidableEq, Repr

namespace Edit

def apply (t : Tableau) : Edit → Except Fault Tableau
  | grow x => .ok (t.grow x)
  | addRow b d => t.addRow b d
  | pivot l e => t.pivot l e

/-- What an edit requires. The owner of a new row owns none yet, occurs in no row, and does not occur in its definition; a pivot
    exchanges a basic variable with a nonbasic one of its row. -/
def Legal (t : Tableau) : Edit → Prop
  | grow _ => True
  | addRow b d => t.isBasic b = false ∧ (∀ p ∈ t.ownedRows, b ∉ p.2.vars) ∧ b ∉ d.vars
  | pivot l e => t.isBasic l = true ∧ t.isBasic e = false ∧ e ∈ ((t.row? l).getD []).vars

instance (t : Tableau) : (e : Edit) → Decidable (e.Legal t)
  | grow _ => inferInstanceAs (Decidable True)
  | addRow b d =>
    inferInstanceAs (Decidable (t.isBasic b = false ∧ (∀ p ∈ t.ownedRows, b ∉ p.2.vars) ∧ b ∉ d.vars))
  | pivot l e =>
    inferInstanceAs (Decidable (t.isBasic l = true ∧ t.isBasic e = false ∧ e ∈ ((t.row? l).getD []).vars))

/-- The definitions that an edit puts into the tableau. -/
def definitions : Edit → List (Var × LinearForm)
  | addRow b d => [(b, d)]
  | grow _ | pivot _ _ => []

end Edit

/-- The tableaux that edits lead to from the empty one, with the definitions put into them, the latest first. -/
inductive Built : List (Var × LinearForm) → Tableau → Prop where
  | empty : Built [] .empty
  | edit {ds t u} (h : Built ds t) (e : Edit) (hl : e.Legal t) (hu : e.apply t = .ok u) : Built (e.definitions ++ ds) u

variable {t : Tableau} {ds : List (Var × LinearForm)}

/-- What an edit keeps, and that it succeeds where its requirement holds. -/
theorem Edit.apply_ok (h : t.WellFormed) {e : Edit} (hl : e.Legal t) :
    ∃ u, e.apply t = .ok u ∧ u.WellFormed ∧ ∀ ds, t.Denotes ds → u.Denotes (e.definitions ++ ds) := by
  cases e with
  | grow x => exact ⟨t.grow x, rfl, h.grow x, fun _ => (denotes_congr (row?_grow t x)).mpr⟩
  | addRow b d =>
    obtain ⟨hnb, hunused, hself⟩ := hl
    have hocc : t.occurs b = false := by
      refine (Bool.not_eq_true _).mp fun hocc => ?_
      obtain ⟨c, f, hc, hb⟩ := h.occurs_iff.mp hocc
      exact hunused (c, f) (h.mem_ownedRows.mpr hc) hb
    obtain ⟨u, hu⟩ := addRow_ok hnb hocc hself
    exact ⟨u, hu, wellFormed_addRow h hu, fun _ => denotes_addRow h hu⟩
  | pivot l e =>
    obtain ⟨hl, -, he⟩ := hl
    obtain ⟨r, hr⟩ := h.isBasic_iff.mp hl
    rw [hr, Option.getD_some] at he
    obtain ⟨a, ha⟩ := Option.ne_none_iff_exists'.mp (mt coeff?_eq_none_iff.mp (not_not_intro he))
    exact ⟨t.exchange l e r a, pivot_of_row? h hr ha, wellFormed_exchange h hr ha,
      fun _ hd v => (solves_exchange_iff h hr ha v).trans (hd v)⟩

theorem Built.sound (h : Built ds t) : t.WellFormed ∧ t.Denotes ds := by
  induction h with
  | empty => exact ⟨wellFormed_empty, denotes_empty⟩
  | edit _ e hl hu ih =>
    obtain ⟨u, hu', hwf, hd⟩ := Edit.apply_ok ih.1 hl
    cases hu.symm.trans hu'
    exact ⟨hwf, hd _ ih.2⟩

/-- The rows of a tableau have exactly the solutions of the definitions that were put into it, whatever rows and pivots came in
    between, and every edit whose requirement holds succeeds. -/
theorem Built.denotes_definitions (h : Built ds t) : t.Denotes ds ∧ ∀ e : Edit, e.Legal t → ∃ u, e.apply t = .ok u := by
  refine ⟨h.sound.2, fun e hl => ?_⟩
  obtain ⟨u, hu, -⟩ := Edit.apply_ok h.sound.1 hl
  exact ⟨u, hu⟩

/-- After a pivot the definitions of two rows are resolved against an exchanged row. One repeats variables and cancels to a
    multiple of a single variable, the other cancels to nothing. -/
theorem Built.denotes_cancelled : ∃ t,
    Built [(4, [(2, 1), (0, -1), (1, -1)]), (3, [(0, 2), (2, -1), (1, 0), (1, 1), (1, 1)]), (2, [(0, 1), (1, 1)])] t ∧
      t.row? 3 = some [(2, 1)] ∧ t.row? 4 = some [] ∧
      t.Denotes [(4, [(2, 1), (0, -1), (1, -1)]), (3, [(0, 2), (2, -1), (1, 0), (1, 1), (1, 1)]),
        (2, [(0, 1), (1, 1)])] := by
  have hrun : (do
      let t₁ ← (Edit.addRow 2 [(0, 1), (1, 1)]).apply .empty
      let t₂ ← (Edit.pivot 2 0).apply t₁
      let t₃ ← (Edit.addRow 3 [(0, 2), (2, -1), (1, 0), (1, 1), (1, 1)]).apply t₂
      let t₄ ← (Edit.addRow 4 [(2, 1), (0, -1), (1, -1)]).apply t₃
      return decide ((Edit.pivot 2 0).Legal t₁ ∧ (Edit.addRow 3 [(0, 2), (2, -1), (1, 0), (1, 1), (1, 1)]).Legal t₂ ∧
        (Edit.addRow 4 [(2, 1), (0, -1), (1, -1)]).Legal t₃ ∧ t₄.row? 3 = some [(2, 1)] ∧ t₄.row? 4 = some [])) =
      (.ok true : Except Fault Bool) := by decide +kernel
  obtain ⟨t₁, h₁, hrun⟩ := bind_eq_ok.mp hrun
  obtain ⟨t₂, h₂, hrun⟩ := bind_eq_ok.mp hrun
  obtain ⟨t₃, h₃, hrun⟩ := bind_eq_ok.mp hrun
  obtain ⟨t₄, h₄, hrun⟩ := bind_eq_ok.mp hrun
  obtain ⟨hl₂, hl₃, hl₄, hrow₃, hrow₄⟩ := of_decide_eq_true (Except.ok.inj hrun)
  have h := (((Built.empty.edit _ (by decide) h₁).edit _ hl₂ h₂).edit _ hl₃ h₃).edit _ hl₄ h₄
  exact ⟨t₄, h, hrow₃, hrow₄, h.denotes_definitions.1⟩

end LinReal.Tableau
