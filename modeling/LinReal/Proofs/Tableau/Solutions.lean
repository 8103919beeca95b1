import LinReal.Proofs.Tableau.WellFormed

/-! The rows of a tableau have the solutions of the definitions that were put into it. Adding a row adds its definition,
    whatever basic variables the definition mentions, and a pivot keeps the solutions. -/

namespace LinReal

/-- Rational values that satisfy definitions `x = Σ aᵢ·xᵢ`. -/
def Satisfies (v : Var → Rat) (ds : List (Var × LinearForm)) : Prop := ∀ d ∈ ds, v d.1 = d.2.eval v

/-- Values with infinitesimal parts that satisfy definitions. -/
def SatisfiesDelta (v : Var → DeltaRat) (ds : List (Var × LinearForm)) : Prop := ∀ d ∈ ds, v d.1 = d.2.evalDelta v

/-- Some definition defines or uses `x`. -/
def Mentions (ds : List (Var × LinearForm)) (x : Var) : Prop := ∃ d ∈ ds, x = d.1 ∨ x ∈ d.2.vars

theorem Mentions.cons {ds : List (Var × LinearForm)} {x : Var} (d : Var × LinearForm) (h : Mentions ds x) :
    Mentions (d :: ds) x := by
  obtain ⟨d', hd', hx⟩ := h
  exact ⟨d', List.mem_cons_of_mem _ hd', hx⟩

namespace Tableau

open LinearForm

variable {t u : Tableau} {b c e l x y : Var} {d f r : LinearForm} {a : Rat} {v : Var → Rat}

/-- Rational values that satisfy every row. -/
def Solves (t : Tableau) (v : Var → Rat) : Prop := ∀ b f, t.row? b = some f → v b = f.eval v

/-- Values with infinitesimal parts that satisfy every row. -/
def SolvesDelta (t : Tableau) (v : Var → DeltaRat) : Prop := ∀ b f, t.row? b = some f → v b = f.evalDelta v

/-- The rows have the solutions of the definitions. -/
def Denotes (t : Tableau) (ds : List (Var × LinearForm)) : Prop := ∀ v, t.Solves v ↔ Satisfies v ds

theorem eq_evalDelta_iff {v : Var → DeltaRat} :
    v x = f.evalDelta v ↔ (v x).std = f.eval (fun y => (v y).std) ∧ (v x).inf = f.eval (fun y => (v y).inf) :=
  DeltaRat.ext_iff

theorem solvesDelta_iff {v : Var → DeltaRat} :
    t.SolvesDelta v ↔ t.Solves (fun x => (v x).std) ∧ t.Solves (fun x => (v x).inf) := by
  constructor
  · intro h
    exact ⟨fun b f hb => (eq_evalDelta_iff.mp (h b f hb)).1, fun b f hb => (eq_evalDelta_iff.mp (h b f hb)).2⟩
  · intro h b f hb
    exact eq_evalDelta_iff.mpr ⟨h.1 b f hb, h.2 b f hb⟩

theorem satisfiesDelta_iff {v : Var → DeltaRat} {ds : List (Var × LinearForm)} :
    SatisfiesDelta v ds ↔ Satisfies (fun x => (v x).std) ds ∧ Satisfies (fun x => (v x).inf) ds := by
  constructor
  · intro h
    exact ⟨fun d hd => (eq_evalDelta_iff.mp (h d hd)).1, fun d hd => (eq_evalDelta_iff.mp (h d hd)).2⟩
  · intro h d hd
    exact eq_evalDelta_iff.mpr ⟨h.1 d hd, h.2 d hd⟩

/-- What the rows denote over the rationals they denote over numbers with an infinitesimal part. -/
theorem Denotes.delta {ds : List (Var × LinearForm)} (h : t.Denotes ds) {v : Var → DeltaRat} :
    t.SolvesDelta v ↔ SatisfiesDelta v ds := by
  rw [solvesDelta_iff, satisfiesDelta_iff, h, h]

theorem solvesDelta_congr (h : ∀ v, u.Solves v ↔ t.Solves v) {v : Var → DeltaRat} :
    u.SolvesDelta v ↔ t.SolvesDelta v := by
  rw [solvesDelta_iff, solvesDelta_iff, h, h]

theorem denotes_congr {ds : List (Var × LinearForm)} (h : ∀ x, u.row? x = t.row? x) :
    u.Denotes ds ↔ t.Denotes ds := by
  simp only [Denotes, Solves, h]

theorem SolvesDelta.congr {w w' : Var → DeltaRat} (hw : t.SolvesDelta w) (h : ∀ x, u.row? x = t.row? x)
    (hv : ∀ b f, t.row? b = some f → w' b = w b ∧ ∀ x ∈ f.vars, w' x = w x) : u.SolvesDelta w' := by
  intro b f hb
  rw [h] at hb
  obtain ⟨hbv, hfv⟩ := hv b f hb
  rw [hbv, hw b f hb]
  exact LinearForm.evalDelta_congr fun x hx => (hfv x hx).symm

/-- The nonbasic variables may take any values; the rows give the basic ones theirs. -/
theorem WellFormed.exists_solution (h : t.WellFormed) (w : Var → DeltaRat) :
    ∃ w', t.SolvesDelta w' ∧ ∀ x, t.isBasic x = false → w' x = w x := by
  have hfree : ∀ x, t.isBasic x = false → ((t.row? x).map (·.evalDelta w)).getD (w x) = w x := fun x hx => by
    rw [h.row?_eq_none hx, Option.map_none, Option.getD_none]
  refine ⟨fun x => ((t.row? x).map (·.evalDelta w)).getD (w x), fun b f hb => ?_, hfree⟩
  rw [LinearForm.evalDelta_congr fun x hx => hfree x (h.nonbasic hb hx)]
  simp only [hb, Option.map_some, Option.getD_some]

theorem denotes_empty : empty.Denotes [] := by
  intro v
  constructor
  · intro _ d hd
    cases hd
  · intro _ b f hb
    simp [row?, stored?, empty] at hb

/-! ### Definitions -/

theorem resolve_congr (h : ∀ x, u.row? x = t.row? x) (d : LinearForm) : u.resolve d = t.resolve d := by
  simp only [resolve, h]

/-- A definition keeps its value when its basic variables are replaced by their rows. -/
theorem eval_resolve (h : t.Solves v) (d : LinearForm) : (t.resolve d).eval v = d.eval v := by
  have key : ∀ (d f : LinearForm),
      (d.foldl (fun f p => f.addScaled p.2 ((t.row? p.1).getD [(p.1, 1)])) f).eval v = f.eval v + d.eval v := by
    intro d
    induction d with
    | nil => simp
    | cons p d ih =>
      intro f
      have hp : ((t.row? p.1).getD [(p.1, 1)]).eval v = v p.1 := by
        cases hr : t.row? p.1 with
        | none => simp
        | some g => exact (h _ _ hr).symm
      rw [List.foldl_cons, ih, eval_addScaled, hp, eval_cons]
      ring
  exact (key d []).trans (zero_add _)

theorem isNormal_resolve (t : Tableau) (d : LinearForm) : (t.resolve d).IsNormal :=
  List.foldlRecOn d _ IsNormal.nil fun _ hf _ _ => hf.addScaled _ _

/-- A variable of a resolved definition is a variable of the definition without a row, or one of the row of such a
    variable. -/
theorem mem_vars_resolve (h : x ∈ (t.resolve d).vars) :
    ∃ y ∈ d.vars, (t.row? y = none ∧ x = y) ∨ ∃ g, t.row? y = some g ∧ x ∈ g.vars := by
  have key : x ∈ (t.resolve d).vars → ∃ y ∈ d.vars, x ∈ ((t.row? y).getD [(y, 1)]).vars := by
    refine List.foldlRecOn (motive := fun f : LinearForm => x ∈ f.vars → ∃ y ∈ d.vars, x ∈ ((t.row? y).getD [(y, 1)]).vars) d _
      (fun hx => by cases hx) fun f ih p hp hx => ?_
    rcases mem_vars_addScaled hx with hf | hx
    · exact ih hf
    · exact ⟨p.1, mem_vars_of_mem hp, hx⟩
  obtain ⟨y, hy, hx⟩ := key h
  refine ⟨y, hy, ?_⟩
  cases hr : t.row? y with
  | none =>
    rw [hr] at hx
    exact Or.inl ⟨rfl, List.mem_singleton.mp hx⟩
  | some g =>
    rw [hr] at hx
    exact Or.inr ⟨g, rfl, hx⟩

/-! ### A new row -/

/-- Room for the variables of a row changes no row. -/
theorem room (h : t.WellFormed) (xs : List Var) :
    (xs.foldl grow t).WellFormed ∧ (∀ x, (xs.foldl grow t).row? x = t.row? x) ∧
      (∀ x, (xs.foldl grow t).isBasic x = t.isBasic x) ∧ t.size ≤ (xs.foldl grow t).size ∧
      (∀ x ∈ xs, x < (xs.foldl grow t).size) ∧ ((∀ x ∈ xs, x < t.size) → (xs.foldl grow t).size = t.size) := by
  induction xs generalizing t with
  | nil => exact ⟨h, fun _ => rfl, fun _ => rfl, Nat.le_refl _, fun _ hx => (by cases hx), fun _ => rfl⟩
  | cons y ys ih =>
    obtain ⟨h1, h2, h3, h4, h5, h6⟩ := ih (h.grow y)
    have hy : y < (t.grow y).size := by
      rw [size_grow]
      exact Nat.lt_of_lt_of_le (Nat.lt_succ_self y) (Nat.le_max_right _ _)
    have hle : t.size ≤ (t.grow y).size := by
      rw [size_grow]
      exact Nat.le_max_left _ _
    refine ⟨h1, fun x => (h2 x).trans (row?_grow t y x), fun x => (h3 x).trans (isBasic_grow t y x), hle.trans h4, ?_, ?_⟩
    · intro x hx
      rcases List.mem_cons.mp hx with rfl | hx
      · exact Nat.lt_of_lt_of_le hy h4
      · exact h5 x hx
    · intro hlt
      have hsize : (t.grow y).size = t.size := by
        rw [size_grow]
        exact Nat.max_eq_left (hlt y List.mem_cons_self)
      exact (h6 fun x hx => hsize ▸ hlt x (List.mem_cons_of_mem _ hx)).trans hsize

theorem WellFormed.not_mem_vars (h : t.WellFormed) (hb : t.occurs b = false) (hr : t.row? c = some r) : b ∉ r.vars :=
  fun hx => Bool.noConfusion (hb.symm.trans (h.occurs_iff.mpr ⟨c, r, hr, hx⟩))

/-- A variable that owns no row and occurs in none can be given one that does not mention it. -/
theorem addRow_ok (hnb : t.isBasic b = false) (hocc : t.occurs b = false) (hself : b ∉ d.vars) :
    ∃ u, t.addRow b d = .ok u := by
  have hmentions : d.mentions b = false := by
    rw [← Bool.not_eq_true, mentions_iff]
    exact hself
  simp [addRow, hnb, hocc, hmentions]

section AddRow

variable (h : t.WellFormed) (hu : t.addRow b d = .ok u)
include hu

theorem addRow_requires : t.isBasic b = false ∧ t.occurs b = false ∧ b ∉ d.vars := by
  unfold addRow at hu
  split at hu
  · cases hu
  · split at hu
    · cases hu
    · split at hu
      · cases hu
      · rename_i h1 h2 h3
        exact ⟨by simpa using h1, by simpa using h2, fun hb => h3 (mentions_iff.mpr hb)⟩

theorem addRow_eq : u = { (d.vars.foldl grow (t.grow b)).setRow b
    (some ((d.vars.foldl grow (t.grow b)).resolve d)) with basis := (d.vars.foldl grow (t.grow b)).basis.insert b } := by
  unfold addRow at hu
  split at hu
  · cases hu
  · split at hu
    · cases hu
    · split at hu
      · cases hu
      · exact (Except.ok.inj hu).symm

include h

theorem row?_addRow (x : Var) : u.row? x = if b = x then some (t.resolve d) else t.row? x := by
  obtain ⟨-, hrow, -, -, hlt, -⟩ := room h (b :: d.vars)
  have hset := row?_setRow (d.vars.foldl grow (t.grow b)) b (some ((d.vars.foldl grow (t.grow b)).resolve d)) x
  have hb : b < (d.vars.foldl grow (t.grow b)).size := hlt b List.mem_cons_self
  have hres : (d.vars.foldl grow (t.grow b)).resolve d = t.resolve d := resolve_congr hrow d
  rw [addRow_eq hu, row?_withBasis, hset]
  simp only [hb, and_true, hres]
  split
  · rfl
  · exact hrow x

theorem isBasic_addRow (x : Var) : u.isBasic x = true ↔ x = b ∨ t.isBasic x = true := by
  obtain ⟨-, -, hbasic, -, -, -⟩ := room h (b :: d.vars)
  rw [addRow_eq hu, ← hbasic]
  exact VarSet.mem_insert

theorem size_addRow (hlt : ∀ x ∈ b :: d.vars, x < t.size) : u.size = t.size := by
  obtain ⟨-, -, -, -, -, hsize⟩ := room h (b :: d.vars)
  rw [addRow_eq hu, size_withBasis, size_setRow]
  exact hsize hlt

/-- The variables of the new row are nonbasic and not its owner. -/
theorem nonbasic_resolve (hx : x ∈ (t.resolve d).vars) : t.isBasic x = false ∧ x ≠ b := by
  obtain ⟨-, hocc, hself⟩ := addRow_requires hu
  obtain ⟨y, hy, ⟨hnone, rfl⟩ | ⟨g, hg, hxg⟩⟩ := mem_vars_resolve hx
  · refine ⟨?_, fun he => hself (he ▸ hy)⟩
    rw [← Bool.not_eq_true, h.isBasic_iff, hnone]
    rintro ⟨f, hf⟩
    cases hf
  · refine ⟨h.nonbasic hg hxg, ?_⟩
    rintro rfl
    exact h.not_mem_vars hocc hg hxg

theorem wellFormed_addRow : u.WellFormed := by
  obtain ⟨hnb, hocc, hself⟩ := addRow_requires hu
  obtain ⟨hwf, hrow, hbasic, -, hlt, -⟩ := room h (b :: d.vars)
  have hrange : ∀ x ∈ (t.resolve d).vars, x < (d.vars.foldl grow (t.grow b)).size := by
    intro x hx
    obtain ⟨y, hy, ⟨-, rfl⟩ | ⟨g, hg, hxg⟩⟩ := mem_vars_resolve hx
    · exact hlt _ (List.mem_cons_of_mem _ hy)
    · rw [← hrow] at hg
      exact hwf.range hg hxg
  have hindexed : u.Indexed := by
    rw [addRow_eq hu]
    have hb : b < (d.vars.foldl grow (t.grow b)).size := hlt b List.mem_cons_self
    refine (hwf.toIndexed.setRow hb (fun f hf => ?_) (fun f hf => ?_)).withBasis
      (VarSet.size_insert (hwf.basis_size ▸ hb))
    · obtain rfl := Option.some.inj hf
      exact isNormal_resolve _ d
    · obtain rfl := Option.some.inj hf
      have hres : (d.vars.foldl grow (t.grow b)).resolve d = t.resolve d := resolve_congr hrow d
      rw [hres]
      exact hrange
  refine ⟨hindexed, ?_, ?_⟩
  · intro x
    rw [isBasic_addRow h hu, row?_addRow h hu]
    by_cases hx : b = x
    · simp [hx]
    · simp [hx, Ne.symm hx, h.isBasic_iff]
  · intro c f x hf hx
    rw [row?_addRow h hu] at hf
    rw [← Bool.not_eq_true, isBasic_addRow h hu, not_or, Bool.not_eq_true]
    split at hf
    · obtain rfl := Option.some.inj hf
      exact (nonbasic_resolve h hu hx).symm
    · refine ⟨?_, h.nonbasic hf hx⟩
      rintro rfl
      exact h.not_mem_vars hocc hf hx

theorem solves_addRow_iff (v : Var → Rat) : u.Solves v ↔ t.Solves v ∧ v b = d.eval v := by
  obtain ⟨hnb, -, -⟩ := addRow_requires hu
  have hold : ∀ {c f}, t.row? c = some f → u.row? c = some f := fun {c f} hc => by
    rw [row?_addRow h hu, if_neg]
    · exact hc
    · rintro rfl
      rw [h.row?_eq_none hnb] at hc
      cases hc
  have hnew : u.row? b = some (t.resolve d) := by rw [row?_addRow h hu, if_pos rfl]
  constructor
  · intro hv
    have ht : t.Solves v := fun c f hc => hv c f (hold hc)
    exact ⟨ht, (hv _ _ hnew).trans (eval_resolve ht d)⟩
  · rintro ⟨ht, hb⟩ c f hc
    rw [row?_addRow h hu] at hc
    split at hc
    · rename_i hbc
      obtain rfl := Option.some.inj hc
      rw [← hbc, hb, eval_resolve ht]
    · exact ht c f hc

theorem denotes_addRow {ds : List (Var × LinearForm)} (hd : t.Denotes ds) : u.Denotes ((b, d) :: ds) := by
  intro v
  rw [solves_addRow_iff h hu, hd]
  exact ⟨fun hv => List.forall_mem_cons.mpr ⟨hv.2, hv.1⟩, fun hv => (List.forall_mem_cons.mp hv).symm⟩

end AddRow

end Tableau

end LinReal
