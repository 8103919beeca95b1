import LinReal.Fault

/-!
Linear forms `Σ aᵢ·xᵢ`, as lists of terms. Any list of terms denotes a form, through `eval`. A form is *normal* if
its variables ascend strictly and its coefficients are not zero. The sums below keep normal forms normal: they put
a new term in its place and drop a term that cancels.
-/

namespace LinReal

/-- A sum of terms: a variable and its coefficient each. -/
abbrev LinearForm := List (Var × Rat)

namespace LinearForm

def vars (f : LinearForm) : List Var := f.map (·.1)

/-- The coefficient of `x` in the first term that mentions it. -/
def coeff? : LinearForm → Var → Option Rat
  | [], _ => none
  | (y, a) :: f, x => if y = x then some a else coeff? f x

def mentions (f : LinearForm) (x : Var) : Bool := f.any (·.1 = x)

def erase (f : LinearForm) (x : Var) : LinearForm := f.filter (·.1 ≠ x)

def scale (m : Rat) (f : LinearForm) : LinearForm := f.map fun (x, a) => (x, m * a)

/-- Puts the term `a·x` into its place among ascending terms, where `a` is not zero. -/
def insertTerm (x : Var) (a : Rat) : LinearForm → LinearForm
  | [] => [(x, a)]
  | (y, b) :: f =>
    if x < y then (x, a) :: (y, b) :: f
    else if x = y then if b + a = 0 then f else (y, b + a) :: f
    else (y, b) :: insertTerm x a f

def addTerm (f : LinearForm) (x : Var) (a : Rat) : LinearForm := if a = 0 then f else insertTerm x a f

def addScaled (f : LinearForm) (m : Rat) (g : LinearForm) : LinearForm :=
  g.foldl (fun f (x, a) => f.addTerm x (m * a)) f

/-- Solves `l = a·e + f` for `e`, where `f` mentions neither: `e = (1/a)·l - Σ (aᵢ/a)·xᵢ`. -/
def solve (f : LinearForm) (l : Var) (a : Rat) : LinearForm := insertTerm l a⁻¹ (f.scale (-a⁻¹))

/-- The variables ascend strictly and no coefficient is zero. -/
def IsNormal (f : LinearForm) : Prop :=
  f.Pairwise (fun s t => s.1 < t.1) ∧ ∀ t ∈ f, t.2 ≠ 0

/-! ### Values -/

def eval (v : Var → Rat) (f : LinearForm) : Rat := f.foldr (fun (x, a) sum => a * v x + sum) 0

/-- The value of a form when each variable has a value with an infinitesimal part: both parts are evaluated. -/
def evalDelta (v : Var → DeltaRat) (f : LinearForm) : DeltaRat :=
  ⟨f.eval fun x => (v x).std, f.eval fun x => (v x).inf⟩

@[simp] theorem eval_nil (v : Var → Rat) : eval v [] = 0 := rfl

@[simp] theorem eval_cons (v : Var → Rat) (t : Var × Rat) (f : LinearForm) :
    eval v (t :: f) = t.2 * v t.1 + eval v f := rfl

theorem eval_scale (v : Var → Rat) (m : Rat) (f : LinearForm) : eval v (f.scale m) = m * eval v f := by
  induction f with
  | nil => simp [scale]
  | cons t f ih =>
    simp only [scale, List.map_cons, eval_cons] at ih ⊢
    grind

theorem eval_insertTerm (v : Var → Rat) (x : Var) (a : Rat) (f : LinearForm) :
    eval v (insertTerm x a f) = eval v f + a * v x := by
  induction f with
  | nil => simp only [insertTerm, eval_cons, eval_nil]; grind
  | cons t f ih =>
    simp only [insertTerm]
    split
    · simp only [eval_cons]; grind
    · split
      · split
        · simp only [eval_cons]; grind
        · simp only [eval_cons]; grind
      · simp only [eval_cons, ih]; grind

theorem eval_addTerm (v : Var → Rat) (f : LinearForm) (x : Var) (a : Rat) :
    eval v (f.addTerm x a) = eval v f + a * v x := by
  unfold addTerm
  split
  · grind
  · exact eval_insertTerm v x a f

theorem eval_addScaled (v : Var → Rat) (f : LinearForm) (m : Rat) (g : LinearForm) :
    eval v (f.addScaled m g) = eval v f + m * eval v g := by
  induction g generalizing f with
  | nil => simp only [addScaled, List.foldl_nil, eval_nil]; grind
  | cons t g ih =>
    have h := ih (f.addTerm t.1 (m * t.2))
    simp only [addScaled, List.foldl_cons, eval_cons, eval_addTerm] at h ⊢
    grind

theorem eval_solve (v : Var → Rat) (f : LinearForm) (l e : Var) {a : Rat} (ha : a ≠ 0)
    (h : v l = a * v e + eval v f) : eval v (f.solve l a) = v e := by
  simp only [solve, eval_insertTerm, eval_scale, h]
  grind

/-! ### Normal forms -/

theorem IsNormal.nil : IsNormal [] := ⟨.nil, by simp⟩

theorem isNormal_cons {x : Var} {a : Rat} {f : LinearForm} :
    IsNormal ((x, a) :: f) ↔ (∀ t ∈ f, x < t.1) ∧ a ≠ 0 ∧ IsNormal f := by
  simp only [IsNormal, List.pairwise_cons, List.mem_cons, forall_eq_or_imp]
  grind

theorem mem_insertTerm {x : Var} {a : Rat} {f : LinearForm} {t : Var × Rat} (h : t ∈ insertTerm x a f) :
    t.1 = x ∨ t ∈ f := by
  induction f with
  | nil => simp_all [insertTerm]
  | cons s f ih =>
    simp only [insertTerm] at h
    grind

theorem IsNormal.insertTerm {x : Var} {a : Rat} {f : LinearForm} (ha : a ≠ 0) (hf : IsNormal f) :
    IsNormal (insertTerm x a f) := by
  induction f with
  | nil => simpa [LinearForm.insertTerm, isNormal_cons] using And.intro ha IsNormal.nil
  | cons s f ih =>
    obtain ⟨y, b⟩ := s
    have hs := isNormal_cons.mp hf
    simp only [LinearForm.insertTerm]
    split
    · refine isNormal_cons.mpr ⟨?_, ha, hf⟩
      grind
    · split
      · split
        · exact hs.2.2
        · exact isNormal_cons.mpr ⟨hs.1, by assumption, hs.2.2⟩
      · refine isNormal_cons.mpr ⟨fun t ht => ?_, hs.2.1, ih hs.2.2⟩
        rcases mem_insertTerm ht with h | h
        · grind
        · exact hs.1 t h

theorem IsNormal.addTerm {f : LinearForm} (x : Var) (a : Rat) (hf : IsNormal f) : IsNormal (f.addTerm x a) := by
  unfold LinearForm.addTerm
  split
  · exact hf
  · exact hf.insertTerm (by assumption)

theorem IsNormal.addScaled {f : LinearForm} (m : Rat) (g : LinearForm) (hf : IsNormal f) :
    IsNormal (f.addScaled m g) := by
  induction g generalizing f with
  | nil => exact hf
  | cons t g ih => exact ih (hf.addTerm t.1 (m * t.2))

theorem IsNormal.erase {f : LinearForm} (x : Var) (hf : IsNormal f) : IsNormal (f.erase x) :=
  ⟨hf.1.filter _, fun t ht => hf.2 t (List.mem_filter.mp ht).1⟩

theorem IsNormal.scale {f : LinearForm} {m : Rat} (hm : m ≠ 0) (hf : IsNormal f) : IsNormal (f.scale m) := by
  induction f with
  | nil => exact hf
  | cons s f ih =>
    obtain ⟨y, b⟩ := s
    have hs := isNormal_cons.mp hf
    refine isNormal_cons.mpr ⟨fun t ht => ?_, ?_, ih hs.2.2⟩
    · obtain ⟨u, hu, rfl⟩ := List.mem_map.mp ht
      exact hs.1 u hu
    · have := hs.2.1
      intro h
      rcases Rat.mul_eq_zero.mp h with h | h <;> contradiction

theorem IsNormal.solve {f : LinearForm} (l : Var) {a : Rat} (ha : a ≠ 0) (hf : IsNormal f) :
    IsNormal (f.solve l a) :=
  (hf.scale (by grind)).insertTerm (by grind)

end LinearForm

end LinReal
