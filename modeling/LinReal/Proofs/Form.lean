import LinReal.LinearForm
import LinReal.Proofs.Infinitesimal

/-! Linear forms under changes of their values. In a normal form a variable has one coefficient, which says how the value
    of the form follows that variable; and if no term of a form can go on towards the remedy of a side, neither can the
    form. -/

namespace LinReal

namespace LinearForm

variable {f g : LinearForm} {x y : Var} {a : Rat}

/-! ### Variables and coefficients -/

@[simp] theorem vars_nil : vars [] = [] := rfl

@[simp] theorem vars_cons (t : Var × Rat) (f : LinearForm) : vars (t :: f) = t.1 :: f.vars := rfl

theorem mem_vars_iff : x ∈ f.vars ↔ ∃ a, (x, a) ∈ f := by
  simp [vars]

theorem mem_vars_of_mem {t : Var × Rat} (h : t ∈ f) : t.1 ∈ f.vars := List.mem_map_of_mem h

theorem mentions_iff : f.mentions x = true ↔ x ∈ f.vars := by
  simp [mentions, vars]

theorem coeff?_eq_none_iff : f.coeff? x = none ↔ x ∉ f.vars := by
  induction f with
  | nil => simp [coeff?]
  | cons t f ih =>
    simp only [coeff?, vars_cons, List.mem_cons, not_or]
    by_cases h : t.1 = x
    · simp [h]
    · simp [h, ih, Ne.symm h]

theorem mem_of_coeff? (h : f.coeff? x = some a) : (x, a) ∈ f := by
  induction f with
  | nil => simp [coeff?] at h
  | cons t f ih =>
    simp only [coeff?] at h
    split at h
    · rename_i hx
      obtain rfl := Option.some.inj h
      exact List.mem_cons.mpr (Or.inl (Prod.ext hx.symm rfl))
    · exact List.mem_cons_of_mem _ (ih h)

theorem mem_vars_of_coeff? (h : f.coeff? x = some a) : x ∈ f.vars := mem_vars_of_mem (mem_of_coeff? h)

theorem IsNormal.coeff?_of_mem (hf : f.IsNormal) (h : (x, a) ∈ f) : f.coeff? x = some a := by
  induction f with
  | nil => cases h
  | cons t f ih =>
    obtain ⟨y, b⟩ := t
    obtain ⟨hlt, -, hf'⟩ := isNormal_cons.mp hf
    simp only [coeff?]
    rcases List.mem_cons.mp h with h | h
    · cases h
      simp
    · rw [if_neg (hlt _ h).ne]
      exact ih hf' h

theorem IsNormal.coeff?_ne_zero (hf : f.IsNormal) (h : f.coeff? x = some a) : a ≠ 0 := hf.2 _ (mem_of_coeff? h)

theorem mem_vars_erase : y ∈ (f.erase x).vars ↔ y ≠ x ∧ y ∈ f.vars := by
  simp only [erase, mem_vars_iff, List.mem_filter, decide_eq_true_eq]
  exact ⟨fun ⟨a, h, hne⟩ => ⟨hne, a, h⟩, fun ⟨hne, a, h⟩ => ⟨a, h, hne⟩⟩

theorem mem_vars_scale {m : Rat} : y ∈ (f.scale m).vars ↔ y ∈ f.vars := by
  simp [scale, vars]

theorem addTerm_of_ne_zero (ha : a ≠ 0) : f.addTerm x a = insertTerm x a f := if_neg ha

theorem mem_vars_insertTerm (h : y ∈ (insertTerm x a f).vars) : y = x ∨ y ∈ f.vars := by
  obtain ⟨b, hb⟩ := mem_vars_iff.mp h
  exact (mem_insertTerm hb).imp id mem_vars_of_mem

theorem mem_vars_addTerm (h : y ∈ (f.addTerm x a).vars) : y = x ∨ y ∈ f.vars := by
  unfold addTerm at h
  split at h
  · exact Or.inr h
  · exact mem_vars_insertTerm h

theorem mem_vars_insertTerm_of_ne (h : y ≠ x) : y ∈ (insertTerm x a f).vars ↔ y ∈ f.vars := by
  induction f with
  | nil => simp [insertTerm, h]
  | cons t f ih =>
    simp only [insertTerm]
    split
    · simp [h]
    · split
      · rename_i hx
        have hy : y ≠ t.1 := hx ▸ h
        split <;> simp [hy]
      · simp [ih]

theorem mem_vars_insertTerm_self (hx : x ∉ f.vars) : x ∈ (insertTerm x a f).vars := by
  induction f with
  | nil => simp [insertTerm]
  | cons t f ih =>
    obtain ⟨hne, hx⟩ := not_or.mp (mt List.mem_cons.mpr hx)
    rw [insertTerm]
    split
    · simp
    · exact List.mem_cons_of_mem _ (ih hx)

theorem addScaled_cons (f : LinearForm) (m : Rat) (t : Var × Rat) (g : LinearForm) :
    f.addScaled m (t :: g) = (f.addTerm t.1 (m * t.2)).addScaled m g := rfl

theorem mem_vars_addScaled {m : Rat} (h : y ∈ (f.addScaled m g).vars) : y ∈ f.vars ∨ y ∈ g.vars := by
  induction g generalizing f with
  | nil => exact Or.inl h
  | cons t g ih =>
    rcases ih h with h | h
    · rcases mem_vars_addTerm h with rfl | h
      · exact Or.inr (List.mem_cons_self)
      · exact Or.inl h
    · exact Or.inr (List.mem_cons_of_mem _ h)

theorem mem_vars_solve {l : Var} (h : y ∈ (f.solve l a).vars) : y = l ∨ y ∈ f.vars :=
  (mem_vars_insertTerm h).imp id mem_vars_scale.mp

/-! ### Values -/

theorem eval_congr {v w : Var → Rat} (h : ∀ y ∈ f.vars, v y = w y) : f.eval v = f.eval w := by
  induction f with
  | nil => rfl
  | cons t f ih =>
    rw [eval_cons, eval_cons, h t.1 List.mem_cons_self, ih fun y hy => h y (List.mem_cons_of_mem _ hy)]

/-- The value of a variable that a form does not mention is of no account. -/
theorem eval_update_of_not_mem (h : x ∉ f.vars) (v : Var → Rat) (r : Rat) : f.eval (Function.update v x r) = f.eval v :=
  eval_congr fun y hy => Function.update_of_ne (fun he : y = x => h (he ▸ hy)) _ _

theorem erase_cons (t : Var × Rat) (f : LinearForm) (x : Var) :
    LinearForm.erase (t :: f) x = if t.1 = x then LinearForm.erase f x else t :: LinearForm.erase f x := by
  by_cases h : t.1 = x <;> simp [LinearForm.erase, h]

theorem erase_of_not_mem (h : x ∉ f.vars) : f.erase x = f :=
  List.filter_eq_self.mpr fun t ht => by
    have : t.1 ≠ x := fun he => h (he ▸ mem_vars_of_mem ht)
    simpa using this

theorem IsNormal.eval_eq (hf : f.IsNormal) (h : f.coeff? x = some a) (v : Var → Rat) :
    f.eval v = a * v x + (f.erase x).eval v := by
  induction f with
  | nil => simp [coeff?] at h
  | cons t f ih =>
    obtain ⟨y, b⟩ := t
    obtain ⟨hlt, -, hf'⟩ := isNormal_cons.mp hf
    simp only [coeff?] at h
    rw [eval_cons, erase_cons]
    by_cases hy : y = x
    · rw [if_pos hy, Option.some.injEq] at h
      have hx : x ∉ vars f := by
        intro hx
        obtain ⟨b', hb'⟩ := mem_vars_iff.mp hx
        exact absurd hy (hlt _ hb').ne
      rw [if_pos hy, erase_of_not_mem hx, h, hy]
    · rw [if_neg hy] at h
      rw [if_neg hy, eval_cons, ih hf' h]
      ring

theorem IsNormal.eval_update (hf : f.IsNormal) (v : Var → Rat) (x : Var) (r : Rat) :
    f.eval (Function.update v x (v x + r)) = f.eval v + (f.coeff? x).getD 0 * r := by
  cases hc : f.coeff? x with
  | none => simpa using eval_update_of_not_mem (coeff?_eq_none_iff.mp hc) v (v x + r)
  | some a =>
    have herased : x ∉ vars (f.erase x) := fun h => (mem_vars_erase.mp h).1 rfl
    rw [hf.eval_eq hc, hf.eval_eq hc, eval_update_of_not_mem herased, Function.update_self, Option.getD_some]
    ring

@[simp] theorem evalDelta_nil (v : Var → DeltaRat) : evalDelta v [] = 0 := rfl

@[simp] theorem evalDelta_cons (v : Var → DeltaRat) (t : Var × Rat) (f : LinearForm) :
    evalDelta v (t :: f) = (v t.1).scale t.2 + evalDelta v f := by
  ext <;> simp [evalDelta, mul_comm]

theorem evalDelta_congr {v w : Var → DeltaRat} (h : ∀ y ∈ f.vars, v y = w y) : f.evalDelta v = f.evalDelta w := by
  ext
  · exact eval_congr fun y hy => congrArg DeltaRat.std (h y hy)
  · exact eval_congr fun y hy => congrArg DeltaRat.inf (h y hy)

theorem IsNormal.evalDelta_update (hf : f.IsNormal) (v : Var → DeltaRat) (x : Var) (step : DeltaRat) :
    f.evalDelta (Function.update v x (v x + step)) = f.evalDelta v + step.scale ((f.coeff? x).getD 0) := by
  have hpart : ∀ p : DeltaRat → Rat, (fun y => p (Function.update v x (v x + step) y)) =
      Function.update (fun y => p (v y)) x (p (v x + step)) := by
    intro p
    funext y
    by_cases h : y = x <;> simp [Function.update, h]
  ext
  · simp only [evalDelta, hpart DeltaRat.std, DeltaRat.std_add, hf.eval_update, DeltaRat.std_scale]
    ring
  · simp only [evalDelta, hpart DeltaRat.inf, DeltaRat.inf_add, hf.eval_update, DeltaRat.inf_scale]
    ring

/-- A variable of a normal form can be given a value with which the form takes a given one. -/
theorem IsNormal.exists_evalDelta_eq (hf : f.IsNormal) (h : (x, a) ∈ f) (v : Var → DeltaRat) (c : DeltaRat) :
    ∃ d, f.evalDelta (Function.update v x d) = c := by
  refine ⟨v x + (c - f.evalDelta v).scale a⁻¹, ?_⟩
  rw [hf.evalDelta_update, hf.coeff?_of_mem h, Option.getD_some, DeltaRat.scale_scale, inv_mul_cancel₀ (hf.2 _ h),
    DeltaRat.scale_one, add_sub_cancel]

/-- Replacing the infinitesimal by a rational commutes with the value of a form. -/
theorem substitute_evalDelta (v : Var → DeltaRat) (f : LinearForm) (d : Rat) :
    (f.evalDelta v).substitute d = f.eval fun y => (v y).substitute d := by
  induction f with
  | nil => simp
  | cons t f ih =>
    rw [evalDelta_cons, DeltaRat.substitute_add, DeltaRat.substitute_scale, ih, eval_cons, mul_comm]

theorem evalDelta_ofRat (v : Var → Rat) (f : LinearForm) :
    (f.evalDelta fun y => .ofRat (v y)) = .ofRat (f.eval v) := by
  have hzero : ∀ f : LinearForm, f.eval (fun _ => 0) = 0 := by
    intro f
    induction f with
    | nil => rfl
    | cons t f ih => simp [ih]
  ext
  · rfl
  · exact hzero f

/-- If no term has more room towards the remedy of a side under `v` than it uses under `w`, then the form has reached on the
    other side under `v` what it reaches under `w`. -/
theorem reached_evalDelta {side : Side} {v w : Var → DeltaRat}
    (h : ∀ t ∈ f, (side.remedy t.2).reached (v t.1) (w t.1) = true) :
    side.opposite.reached (f.evalDelta v) (f.evalDelta w) = true := by
  induction f with
  | nil => simp
  | cons t f ih =>
    rw [evalDelta_cons, evalDelta_cons]
    exact Side.reached_add (Side.reached_scale (h t List.mem_cons_self))
      (ih fun u hu => h u (List.mem_cons_of_mem _ hu))

end LinearForm

end LinReal
