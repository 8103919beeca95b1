import LinReal.Bound
import Mathlib.Algebra.Order.Group.Defs
import Mathlib.Algebra.Order.Field.Rat
import Mathlib.Tactic.Linarith
import Mathlib.Tactic.Ring

/-! Numbers with an infinitesimal part form an ordered group, and multiplying by a rational keeps or turns their order
    according to its sign. The sides of a bound read that order in two directions, so that the lemmas about limits are
    said once for both. -/

namespace LinReal

namespace DeltaRat

@[simp] theorem std_zero : (0 : DeltaRat).std = 0 := rfl
@[simp] theorem inf_zero : (0 : DeltaRat).inf = 0 := rfl
@[simp] theorem std_add (a b : DeltaRat) : (a + b).std = a.std + b.std := rfl
@[simp] theorem inf_add (a b : DeltaRat) : (a + b).inf = a.inf + b.inf := rfl
@[simp] theorem std_sub (a b : DeltaRat) : (a - b).std = a.std - b.std := rfl
@[simp] theorem inf_sub (a b : DeltaRat) : (a - b).inf = a.inf - b.inf := rfl
@[simp] theorem std_neg (a : DeltaRat) : (-a).std = -a.std := rfl
@[simp] theorem inf_neg (a : DeltaRat) : (-a).inf = -a.inf := rfl
@[simp] theorem std_scale (a : DeltaRat) (r : Rat) : (a.scale r).std = a.std * r := rfl
@[simp] theorem inf_scale (a : DeltaRat) (r : Rat) : (a.scale r).inf = a.inf * r := rfl

instance : AddCommGroup DeltaRat where
  add_assoc a b c := by ext <;> simp [add_assoc]
  zero_add a := by ext <;> simp
  add_zero a := by ext <;> simp
  add_comm a b := by ext <;> simp [add_comm]
  neg_add_cancel a := by ext <;> simp
  sub_eq_add_neg a b := by ext <;> simp [sub_eq_add_neg]
  nsmul := nsmulRec
  zsmul := zsmulRec

instance : LinearOrder DeltaRat where
  le_refl a := le_def.mpr (Or.inr ⟨rfl, le_refl _⟩)
  le_trans a b c hab hbc := by
    rw [le_def] at hab hbc ⊢
    rcases hab with hab | ⟨hab, hab'⟩ <;> rcases hbc with hbc | ⟨hbc, hbc'⟩
    · exact Or.inl (hab.trans hbc)
    · exact Or.inl (hbc ▸ hab)
    · exact Or.inl (hab ▸ hbc)
    · exact Or.inr ⟨hab.trans hbc, hab'.trans hbc'⟩
  le_antisymm a b hab hba := by
    rw [le_def] at hab hba
    rcases hab with hab | ⟨hab, hab'⟩ <;> rcases hba with hba | ⟨hba, hba'⟩
    · exact absurd (hab.trans hba) (lt_irrefl _)
    · exact absurd (hba ▸ hab) (lt_irrefl _)
    · exact absurd (hab ▸ hba) (lt_irrefl _)
    · exact DeltaRat.ext hab (le_antisymm hab' hba')
  lt_iff_le_not_ge a b := by
    rw [lt_def, le_def, le_def]
    grind
  le_total a b := by
    rw [le_def, le_def]
    grind
  toDecidableLE := inferInstance
  toDecidableLT := inferInstance
  toDecidableEq := inferInstance
  compare := compare
  compare_eq_compareOfLessAndEq _ _ := rfl

instance : IsOrderedAddMonoid DeltaRat where
  add_le_add_left a b h c := by
    rw [le_def] at h ⊢
    simp only [std_add, inf_add]
    grind

/-! ### Multiples -/

theorem scale_scale (a : DeltaRat) (r q : Rat) : (a.scale r).scale q = a.scale (r * q) := by
  ext <;> simp [mul_assoc]

@[simp] theorem scale_one (a : DeltaRat) : a.scale 1 = a := by ext <;> simp

theorem scale_le_scale {a b : DeltaRat} {r : Rat} (hr : 0 ≤ r) (h : a ≤ b) : a.scale r ≤ b.scale r := by
  rw [le_def] at h ⊢
  simp only [std_scale, inf_scale]
  rcases h with h | ⟨h, h'⟩
  · rcases hr.eq_or_lt with rfl | hr
    · simp
    · exact Or.inl (mul_lt_mul_of_pos_right h hr)
  · exact Or.inr ⟨by rw [h], mul_le_mul_of_nonneg_right h' hr⟩

theorem scale_le_scale_of_nonpos {a b : DeltaRat} {r : Rat} (hr : r ≤ 0) (h : a ≤ b) : b.scale r ≤ a.scale r := by
  have key := scale_le_scale (neg_nonneg.mpr hr) h
  have hneg : ∀ c : DeltaRat, c.scale (-r) = -c.scale r := fun c => by ext <;> simp
  rwa [hneg, hneg, neg_le_neg_iff] at key

theorem scale_injective {r : Rat} (hr : r ≠ 0) {a b : DeltaRat} (h : a.scale r = b.scale r) : a = b := by
  have key := congrArg (DeltaRat.scale · r⁻¹) h
  simpa only [scale_scale, mul_inv_cancel₀ hr, scale_one] using key

theorem scale_lt_scale {a b : DeltaRat} {r : Rat} (hr : 0 < r) (h : a < b) : a.scale r < b.scale r :=
  (scale_le_scale hr.le h.le).lt_of_ne fun heq => h.ne (scale_injective hr.ne' heq)

theorem scale_lt_scale_of_neg {a b : DeltaRat} {r : Rat} (hr : r < 0) (h : a < b) : b.scale r < a.scale r :=
  (scale_le_scale_of_nonpos hr.le h.le).lt_of_ne fun heq => h.ne' (scale_injective hr.ne heq)

theorem scale_sub (a b : DeltaRat) (r : Rat) : (a - b).scale r = a.scale r - b.scale r := by
  ext <;> simp [sub_mul]

theorem scale_of_div? {a q : DeltaRat} {r : Rat} (h : a.div? r = some q) : q.scale r = a := by
  simp only [div?, Option.ite_none_left_eq_some, Option.some.injEq] at h
  obtain ⟨hr, rfl⟩ := h
  rw [scale_scale, inv_mul_cancel₀ hr, scale_one]

theorem div?_of_ne_zero (a : DeltaRat) {r : Rat} (h : r ≠ 0) : a.div? r = some (a.scale r⁻¹) := by
  simp [div?, h]

end DeltaRat

/-! ### Sides -/

namespace Side

variable {u v w c : DeltaRat} {side : Side}

theorem forall_iff {p : Side → Prop} : (∀ side, p side) ↔ p .lower ∧ p .upper := by
  constructor
  · exact fun h => ⟨h .lower, h .upper⟩
  · rintro ⟨hl, hu⟩ (_ | _)
    · exact hl
    · exact hu

theorem outside_eq_false_iff : side.outside v c = false ↔ side.opposite.reached v c = true := by
  cases side <;> simp [outside, reached, opposite]

theorem reached_eq_false_iff : side.reached v c = false ↔ side.opposite.outside v c = true := by
  cases side <;> simp [outside, reached, opposite]

@[simp] theorem reached_self (side : Side) (v : DeltaRat) : side.reached v v = true := by
  cases side <;> simp [reached]

@[simp] theorem outside_self (side : Side) (v : DeltaRat) : side.outside v v = false := by
  cases side <;> simp [outside]

theorem reached_of_outside (h : side.outside v c = true) : side.reached v c = true := by
  cases side <;> simp only [outside, reached, decide_eq_true_eq] at h ⊢ <;> exact h.le

theorem reached_trans (h₁ : side.reached u v = true) (h₂ : side.reached v w = true) : side.reached u w = true := by
  cases side <;> simp only [reached, decide_eq_true_eq] at h₁ h₂ ⊢
  · exact h₁.trans h₂
  · exact h₂.trans h₁

theorem reached_opposite : side.opposite.reached v w = side.reached w v := by
  cases side <;> rfl

theorem outside_opposite : side.opposite.outside v w = side.outside w v := by
  cases side <;> rfl

/-- What lies beyond a value outside a limit lies outside the limit as well. -/
theorem outside_of_reached (h₁ : side.reached u v = true) (h₂ : side.outside v c = true) :
    side.outside u c = true := by
  cases side <;> simp only [reached, outside, decide_eq_true_eq] at h₁ h₂ ⊢
  · exact h₁.trans_lt h₂
  · exact h₂.trans_le h₁

/-- Multiplied by a coefficient, a value that has gone further towards the remedy of a side has gone further towards the
    other side. -/
theorem reached_scale {a : Rat} (h : (side.remedy a).reached v w = true) :
    side.opposite.reached (v.scale a) (w.scale a) = true := by
  cases side <;> simp only [remedy] at h <;> split at h <;>
    simp only [reached, opposite, decide_eq_true_eq] at h ⊢ <;>
    first
      | exact DeltaRat.scale_le_scale (by linarith) h
      | exact DeltaRat.scale_le_scale_of_nonpos (by linarith) h

/-- A value that goes further towards the remedy of a side takes what it is a term of further from that side. -/
theorem outside_scale {a : Rat} (ha : a ≠ 0) (h : (side.remedy a).outside w u = true) :
    side.outside v (v + (w - u).scale a) = true := by
  cases side <;> simp only [remedy] at h <;> split at h <;> rename_i hsign <;>
    simp only [outside, decide_eq_true_eq, DeltaRat.scale_sub, lt_add_iff_pos_right, add_lt_iff_neg_left, sub_pos, sub_neg] at h ⊢
  · exact DeltaRat.scale_lt_scale hsign h
  · exact DeltaRat.scale_lt_scale_of_neg ((not_lt.mp hsign).lt_of_ne ha) h
  · exact DeltaRat.scale_lt_scale_of_neg hsign h
  · exact DeltaRat.scale_lt_scale ((not_lt.mp hsign).lt_of_ne' ha) h

/-- There is always something further out. -/
theorem exists_outside (side : Side) (v : DeltaRat) : ∃ w, side.outside w v = true := by
  have hone : (0 : DeltaRat) < ⟨1, 0⟩ := DeltaRat.lt_def.mpr (Or.inl one_pos)
  cases side with
  | lower => exact ⟨v - ⟨1, 0⟩, decide_eq_true (sub_lt_self v hone)⟩
  | upper => exact ⟨v + ⟨1, 0⟩, decide_eq_true (lt_add_of_pos_right v hone)⟩

theorem reached_add {v' w' : DeltaRat} (h : side.reached v w = true) (h' : side.reached v' w' = true) :
    side.reached (v + v') (w + w') = true := by
  cases side <;> simp only [reached, decide_eq_true_eq] at h h' ⊢ <;> exact add_le_add h h'

end Side

end LinReal
