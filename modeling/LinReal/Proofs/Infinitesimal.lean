import LinReal.Proofs.Order

/-! Rationals for the infinitesimal. Whatever rational is put for it, sums, differences, multiples and quotients are kept.
    Comparisons are kept once the rational is small enough, and finitely many of them have one bound in common up to which it
    is. -/

namespace LinReal

namespace DeltaRat

variable {a b : DeltaRat} {r d : Rat}

/-! ### Sums and multiples -/

theorem substitute_add (a b : DeltaRat) (d : Rat) : (a + b).substitute d = a.substitute d + b.substitute d := by
  simp only [substitute, std_add, inf_add]
  ring

theorem substitute_neg (a : DeltaRat) (d : Rat) : (-a).substitute d = -a.substitute d := by
  simp only [substitute, std_neg, inf_neg]
  ring

theorem substitute_sub (a b : DeltaRat) (d : Rat) : (a - b).substitute d = a.substitute d - b.substitute d := by
  rw [sub_eq_add_neg, substitute_add, substitute_neg, sub_eq_add_neg]

theorem substitute_scale (a : DeltaRat) (r d : Rat) : (a.scale r).substitute d = a.substitute d * r := by
  simp only [substitute, std_scale, inf_scale]
  ring

theorem substitute_div? (a : DeltaRat) (hr : r ≠ 0) (d : Rat) :
    ∃ q, a.div? r = some q ∧ q.substitute d = a.substitute d / r :=
  ⟨_, a.div?_of_ne_zero hr, by rw [substitute_scale, div_eq_mul_inv]⟩

@[simp] theorem substitute_zero (d : Rat) : (0 : DeltaRat).substitute d = 0 := by simp [substitute]

theorem substitute_ofRat (a d : Rat) : (ofRat a).substitute d = a := by simp [substitute, ofRat]

theorem substitute_strictlyAbove (a d : Rat) : (strictlyAbove a).substitute d = a + d := by
  simp [substitute, strictlyAbove]

theorem substitute_strictlyBelow (a d : Rat) : (strictlyBelow a).substitute d = a - d := by
  simp [substitute, strictlyBelow, sub_eq_add_neg]

/-! ### Small rationals -/

/-- The property holds of every positive rational that is small enough. -/
def ForSmall (p : Rat → Prop) : Prop := ∃ e, 0 < e ∧ ∀ d, 0 < d → d ≤ e → p d

theorem forSmall_of_forall {p : Rat → Prop} (h : ∀ d, 0 < d → p d) : ForSmall p := ⟨1, one_pos, fun d hd _ => h d hd⟩

theorem ForSmall.mono {p q : Rat → Prop} (h : ForSmall p) (hpq : ∀ d, 0 < d → p d → q d) : ForSmall q := by
  obtain ⟨e, he, h⟩ := h
  exact ⟨e, he, fun d hd hle => hpq d hd (h d hd hle)⟩

/-- What finitely many things need of a small rational has one bound. -/
theorem forSmall_forall_mem {α : Type} {p : α → Rat → Prop} :
    ∀ {xs : List α}, (∀ x ∈ xs, ForSmall (p x)) → ForSmall fun d => ∀ x ∈ xs, p x d
  | [], _ => forSmall_of_forall fun _ _ _ hx => by cases hx
  | x :: xs, h => by
    obtain ⟨hx, hxs⟩ := List.forall_mem_cons.mp h
    obtain ⟨e, he, hx⟩ := hx
    obtain ⟨e', he', hxs⟩ := forSmall_forall_mem hxs
    refine ⟨min e e', lt_min he he', fun d hd hle => List.forall_mem_cons.mpr ⟨?_, ?_⟩⟩
    · exact hx d hd (hle.trans (min_le_left e e'))
    · exact hxs d hd (hle.trans (min_le_right e e'))

/-! ### Comparisons -/

theorem forSmall_pos (h : 0 < a) : ForSmall fun d => 0 < a.substitute d := by
  rcases lt_def.mp h with hstd | ⟨hstd, hinf⟩
  · -- Up to this bound the infinitesimal part is smaller than the standard part, whatever its sign.
    have hslope : 0 < |a.inf| + 1 := by positivity
    refine ⟨a.std / (|a.inf| + 1), div_pos hstd hslope, fun d hd hle => ?_⟩
    have hpart : d * |a.inf| < a.std := by
      have hle : d * (|a.inf| + 1) ≤ a.std := (le_div_iff₀ hslope).mp hle
      linarith
    have habs : -(d * |a.inf|) ≤ d * a.inf := by
      rw [← mul_neg]
      exact mul_le_mul_of_nonneg_left (neg_abs_le a.inf) hd.le
    simp only [substitute]
    linarith
  · refine forSmall_of_forall fun d hd => ?_
    rw [substitute, ← hstd, std_zero, zero_add]
    exact mul_pos hinf hd

theorem forSmall_lt (h : a < b) : ForSmall fun d => a.substitute d < b.substitute d := by
  refine (forSmall_pos (sub_pos.mpr h)).mono fun d _ hpos => ?_
  rwa [substitute_sub, sub_pos] at hpos

theorem forSmall_compare (a b : DeltaRat) : ForSmall fun d => compare a b = compare (a.substitute d) (b.substitute d) := by
  rcases lt_trichotomy a b with h | rfl | h
  · refine (forSmall_lt h).mono fun d _ hlt => ?_
    rw [compare_lt_iff_lt.mpr h, compare_lt_iff_lt.mpr hlt]
  · refine forSmall_of_forall fun d _ => ?_
    rw [compare_eq_iff_eq.mpr rfl, compare_eq_iff_eq.mpr rfl]
  · refine (forSmall_lt h).mono fun d _ hlt => ?_
    rw [compare_gt_iff_gt.mpr h, compare_gt_iff_gt.mpr hlt]

/-- The order is the one that small rationals give, and it goes with the arithmetic. Finitely many numbers compare like the rationals
    that they become, for every positive rational up to some bound. Adding keeps the order; multiplying keeps or turns it by the
    sign of the factor. And to put a rational for the infinitesimal commutes with all of the arithmetic. -/
theorem substitute_faithful :
    (∀ values : List DeltaRat, ∃ e, 0 < e ∧ ∀ d, 0 < d → d ≤ e → ∀ a ∈ values, ∀ b ∈ values,
      compare a b = compare (a.substitute d) (b.substitute d)) ∧
    (∀ a b c : DeltaRat, a ≤ b → a + c ≤ b + c) ∧
    (∀ (a b : DeltaRat) (r : Rat), a ≤ b → (0 ≤ r → a.scale r ≤ b.scale r) ∧ (r ≤ 0 → b.scale r ≤ a.scale r)) ∧
    ∀ (a b : DeltaRat) (r d : Rat),
      (a + b).substitute d = a.substitute d + b.substitute d ∧
      (a - b).substitute d = a.substitute d - b.substitute d ∧
      (-a).substitute d = -a.substitute d ∧
      (a.scale r).substitute d = a.substitute d * r ∧
      (r ≠ 0 → ∃ q, a.div? r = some q ∧ q.substitute d = a.substitute d / r) := by
  refine ⟨fun values => ?_, fun a b c h => ?_, fun a b r h => ⟨?_, ?_⟩, fun a b r d => ?_⟩
  · exact forSmall_forall_mem fun a _ => forSmall_forall_mem fun b _ => forSmall_compare a b
  · exact add_le_add_left h c
  · exact fun hr => scale_le_scale hr h
  · exact fun hr => scale_le_scale_of_nonpos hr h
  · exact ⟨substitute_add a b d, substitute_sub a b d, substitute_neg a d, substitute_scale a r d,
      fun hr => substitute_div? a hr d⟩

/-- The limits of strict bounds at one constant, and a number below them of which the infinitesimal part is the greatest. -/
theorem substitute_faithful_of_strict_limits :
    (∃ e : Rat, 0 < e ∧ compare ((⟨1 / 2, 100⟩ : DeltaRat).substitute e) ((strictlyBelow 1).substitute e) = .lt ∧
      compare ((strictlyAbove 1).substitute e) ((strictlyBelow 1).substitute e) = .gt) ∧
    strictlyBelow 1 ≤ strictlyAbove 1 ∧
    strictlyBelow 1 + ofRat 2 ≤ strictlyAbove 1 + ofRat 2 ∧
    (strictlyBelow 1).scale 3 ≤ (strictlyAbove 1).scale 3 ∧
    (strictlyAbove 1).scale (-3) ≤ (strictlyBelow 1).scale (-3) ∧
    ∃ q, (strictlyBelow 1).div? (-3) = some q ∧ q.substitute (1 / 10) = (strictlyBelow 1).substitute (1 / 10) / -3 := by
  obtain ⟨hcompare, hadd, hscale, harith⟩ := substitute_faithful
  have hle : strictlyBelow 1 ≤ strictlyAbove 1 := by decide +kernel
  obtain ⟨e, he, hsame⟩ := hcompare [⟨1 / 2, 100⟩, strictlyBelow 1, strictlyAbove 1]
  refine ⟨⟨e, he, ?_, ?_⟩, hle, hadd _ _ _ hle, (hscale _ _ 3 hle).1 (by decide), (hscale _ _ (-3) hle).2 (by decide),
    (harith (strictlyBelow 1) 0 (-3) (1 / 10)).2.2.2.2 (by decide)⟩
  · rw [← hsame e he le_rfl ⟨1 / 2, 100⟩ (by simp) (strictlyBelow 1) (by simp)]
    decide +kernel
  · rw [← hsame e he le_rfl (strictlyAbove 1) (by simp) (strictlyBelow 1) (by simp)]
    decide +kernel

end DeltaRat

end LinReal
