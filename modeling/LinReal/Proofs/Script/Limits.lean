import LinReal.Script.Run
import LinReal.Proofs.Solver.Assertions

/-! Bounds of scripts as bounds of a solver. A solver knows a bound by its limit on the sides that its relation limits. The
    limits hold of rational values exactly if the bounds do, and values with infinitesimal parts that respect them become
    rational values that satisfy the bounds once the infinitesimal is small enough. -/

namespace LinReal

/-! ### Definitions -/

theorem SatisfiesDelta.substitute {w : Var → DeltaRat} {ds : List (Var × LinearForm)} (h : SatisfiesDelta w ds) (d : Rat) :
    Satisfies (fun x => (w x).substitute d) ds := by
  intro p hp
  show (w p.1).substitute d = _
  rw [h p hp, LinearForm.substitute_evalDelta]

theorem Satisfies.ofRat {v : Var → Rat} {ds : List (Var × LinearForm)} (h : Satisfies v ds) :
    SatisfiesDelta (fun x => .ofRat (v x)) ds := by
  intro p hp
  show DeltaRat.ofRat (v p.1) = _
  rw [LinearForm.evalDelta_ofRat, h p hp]

namespace Literal

variable {l : Literal} {s : Solver Nat} {ds : List (Var × LinearForm)} {w : Var → DeltaRat} {v v' : Var → Rat}
  {a b : DeltaRat} {d e : Rat}

theorem crossing_pos (h : crossing a b = some e) : 0 < e := by
  simp only [crossing, Option.ite_none_right_eq_some, Option.some.injEq] at h
  obtain ⟨⟨hgap, hclosing⟩, rfl⟩ := h
  exact div_pos hgap hclosing

/-- Two numbers keep their order as long as the infinitesimal does not pass their crossing. -/
theorem substitute_le (hab : b ≤ a) (hd : 0 < d) (hcrossing : ∀ e, crossing a b = some e → d ≤ e) :
    b.substitute d ≤ a.substitute d := by
  have key : d * (b.inf - a.inf) ≤ a.std - b.std := by
    rcases DeltaRat.le_def.mp hab with hlt | ⟨heq, hle⟩
    · by_cases hclosing : 0 < b.inf - a.inf
      · have hgap : 0 < a.std - b.std := sub_pos.mpr hlt
        exact (le_div_iff₀ hclosing).mp (hcrossing _ (if_pos ⟨hgap, hclosing⟩))
      · have hneg := mul_nonpos_of_nonneg_of_nonpos hd.le (not_lt.mp hclosing)
        linarith
    · have hneg := mul_nonpos_of_nonneg_of_nonpos hd.le (sub_nonpos.mpr hle)
      linarith
  simp only [DeltaRat.substitute]
  linarith

/-! ### Limits -/

/-- The sides on which the bound limits its variable. -/
def sides (l : Literal) : Side → Prop :=
  match l.relation with
  | .ge | .gt => (· = .lower)
  | .le | .lt => (· = .upper)
  | .eq => fun _ => True

/-- The values respect the limit of the bound. -/
def Respected (l : Literal) (w : Var → DeltaRat) : Prop := ∀ side, l.sides side → side.outside (w l.var) l.limit = false

theorem assertIn_ok (h : s.Sound ds) (l : Literal) (token : Nat) :
    ∃ answer t, l.assertIn s token = .ok (answer, t) ∧ s.Asserted ds t answer l.sides l.var l.limit token := by
  obtain ⟨x, relation, c⟩ := l
  cases relation
  · exact Solver.assertBound_ok h .lower x (.ofRat c) token
  · exact Solver.assertBound_ok h .lower x (.strictlyAbove c) token
  · exact Solver.assertBound_ok h .upper x (.ofRat c) token
  · exact Solver.assertBound_ok h .upper x (.strictlyBelow c) token
  · exact Solver.assertEqual_ok h x (.ofRat c) token

/-- A bound holds of rational values if they respect its limit. -/
theorem holds_iff : l.holds v ↔ l.Respected fun x => .ofRat (v x) := by
  obtain ⟨x, relation, c⟩ := l
  cases relation <;>
    simp only [holds, Relation.holds, Respected, sides, limit, Side.outside, DeltaRat.lt_def, DeltaRat.ofRat,
      DeltaRat.strictlyAbove, DeltaRat.strictlyBelow, decide_eq_true_eq, decide_eq_false_iff_not, forall_eq, true_implies,
      Side.forall_iff] <;>
    grind

theorem holds_congr (h : v' l.var = v l.var) : l.holds v' ↔ l.holds v := by rw [holds, holds, h]

theorem deltaLimit_pos (h : l.deltaLimit a = some e) : 0 < e := by
  obtain ⟨x, relation, c⟩ := l
  cases relation
  · exact crossing_pos h
  · exact crossing_pos h
  · exact crossing_pos h
  · exact crossing_pos h
  · cases h

theorem Respected.limit_le (h : l.Respected w) (hside : l.sides .lower) : l.limit ≤ w l.var :=
  not_lt.mp (of_decide_eq_false (h .lower hside))

theorem Respected.le_limit (h : l.Respected w) (hside : l.sides .upper) : w l.var ≤ l.limit :=
  not_lt.mp (of_decide_eq_false (h .upper hside))

/-- A bound of which the limit is respected holds once the infinitesimal is small enough. -/
theorem Respected.holds (h : l.Respected w) (hd : 0 < d) (hsmall : ∀ e, l.deltaLimit (w l.var) = some e → d ≤ e) :
    l.holds fun x => (w x).substitute d := by
  obtain ⟨x, relation, c⟩ := l
  cases relation with
  | ge =>
    have hle := substitute_le (h.limit_le rfl) hd hsmall
    rw [limit, DeltaRat.substitute_ofRat] at hle
    exact decide_eq_true hle
  | gt =>
    have hle := substitute_le (h.limit_le rfl) hd hsmall
    rw [limit, DeltaRat.substitute_strictlyAbove] at hle
    exact decide_eq_true ((lt_add_of_pos_right c hd).trans_le hle)
  | le =>
    have hle := substitute_le (h.le_limit rfl) hd hsmall
    rw [limit, DeltaRat.substitute_ofRat] at hle
    exact decide_eq_true hle
  | lt =>
    have hle := substitute_le (h.le_limit rfl) hd hsmall
    rw [limit, DeltaRat.substitute_strictlyBelow] at hle
    exact decide_eq_true (hle.trans_lt (sub_lt_self c hd))
  | eq =>
    have heq : w x = .ofRat c := le_antisymm (h.le_limit trivial) (h.limit_le trivial)
    refine decide_eq_true ?_
    show (w x).substitute d = c
    rw [heq, DeltaRat.substitute_ofRat]

theorem Respected.forSmall_holds (h : l.Respected w) : DeltaRat.ForSmall fun d => l.holds fun x => (w x).substitute d := by
  cases hlimit : l.deltaLimit (w l.var) with
  | none => exact DeltaRat.forSmall_of_forall fun d hd => h.holds hd fun e he => by rw [hlimit] at he; cases he
  | some e =>
    refine ⟨e, deltaLimit_pos hlimit, fun d hd hle => h.holds hd fun e' he' => ?_⟩
    rwa [← Option.some.inj (hlimit.symm.trans he')]

end Literal

/-! ### Bounds in force -/

namespace Script

variable {s : Script} {b c : Bounds Nat} {is : List Nat} {i : Nat} {l : Literal} {w : Var → DeltaRat} {v : Var → Rat}
  {ds : List (Var × LinearForm)}

/-- The bounds with these ordinals hold of the values. -/
def Holds (s : Script) (is : List Nat) (v : Var → Rat) : Prop := ∀ i ∈ is, ∀ l, s.literals[i]? = some l → l.holds v

/-- The values satisfy the definitions and the bounds with these ordinals. -/
def Solves (s : Script) (ds : List (Var × LinearForm)) (is : List Nat) (v : Var → Rat) : Prop :=
  Satisfies v ds ∧ s.Holds is v

theorem holds_iff_of_mem {js : List Nat} (h : ∀ i, i ∈ is ↔ i ∈ js) : s.Holds is v ↔ s.Holds js v :=
  forall_congr' fun i => imp_congr_left (h i)

/-- Every bound of a solver stems from one of these ordinals, and the bound with each of them is as loose as one of the
    solver's. -/
structure Fits (s : Script) (b : Bounds Nat) (is : List Nat) : Prop where
  stems : ∀ side x bound, b side x = some bound → bound.token ∈ is ∧
    ∃ l, s.literals[bound.token]? = some l ∧ l.var = x ∧ l.sides side ∧ l.limit = bound.value
  covers : ∀ i ∈ is, ∀ l, s.literals[i]? = some l → ∀ side, l.sides side →
    ∃ bound, b side l.var = some bound ∧ side.reached l.limit bound.value = true

theorem fits_nil (s : Script) : s.Fits (fun _ _ => none) [] :=
  ⟨fun _ _ _ hl => (by cases hl), fun _ hi => by cases hi⟩

theorem Fits.impose (h : s.Fits b is) (hl : s.literals[i]? = some l) (hi : b.Imposed c l.sides l.var l.limit i) :
    s.Fits c (i :: is) := by
  refine ⟨fun side x bound hb => ?_, fun j hj k hk side hside => ?_⟩
  · rcases hi.origin side x bound hb with hb | ⟨hside, rfl, rfl⟩
    · obtain ⟨hin, hlit⟩ := h.stems side x bound hb
      exact ⟨List.mem_cons_of_mem _ hin, hlit⟩
    · exact ⟨List.mem_cons_self, l, hl, rfl, hside, rfl⟩
  · rcases List.mem_cons.mp hj with rfl | hj
    · obtain rfl := Option.some.inj (hl.symm.trans hk)
      exact hi.holds side hside
    · obtain ⟨bound, hbound, hr⟩ := h.covers j hj k hk side hside
      obtain ⟨bound', hbound', hr'⟩ := hi.tightens side k.var bound hbound
      exact ⟨bound', hbound', Side.reached_trans hr hr'⟩

theorem Fits.respected (h : s.Fits b is) (hw : ∀ x, b.Admits x (w x)) (hi : i ∈ is) (hl : s.literals[i]? = some l) :
    l.Respected w := by
  intro side hside
  obtain ⟨bound, hbound, hr⟩ := h.covers i hi l hl side hside
  have hin := Side.outside_eq_false_iff.mp (hw l.var side bound hbound)
  exact Side.outside_eq_false_iff.mpr (Side.reached_trans hin (by rwa [Side.reached_opposite]))

/-- Values that respect the limits of some bounds become values of which the bounds hold, for a small enough infinitesimal. -/
theorem exists_holds (h : ∀ i ∈ is, ∀ l, s.literals[i]? = some l → l.Respected w) :
    ∃ d, s.Holds is fun x => (w x).substitute d := by
  have hsmall : DeltaRat.ForSmall fun d => s.Holds is fun x => (w x).substitute d := by
    refine DeltaRat.forSmall_forall_mem fun i hi => ?_
    cases hl : s.literals[i]? with
    | none => exact DeltaRat.forSmall_of_forall fun d _ l hl => by cases hl
    | some l =>
      refine (h i hi l hl).forSmall_holds.mono fun d _ hholds l' hl' => ?_
      rwa [← Option.some.inj hl']
  obtain ⟨e, he, hholds⟩ := hsmall
  exact ⟨e, hholds e he le_rfl⟩

/-- Values that respect the bounds of a solver and satisfy the definitions yield a solution over the rationals. -/
theorem Fits.exists_solves (h : s.Fits b is) (hw : ∀ x, b.Admits x (w x)) (hds : SatisfiesDelta w ds) :
    ∃ v, s.Solves ds is v := by
  have hrespected : ∀ i ∈ is, ∀ l, s.literals[i]? = some l → l.Respected w := fun i hi l hl => h.respected hw hi hl
  obtain ⟨d, hd⟩ := exists_holds hrespected
  exact ⟨_, hds.substitute d, hd⟩

/-- A sound conflict is one of bounds in force, and over the rationals these bounds contradict the definitions. -/
theorem Fits.contradiction {conflict : Conflict Nat} {own : List Nat} {asserted : (Var → DeltaRat) → Prop}
    (h : s.Fits b is) (hc : conflict.Sound ds b own asserted)
    (hown : ∀ v, s.Holds conflict.tokens v → asserted fun x => .ofRat (v x)) :
    (∀ t ∈ conflict.tokens, t ∈ own ∨ t ∈ is) ∧ ¬∃ v, s.Solves ds conflict.tokens v := by
  refine ⟨fun t ht => (hc.inForce t ht).imp_right ?_, ?_⟩
  · rintro ⟨side, x, bound, hbound, rfl⟩
    exact (h.stems side x bound hbound).1
  · rintro ⟨v, hds, hv⟩
    refine hc.refuted ⟨fun x => .ofRat (v x), hds.ofRat, hown v hv, fun side x bound hbound hin => ?_⟩
    obtain ⟨-, l, hl, rfl, hside, hlimit⟩ := h.stems side x bound hbound
    rw [← hlimit]
    exact Literal.holds_iff.mp (hv _ hin l hl) side hside

end Script

end LinReal
