import LinReal.Proofs.Form
import LinReal.Proofs.Store.Levels
import Mathlib.Data.Finset.Max
import Mathlib.Data.Fintype.BigOperators
import Mathlib.Data.Fintype.Pigeonhole
import Mathlib.Order.Interval.Finset.Nat

/-! The anti-cycle rule, apart from any solver. A situation is a basis and values. A turn takes the smallest basic variable
    outside its bounds and the smallest eligible partner, moves the variable onto the violated bound, and exchanges
    the two.

    No situation comes again. Suppose one did, and let `r` be the greatest variable that enters or leaves the basis in
    between. There is a turn `p` that `r` leaves by and a turn `q` that it enters by, such that its value at `q` is the
    bound that it violates at `p`. In the row that is repaired at `q`, no variable can go further towards the remedy
    than it has gone at `p`: not `r`, which is outside that bound at `p`; not a smaller variable that moves, which is not
    eligible at `q` and within its bounds at `p`; and not one that does not move. So the row owner, which is smaller than
    `r`, is outside its bounds at `p` already, and `r` was not the smallest such variable. -/

namespace LinReal

/-- A basis and values. -/
structure Situation where
  basic : Var → Bool
  value : Var → DeltaRat

namespace Situation

variable {τ : Type}

/-- The values solve the rows, and those of nonbasic variables respect the bounds. -/
structure Valid (bounds : Bounds τ) (solves : (Var → DeltaRat) → Prop) (p : Situation) : Prop where
  solves : solves p.value
  settled : ∀ z, p.basic z = false → bounds.Admits z (p.value z)

/-- A turn from `p` to `q` by which `x` leaves the basis and `y` enters it. -/
structure Turn (bounds : Bounds τ) (solves : (Var → DeltaRat) → Prop) (p q : Situation) (x y : Var) : Prop where
  leaving : p.basic x = true
  entering : p.basic y = false
  basis : ∀ z, q.basic z = true ↔ z = y ∨ (z ≠ x ∧ p.basic z = true)
  stays : ∀ z, p.basic z = false → z ≠ y → q.value z = p.value z
  least : ∀ z < x, p.basic z = true → bounds.Admits z (p.value z)
  repaired : ∃ (side : Side) (l : Bound τ) (f : LinearForm) (a : Rat),
    bounds side x = some l ∧ side.outside (p.value x) l.value = true ∧ q.value x = l.value ∧
    (∀ w, solves w → w x = f.evalDelta w) ∧ f.IsNormal ∧ (∀ z ∈ f.vars, p.basic z = false) ∧ (y, a) ∈ f ∧
    (∀ l, bounds (side.remedy a) y = some l → (side.remedy a).reached (p.value y) l.value = false) ∧
    ∀ e ∈ f, e.1 < y → ∃ l, bounds (side.remedy e.2) e.1 = some l ∧
      (side.remedy e.2).reached (p.value e.1) l.value = true

/-- `N` turns one after the other; `leaves k` leaves the basis by turn `k`, and `enters k` enters it. -/
structure Run (bounds : Bounds τ) (solves : (Var → DeltaRat) → Prop) (N : Nat) where
  state : Nat → Situation
  leaves : Nat → Var
  enters : Nat → Var
  turn : ∀ k < N, Turn bounds solves (state k) (state (k + 1)) (leaves k) (enters k)
  valid : ∀ k ≤ N, Valid bounds solves (state k)

namespace Run

variable {bounds : Bounds τ} {solves : (Var → DeltaRat) → Prop} {N : Nat} (R : Run bounds solves N) {m n k i j p q : Nat}
  {z : Var}

theorem nonbasic_of_not_enters (hmn : m ≤ n) (hn : n ≤ N) (hz : (R.state m).basic z = false)
    (h : ∀ k, m ≤ k → k < n → R.enters k ≠ z) : (R.state n).basic z = false ∧ (R.state n).value z = (R.state m).value z := by
  induction n, hmn using Nat.le_induction with
  | base => exact ⟨hz, rfl⟩
  | succ n hmn ih =>
    obtain ⟨hb, hv⟩ := ih (Nat.le_of_succ_le hn) fun k hmk hkn => h k hmk (Nat.lt_succ_of_lt hkn)
    have ht := R.turn n hn
    have hne := (h n hmn (Nat.lt_succ_self n)).symm
    refine ⟨?_, (ht.stays z hb hne).trans hv⟩
    rw [← Bool.not_eq_true, ht.basis, hb]
    simp [hne]

theorem basic_of_not_leaves (hmn : m ≤ n) (hn : n ≤ N) (hz : (R.state m).basic z = true)
    (h : ∀ k, m ≤ k → k < n → R.leaves k ≠ z) : (R.state n).basic z = true := by
  induction n, hmn using Nat.le_induction with
  | base => exact hz
  | succ n hmn ih =>
    have hb := ih (Nat.le_of_succ_le hn) fun k hmk hkn => h k hmk (Nat.lt_succ_of_lt hkn)
    exact ((R.turn n hn).basis z).mpr (Or.inr ⟨(h n hmn (Nat.lt_succ_self n)).symm, hb⟩)

theorem nonbasic_of_leaves (hk : k < N) (h : R.leaves k = z) : (R.state (k + 1)).basic z = false := by
  have ht := R.turn k hk
  rw [← Bool.not_eq_true, ht.basis, ← h]
  rintro (he | ⟨hne, -⟩)
  · exact Bool.noConfusion (ht.leaving.symm.trans (he ▸ ht.entering))
  · exact hne rfl

theorem basic_of_enters (hk : k < N) (h : R.enters k = z) : (R.state (k + 1)).basic z = true :=
  ((R.turn k hk).basis z).mpr (Or.inl h.symm)

/-! ### A variable that comes and goes -/

/-- A variable that stops being basic leaves for the last time at some turn. -/
theorem exists_last_leaves (hmn : m ≤ n) (hn : n ≤ N) (hm : (R.state m).basic z = true) (hz : (R.state n).basic z = false) :
    ∃ p, m ≤ p ∧ p < n ∧ R.leaves p = z ∧ ∀ k, p < k → k < n → R.leaves k ≠ z := by
  induction n, hmn using Nat.le_induction with
  | base => exact absurd (hm.symm.trans hz) Bool.noConfusion
  | succ n hmn ih =>
    by_cases hl : R.leaves n = z
    · exact ⟨n, hmn, Nat.lt_succ_self n, hl, fun k hnk hk => absurd (Nat.lt_of_lt_of_le hnk (Nat.le_of_lt_succ hk))
        (Nat.lt_irrefl n)⟩
    · have hb : (R.state n).basic z = false := by
        rw [← Bool.not_eq_true]
        intro hb
        have hb' := ((R.turn n hn).basis z).mpr (Or.inr ⟨Ne.symm hl, hb⟩)
        exact Bool.noConfusion (hb'.symm.trans hz)
      obtain ⟨p, hmp, hpn, hp, hlast⟩ := ih (Nat.le_of_succ_le hn) hb
      refine ⟨p, hmp, Nat.lt_succ_of_lt hpn, hp, fun k hpk hk => ?_⟩
      rcases Nat.lt_succ_iff_lt_or_eq.mp hk with hk | rfl
      · exact hlast k hpk hk
      · exact hl

/-- A variable that becomes basic enters for the first time at some turn. -/
theorem exists_first_enters (hmn : m ≤ n) (hn : n ≤ N) (hm : (R.state m).basic z = false) (hz : (R.state n).basic z = true) :
    ∃ q, m ≤ q ∧ q < n ∧ R.enters q = z ∧ ∀ k, m ≤ k → k < q → R.enters k ≠ z := by
  have hex : ∃ q, m ≤ q ∧ q < n ∧ R.enters q = z := by
    by_contra hno
    have hstay := R.nonbasic_of_not_enters hmn hn hm fun k hmk hkn hk => hno ⟨k, hmk, hkn, hk⟩
    exact Bool.noConfusion (hz.symm.trans hstay.1)
  classical
  obtain ⟨hmq, hqn, hq⟩ := Nat.find_spec hex
  exact ⟨Nat.find hex, hmq, hqn, hq, fun k hmk hkq hk => Nat.find_min hex hkq ⟨hmk, Nat.lt_trans hkq hqn, hk⟩⟩

/-- `z` enters or leaves between `i` and `j`. -/
def Moves (i j : Nat) (z : Var) : Prop := ∃ k, i ≤ k ∧ k < j ∧ (R.leaves k = z ∨ R.enters k = z)

/-- A variable that moves, and is in the end where it was, enters with the value of the bound onto which it was moved when
    it left. -/
theorem exists_leaves_enters (hj : j ≤ N) (hz : R.Moves i j z) (hbasic : (R.state i).basic z = (R.state j).basic z)
    (hvalue : (R.state i).basic z = false → (R.state i).value z = (R.state j).value z) :
    ∃ p q, i ≤ p ∧ p < j ∧ i ≤ q ∧ q < j ∧ R.leaves p = z ∧ R.enters q = z ∧
      (R.state q).value z = (R.state (p + 1)).value z := by
  obtain ⟨k, hik, hkj, hk⟩ := hz
  have hkN : k < N := Nat.lt_of_lt_of_le hkj hj
  cases hi : (R.state i).basic z with
  | true =>
    -- It is basic in the beginning, so it leaves first and enters again.
    have hjb := hbasic.symm.trans hi
    obtain ⟨p, hip, hpj, hp⟩ : ∃ p, i ≤ p ∧ p < j ∧ R.leaves p = z := by
      rcases hk with hk | hk
      · exact ⟨k, hik, hkj, hk⟩
      · have hkb := (R.turn k hkN).entering
        rw [hk] at hkb
        obtain ⟨p, hip, hpk, hp, -⟩ := R.exists_last_leaves hik hkN.le hi hkb
        exact ⟨p, hip, Nat.lt_trans hpk hkj, hp⟩
    have hpN : p < N := Nat.lt_of_lt_of_le hpj hj
    obtain ⟨q, hpq, hqj, hq, hfirst⟩ := R.exists_first_enters hpj hj (R.nonbasic_of_leaves hpN hp) hjb
    have hstay := R.nonbasic_of_not_enters hpq (Nat.le_of_lt (Nat.lt_of_lt_of_le hqj hj)) (R.nonbasic_of_leaves hpN hp) hfirst
    exact ⟨p, q, hip, hpj, Nat.le_trans hip (Nat.le_of_succ_le hpq), hqj, hp, hq, hstay.2⟩
  | false =>
    -- It is nonbasic in the beginning, so it enters first, and goes back to its value when it leaves.
    have hjb := hbasic.symm.trans hi
    obtain ⟨m, him, hmj, hm⟩ : ∃ m, i ≤ m ∧ m ≤ j ∧ (R.state m).basic z = true := by
      rcases hk with hk | hk
      · exact ⟨k, hik, hkj.le, hk ▸ (R.turn k hkN).leaving⟩
      · exact ⟨k + 1, Nat.le_succ_of_le hik, hkj, R.basic_of_enters hkN hk⟩
    obtain ⟨q, hiq, hqm, hq, hfirst⟩ := R.exists_first_enters him (hmj.trans hj) hi hm
    have hqj : q < j := Nat.lt_of_lt_of_le hqm hmj
    have hqN : q < N := Nat.lt_of_lt_of_le hqj hj
    obtain ⟨p, hqp, hpj, hp, hlast⟩ := R.exists_last_leaves hqj hj (R.basic_of_enters hqN hq) hjb
    have hpN : p < N := Nat.lt_of_lt_of_le hpj hj
    have hbefore := R.nonbasic_of_not_enters hiq hqN.le hi hfirst
    -- If it entered again, it would leave again, and `p` would not be the last turn that it leaves by.
    have hafter := R.nonbasic_of_not_enters hpj hj (R.nonbasic_of_leaves hpN hp) fun k hpk hkj hk => by
      obtain ⟨p', hkp', hp'j, hp', -⟩ := R.exists_last_leaves hkj hj (R.basic_of_enters (Nat.lt_of_lt_of_le hkj hj) hk) hjb
      exact hlast p' (Nat.lt_of_lt_of_le hpk (Nat.le_of_succ_le hkp')) hp'j hp'
    refine ⟨p, q, Nat.le_trans hiq (Nat.le_of_succ_le hqp), hpj, hiq, hqj, hp, hq, ?_⟩
    rw [hbefore.2, hvalue hi, hafter.2]

/-- A variable that does not move has the same value whenever it is nonbasic. -/
theorem value_eq_of_not_moves (hj : j ≤ N) (hz : ¬R.Moves i j z) (hip : i ≤ p) (hpj : p ≤ j) (hiq : i ≤ q) (hqj : q ≤ j)
    (hq : (R.state q).basic z = false) : (R.state q).value z = (R.state p).value z := by
  have hstays : ∀ {n}, n ≤ j → ∀ k, i ≤ k → k < n → R.enters k ≠ z := fun hn k hik hkn hk =>
    hz ⟨k, hik, Nat.lt_of_lt_of_le hkn hn, Or.inr hk⟩
  have hi : (R.state i).basic z = false := by
    rw [← Bool.not_eq_true]
    intro hi
    have hb := R.basic_of_not_leaves hiq (hqj.trans hj) hi fun k hik hkq hk => hz ⟨k, hik, Nat.lt_of_lt_of_le hkq hqj, Or.inl hk⟩
    exact Bool.noConfusion (hb.symm.trans hq)
  have hvq := (R.nonbasic_of_not_enters hiq (hqj.trans hj) hi (hstays hqj)).2
  have hvp := (R.nonbasic_of_not_enters hip (hpj.trans hj) hi (hstays hpj)).2
  exact hvq.trans hvp.symm

/-! ### No situation comes again -/

theorem exists_greatest_moves (hij : i < j) : ∃ r, R.Moves i j r ∧ ∀ z, R.Moves i j z → z ≤ r := by
  classical
  have hne : ((Finset.Ico i j).image R.leaves ∪ (Finset.Ico i j).image R.enters).Nonempty :=
    ⟨R.leaves i, Finset.mem_union_left _ (Finset.mem_image_of_mem _ (Finset.mem_Ico.mpr ⟨le_refl i, hij⟩))⟩
  have hmem : ∀ z, z ∈ (Finset.Ico i j).image R.leaves ∪ (Finset.Ico i j).image R.enters ↔ R.Moves i j z := by
    intro z
    simp only [Finset.mem_union, Finset.mem_image, Finset.mem_Ico, Moves]
    constructor
    · rintro (⟨k, ⟨hik, hkj⟩, hk⟩ | ⟨k, ⟨hik, hkj⟩, hk⟩)
      · exact ⟨k, hik, hkj, Or.inl hk⟩
      · exact ⟨k, hik, hkj, Or.inr hk⟩
    · rintro ⟨k, hik, hkj, hk | hk⟩
      · exact Or.inl ⟨k, ⟨hik, hkj⟩, hk⟩
      · exact Or.inr ⟨k, ⟨hik, hkj⟩, hk⟩
  exact ⟨_, (hmem _).mp (Finset.max'_mem _ hne), fun z hz => Finset.le_max' _ _ ((hmem z).mpr hz)⟩

/-- A smaller variable that moves is within its bounds when the greatest one leaves. -/
theorem admits_of_lt (hp : p < N) (hz : z < R.leaves p) : bounds.Admits z ((R.state p).value z) := by
  cases hb : (R.state p).basic z with
  | true => exact (R.turn p hp).least z hz hb
  | false => exact (R.valid p hp.le).settled z hb

/-- No situation comes again: some variable that moves is in another place afterwards. -/
theorem no_repeat (hij : i < j) (hj : j ≤ N)
    (hsame : ∀ z, R.Moves i j z → (R.state i).basic z = (R.state j).basic z ∧
      ((R.state i).basic z = false → (R.state i).value z = (R.state j).value z)) : False := by
  obtain ⟨r, hr, hgreatest⟩ := R.exists_greatest_moves hij
  obtain ⟨p, q, hip, hpj, hiq, hqj, hp, hq, hvalue⟩ :=
    R.exists_leaves_enters hj hr (hsame r hr).1 (hsame r hr).2
  have hpN : p < N := Nat.lt_of_lt_of_le hpj hj
  have hqN : q < N := Nat.lt_of_lt_of_le hqj hj
  have hturn := R.turn q hqN
  obtain ⟨sidep, lp, -, -, hlp, houtp, honto, -⟩ := (R.turn p hpN).repaired
  obtain ⟨side, l, f, a, hl, hout, -, hrow, hnormal, hnonbasic, hentry, heligible, hblocked⟩ := hturn.repaired
  rw [hp] at hlp houtp honto
  rw [hq] at hentry heligible hblocked
  -- No entry of the row that is repaired at `q` has gone further towards its remedy at `p` than at `q`.
  have hterm : ∀ e ∈ f, (side.remedy e.2).reached ((R.state q).value e.1) ((R.state p).value e.1) = true := by
    intro e he
    have hb := hnonbasic e.1 (LinearForm.mem_vars_of_mem he)
    by_cases hmoves : R.Moves i j e.1
    · rcases Nat.lt_or_eq_of_le (hgreatest e.1 hmoves) with hlt | heq
      · -- A smaller one is not eligible at `q`, and within its bounds at `p`.
        obtain ⟨l', hl', hreached⟩ := hblocked e he hlt
        have hin := Side.outside_eq_false_iff.mp (R.admits_of_lt hpN (hp.symm ▸ hlt) _ l' hl')
        rw [Side.reached_opposite] at hin
        exact Side.reached_trans hreached hin
      · -- This is `r`. It is eligible at `q`, so the bound that it violates at `p` is the one on the other side.
        have ha : e.2 = a := by
          have he' := hnormal.coeff?_of_mem (x := e.1) (a := e.2) he
          rw [heq, hnormal.coeff?_of_mem hentry] at he'
          exact (Option.some.inj he').symm
        rw [ha, heq]
        have hside : side.remedy a = sidep.opposite := by
          by_contra hne
          have hsp : side.remedy a = sidep := by
            cases hs : side.remedy a <;> cases hp : sidep <;> simp_all [Side.opposite]
          have hno := heligible lp (hsp ▸ hlp)
          rw [hvalue, honto, Side.reached_self] at hno
          cases hno
        rw [hside, Side.reached_opposite, hvalue, honto]
        exact Side.reached_of_outside houtp
    · rw [R.value_eq_of_not_moves hj hmoves hip hpj.le hiq hqj.le hb]
      exact Side.reached_self _ _
  -- So neither has the owner of the row, which is smaller than `r`, and `p` should have taken it.
  have hsum := LinearForm.reached_evalDelta hterm
  rw [Side.reached_opposite, ← hrow _ (R.valid q hqN.le).solves, ← hrow _ (R.valid p hpN.le).solves] at hsum
  have hle := hgreatest _ ⟨q, hiq, hqj, Or.inl rfl⟩
  have hne : R.leaves q ≠ r := by
    intro he
    have hb := hturn.leaving
    rw [he, ← hq, hturn.entering] at hb
    cases hb
  have hin := R.admits_of_lt hpN (hp.symm ▸ Nat.lt_of_le_of_ne hle hne) side l hl
  rw [Side.outside_of_reached hsum hout] at hin
  cases hin

/-! ### Counting situations -/

/-- A nonbasic variable has its first value or that of one of its bounds. -/
theorem value_cases (hk : k ≤ N) (hz : (R.state k).basic z = false) :
    (R.state k).value z = (R.state 0).value z ∨ ∃ side l, bounds side z = some l ∧ (R.state k).value z = l.value := by
  induction k with
  | zero => exact Or.inl rfl
  | succ k ih =>
    have ht := R.turn k hk
    by_cases hl : z = R.leaves k
    · obtain ⟨side, l, -, -, hb, -, honto, -⟩ := ht.repaired
      exact Or.inr ⟨side, l, hl ▸ hb, hl ▸ honto⟩
    · have hn := (ht.basis z).not.mp (by rw [hz]; exact Bool.false_ne_true)
      rw [not_or, not_and, Bool.not_eq_true] at hn
      rw [ht.stays z (hn.2 hl) hn.1]
      exact ih (Nat.le_of_succ_le hk) (hn.2 hl)

/-- Which of four places a variable has: the basis, its first value, its lower bound, or its upper bound. -/
def place (k : Nat) (z : Var) : Fin 4 :=
  if (R.state k).basic z = true then 0
  else if (R.state k).value z = (R.state 0).value z then 1
  else if (bounds .lower z).any (fun l => (R.state k).value z = l.value) = true then 2
  else 3

/-- What each of the four places says. -/
def Placed (k : Nat) (z : Var) : Fin 4 → Prop
  | 0 => (R.state k).basic z = true
  | 1 => (R.state k).basic z = false ∧ (R.state k).value z = (R.state 0).value z
  | 2 => (R.state k).basic z = false ∧ ∃ l, bounds .lower z = some l ∧ (R.state k).value z = l.value
  | 3 => (R.state k).basic z = false ∧ ∃ l, bounds .upper z = some l ∧ (R.state k).value z = l.value

theorem placed (hk : k ≤ N) (z : Var) : R.Placed k z (R.place k z) := by
  unfold place
  split
  · assumption
  · rename_i hb
    rw [Bool.not_eq_true] at hb
    split
    · rename_i hv
      exact ⟨hb, hv⟩
    · rename_i hv
      have hlower : (bounds .lower z).any (fun l => (R.state k).value z = l.value) = true ↔
          ∃ l, bounds .lower z = some l ∧ (R.state k).value z = l.value := by
        cases bounds .lower z <;> simp
      split
      · rename_i hl
        exact ⟨hb, hlower.mp hl⟩
      · rename_i hl
        rcases R.value_cases hk hb with hv' | ⟨side, l, hbl, hvl⟩
        · exact absurd hv' hv
        · cases side with
          | lower => exact absurd (hlower.mpr ⟨l, hbl, hvl⟩) hl
          | upper => exact ⟨hb, l, hbl, hvl⟩

/-- A variable that has the same place twice is basic twice, or has the same value twice. -/
theorem same_of_placed {c : Fin 4} (hi : R.Placed i z c) (hj : R.Placed j z c) :
    (R.state i).basic z = (R.state j).basic z ∧
      ((R.state i).basic z = false → (R.state i).value z = (R.state j).value z) := by
  match c, hi, hj with
  | 0, hi, hj => exact ⟨hi.trans hj.symm, fun hn => absurd (hn.symm.trans hi) Bool.noConfusion⟩
  | 1, ⟨hi, hvi⟩, ⟨hj, hvj⟩ => exact ⟨hi.trans hj.symm, fun _ => hvi.trans hvj.symm⟩
  | 2, ⟨hi, l, hl, hvi⟩, ⟨hj, l', hl', hvj⟩ =>
    obtain rfl : l = l' := Option.some.inj (hl.symm.trans hl')
    exact ⟨hi.trans hj.symm, fun _ => hvi.trans hvj.symm⟩
  | 3, ⟨hi, l, hl, hvi⟩, ⟨hj, l', hl', hvj⟩ =>
    obtain rfl : l = l' := Option.some.inj (hl.symm.trans hl')
    exact ⟨hi.trans hj.symm, fun _ => hvi.trans hvj.symm⟩

/-- A run over `n` variables has fewer than `4 ^ n` turns. -/
theorem length_lt (vs : Finset Var) (hvs : ∀ k < N, R.leaves k ∈ vs ∧ R.enters k ∈ vs) : N < 4 ^ vs.card := by
  by_contra hN
  have hcard : Fintype.card (vs → Fin 4) < Fintype.card (Fin (N + 1)) := by
    rw [Fintype.card_fun, Fintype.card_fin, Fintype.card_fin, Fintype.card_coe]
    exact Nat.lt_succ_of_le (Nat.le_of_not_lt hN)
  -- There are more states than assignments of places, so two states assign the same places.
  obtain ⟨i, j, hne, heq⟩ :=
    Fintype.exists_ne_map_eq_of_card_lt (fun (k : Fin (N + 1)) (z : vs) => R.place k z) hcard
  have hrepeat : ∀ i j : Fin (N + 1), i < j → (fun z : vs => R.place i z) = (fun z : vs => R.place j z) → False := by
    intro i j hij heq
    refine R.no_repeat hij (Nat.le_of_lt_succ j.isLt) fun z hz => ?_
    obtain ⟨k, -, hkj, hk⟩ := hz
    have hkN := hvs k (Nat.lt_of_lt_of_le hkj (Nat.le_of_lt_succ j.isLt))
    have hin : z ∈ vs := by
      rcases hk with rfl | rfl
      · exact hkN.1
      · exact hkN.2
    have hplace : R.place i z = R.place j z := congrFun heq ⟨z, hin⟩
    exact R.same_of_placed (R.placed (Nat.le_of_lt_succ i.isLt) z) (hplace ▸ R.placed (Nat.le_of_lt_succ j.isLt) z)
  rcases lt_or_gt_of_ne hne with hlt | hlt
  · exact hrepeat i j hlt heq
  · exact hrepeat j i hlt heq.symm

end Run

end Situation

end LinReal
