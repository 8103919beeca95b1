import LinReal.Numeral

/-!
Numbers `c + k·δ`, where `δ` is positive and smaller than every positive rational. A strict bound `x > c` is
the bound `x ≥ c + δ` on such numbers, so the solver knows closed bounds only. The order is lexicographic, which
is the order of the rationals that every small enough rational `δ` gives.
-/

namespace LinReal

/-- The number `std + inf·δ`: a standard part and the coefficient of the infinitesimal. -/
@[ext]
structure DeltaRat where
  std : Rat
  inf : Rat
deriving DecidableEq, Repr, Inhabited

namespace DeltaRat

def ofRat (c : Rat) : DeltaRat := ⟨c, 0⟩

/-- The least number above `c` that a strict lower bound `c` admits. -/
def strictlyAbove (c : Rat) : DeltaRat := ⟨c, 1⟩

/-- The greatest number below `c` that a strict upper bound `c` admits. -/
def strictlyBelow (c : Rat) : DeltaRat := ⟨c, -1⟩

instance : Zero DeltaRat := ⟨⟨0, 0⟩⟩
instance : Add DeltaRat := ⟨fun a b => ⟨a.std + b.std, a.inf + b.inf⟩⟩
instance : Sub DeltaRat := ⟨fun a b => ⟨a.std - b.std, a.inf - b.inf⟩⟩
instance : Neg DeltaRat := ⟨fun a => ⟨-a.std, -a.inf⟩⟩

def scale (a : DeltaRat) (r : Rat) : DeltaRat := ⟨a.std * r, a.inf * r⟩

/-- The quotient by a rational, which must not be zero. -/
def div? (a : DeltaRat) (r : Rat) : Option DeltaRat := if r = 0 then none else some (a.scale r⁻¹)

/-- The rational that the number becomes when `δ` takes the value `d`. -/
def substitute (a : DeltaRat) (d : Rat) : Rat := a.std + a.inf * d

/-! ### Order -/

instance : LT DeltaRat := ⟨fun a b => a.std < b.std ∨ (a.std = b.std ∧ a.inf < b.inf)⟩
instance : LE DeltaRat := ⟨fun a b => a.std < b.std ∨ (a.std = b.std ∧ a.inf ≤ b.inf)⟩

theorem lt_def {a b : DeltaRat} : a < b ↔ a.std < b.std ∨ (a.std = b.std ∧ a.inf < b.inf) := Iff.rfl

theorem le_def {a b : DeltaRat} : a ≤ b ↔ a.std < b.std ∨ (a.std = b.std ∧ a.inf ≤ b.inf) := Iff.rfl

instance : DecidableLT DeltaRat := fun a b =>
  inferInstanceAs (Decidable (a.std < b.std ∨ (a.std = b.std ∧ a.inf < b.inf)))

instance : DecidableLE DeltaRat := fun a b =>
  inferInstanceAs (Decidable (a.std < b.std ∨ (a.std = b.std ∧ a.inf ≤ b.inf)))

instance : Ord DeltaRat := ⟨fun a b => if a < b then .lt else if a = b then .eq else .gt⟩

def sign (a : DeltaRat) : Ordering := compare a 0

/-! ### Text -/

/-- The standard part, then the infinitesimal part with its sign, unless it is zero. -/
def text (a : DeltaRat) : String :=
  if a.inf = 0 then Numeral.write a.std
  else if a.inf < 0 then Numeral.write a.std ++ "-" ++ Numeral.write (-a.inf) ++ "δ"
  else Numeral.write a.std ++ "+" ++ Numeral.write a.inf ++ "δ"

end DeltaRat

end LinReal
