import LinReal.DeltaRat

/-!
Bounds and the slots that hold them. A variable is bounded on two sides; most rules read the same on both, so
they take the side as an argument. A slot holds the value of a variable, the value to which it goes back on a
revert, and its bounds.
-/

namespace LinReal

/-- The side on which a bound limits a variable. -/
inductive Side where
  | lower
  | upper
deriving DecidableEq, Repr

namespace Side

def opposite : Side → Side
  | lower => upper
  | upper => lower

/-- Whether `v` lies outside the limit `c` on this side. -/
def outside : Side → (v c : DeltaRat) → Bool
  | lower, v, c => v < c
  | upper, v, c => c < v

/-- Whether `v` lies outside the limit `c` on this side or on it. -/
def reached : Side → (v c : DeltaRat) → Bool
  | lower, v, c => v ≤ c
  | upper, v, c => c ≤ v

/-- How far `v` lies outside the limit `c` on this side. -/
def excess : Side → (v c : DeltaRat) → DeltaRat
  | lower, v, c => c - v
  | upper, v, c => v - c

/-- The side towards which a variable with coefficient `a` has to move so that its row comes back from outside on
the given side: up if the row is too low and `a` is positive, or too high and `a` negative. -/
def remedy : Side → (a : Rat) → Side
  | lower, a => if 0 < a then upper else lower
  | upper, a => if a < 0 then upper else lower

end Side

/-- A limit with the token of the assertion that set it. -/
structure Bound (τ : Type) where
  value : DeltaRat
  token : τ
deriving DecidableEq, Repr

/-- What the solver knows of one variable. -/
structure Slot (τ : Type) where
  value : DeltaRat
  /-- The committed value, if the value has been changed since. -/
  saved : Option DeltaRat
  lower : Option (Bound τ)
  upper : Option (Bound τ)
deriving DecidableEq, Repr

/-- A limit that a value violates. -/
structure Violation (τ : Type) where
  side : Side
  bound : Bound τ
deriving DecidableEq, Repr

namespace Slot

variable {τ : Type}

def fresh (v : DeltaRat) : Slot τ := ⟨v, none, none, none⟩

/-- The committed value. -/
def safe (s : Slot τ) : DeltaRat := s.saved.getD s.value

/-- Sets the value; the committed value stays as it is. -/
def assign (s : Slot τ) (v : DeltaRat) : Slot τ := { s with value := v, saved := some s.safe }

def assignBoth (s : Slot τ) (v safe : DeltaRat) : Slot τ :=
  { s with value := v, saved := if v = safe then none else some safe }

def commit (s : Slot τ) : Slot τ := { s with saved := none }

def revert (s : Slot τ) : Slot τ := { s with value := s.safe, saved := none }

@[simp] theorem safe_assign (s : Slot τ) (v : DeltaRat) : (s.assign v).safe = s.safe := rfl

@[simp] theorem safe_assignBoth (s : Slot τ) (v safe : DeltaRat) : (s.assignBoth v safe).safe = safe := by
  by_cases h : v = safe <;> simp [assignBoth, Slot.safe, h]

@[simp] theorem safe_commit (s : Slot τ) : s.commit.safe = s.value := rfl

@[simp] theorem safe_revert (s : Slot τ) : s.revert.safe = s.safe := rfl

def bound? (s : Slot τ) : Side → Option (Bound τ)
  | .lower => s.lower
  | .upper => s.upper

def withBound (s : Slot τ) (side : Side) (b : Option (Bound τ)) : Slot τ :=
  match side with
  | .lower => { s with lower := b }
  | .upper => { s with upper := b }

@[simp] theorem bound?_withBound (s : Slot τ) (side side' : Side) (b : Option (Bound τ)) :
    (s.withBound side b).bound? side' = if side = side' then b else s.bound? side' := by
  cases side <;> cases side' <;> rfl

def outside (s : Slot τ) (side : Side) (v : DeltaRat) : Bool :=
  (s.bound? side).any fun b => side.outside v b.value

def reached (s : Slot τ) (side : Side) (v : DeltaRat) : Bool :=
  (s.bound? side).any fun b => side.reached v b.value

/-- Whether the value can move towards this side without passing the bound there. -/
def hasRoom (s : Slot τ) (side : Side) : Bool := !s.reached side s.value

/-- The bound on this side, if the value lies outside it. -/
def violated? (s : Slot τ) (side : Side) : Option (Violation τ) :=
  ((s.bound? side).filter fun b => side.outside s.value b.value).map fun b => ⟨side, b⟩

/-- The bound outside which the value lies, the lower one first. -/
def violation? (s : Slot τ) : Option (Violation τ) := (s.violated? .lower).or (s.violated? .upper)

def isConsistent (s : Slot τ) : Bool := !s.outside .lower s.value && !s.outside .upper s.value

end Slot

end LinReal
