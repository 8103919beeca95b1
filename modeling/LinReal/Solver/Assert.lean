import LinReal.Solver.Move

/-!
Assertions. An assertion narrows the interval of one variable. One that adds nothing is passed over; one that
leaves nothing of the interval is a conflict with the opposite bound and changes no bound; any other sets its bounds,
and moves the variable onto them if it is nonbasic and lies outside.
-/

namespace LinReal.Solver

variable {τ : Type} [DecidableEq τ]

/-- The conflict of an asserted value `c` with the bound on a side, if `c` lies outside that bound. -/
def clash (slot : Slot τ) (side : Side) (c : DeltaRat) (token : τ) : Option (Conflict τ) :=
  ((slot.bound? side).filter fun b => side.outside c b.value).map fun b => .ofTokens [b.token, token]

/-- After a bound of `x` was set: a basic `x` is inspected, a nonbasic one moves to `c` if `move` says so. -/
def settleBound (s : Solver τ) (x : Var) (c : DeltaRat) (move : DeltaRat → Bool) : Except Fault (Solver τ) := do
  if s.isBasic x then s.inspect x
  else if move (← s.store.slot x).value then s.update x c
  else return s

/-- Asserts that `x` has at least the value `c`, or at most, according to the side. -/
def assertBound (s : Solver τ) (side : Side) (x : Var) (c : DeltaRat) (token : τ) :
    Except Fault (Option (Conflict τ) × Solver τ) := do
  let s := s.register x
  let slot ← s.store.slot x
  if slot.reached side c then return (none, s)
  match clash slot side.opposite c token with
  | some conflict =>
    let event := match side with
      | .lower => Event.lowerConflict
      | .upper => Event.upperConflict
    return (some conflict, (s.note event).report conflict)
  | none =>
    let s := { s with store := ← s.store.setBound side x ⟨c, token⟩ }
    return (none, ← s.settleBound x c (side.outside · c))

/-- Asserts that `x` has the value `c`. -/
def assertEqual (s : Solver τ) (x : Var) (c : DeltaRat) (token : τ) :
    Except Fault (Option (Conflict τ) × Solver τ) := do
  let s := s.register x
  let slot ← s.store.slot x
  if slot.reached .lower c && slot.reached .upper c then return (none, s)
  match (clash slot .upper c token).or (clash slot .lower c token) with
  | some conflict => return (some conflict, (s.note .equalityConflict).report conflict)
  | none =>
    let store ← s.store.setBound .lower x ⟨c, token⟩
    let s := { s with store := ← store.setBound .upper x ⟨c, token⟩ }
    return (none, ← s.settleBound x c (· ≠ c))

end LinReal.Solver
