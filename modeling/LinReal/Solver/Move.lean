import LinReal.Solver.State

/-!
Moving variables. A nonbasic variable moves freely and takes along every basic variable whose row mentions it; a
basic variable moves by moving one nonbasic variable of its row, with which it changes places. Either way each row
keeps the value of its owner, and basic variables that leave their bounds are queued.
-/

namespace LinReal.Solver

variable {τ : Type}

/-- Follows a move of `x` by `step` in the row of `b`: the value of `b` changes by `step` times the coefficient. -/
def follow (x : Var) (step : DeltaRat) (s : Solver τ) (b : Var) : Except Fault (Solver τ) := do
  match (← s.tableau.row b).coeff? x with
  | none => return s
  | some a =>
    let slot ← s.store.slot b
    (← s.assign b (slot.value + step.scale a)).inspect b

def update (s : Solver τ) (x : Var) (v : DeltaRat) : Except Fault (Solver τ) :=
  if s.isBasic x then .error (.moveOfBasic x)
  else do
    let slot ← s.store.slot x
    let s ← (s.tableau.column x).foldlM (follow x (v - slot.value)) s
    return (← s.assign x v).note .update

/-! ### Conflicts of a row -/

/-- Whether the row entry `a·y` can help the owner of its row back over the bound that it violates on `side`. -/
def isEligible (s : Solver τ) (side : Side) (y : Var) (a : Rat) : Bool :=
  (s.store.slots.get? y).any (·.hasRoom (side.remedy a))

/-- A nonbasic variable whose move can bring `x` back over the bound that it violates on `side`. -/
def partner? (s : Solver τ) (x : Var) (side : Side) : Except Fault (Option Var) := do
  let eligible : LinearForm := (← s.tableau.row x).filter fun (y, a) => s.isEligible side y a
  return s.queue.stage.choosePartner eligible.vars s.tableau.rowCount

/-- The token of the bound that keeps the row entry `a·y` from helping. -/
def blocking (s : Solver τ) (side : Side) (y : Var) (a : Rat) : Except Fault τ := do
  match (← s.store.slot y).bound? (side.remedy a) with
  | some b => return b.token
  | none => .error (.unblocked y)

/-- The conflict of a row that cannot be repaired: the violated bound, and for each entry the bound that blocks it. -/
def explain [DecidableEq τ] (s : Solver τ) (x : Var) (v : Violation τ) : Except Fault (Conflict τ) := do
  let blocked ← (← s.tableau.row x).mapM fun (y, a) => s.blocking v.side y a
  return .ofTokens (v.bound.token :: blocked)

/-- The conflict which shows that the basic `x` cannot be repaired, if that is so. -/
def conflictOf [DecidableEq τ] (s : Solver τ) (x : Var) : Except Fault (Option (Conflict τ)) :=
  if s.isBasic x then do
    match (← s.store.slot x).violation? with
    | none => return none
    | some v =>
      match ← s.partner? x v.side with
      | some _ => return none
      | none => return some (← s.explain x v)
  else .error (.notBasic x)

/-! ### Pivots -/

/-- Records a pivot, and whether it came after a conflict had been seen. -/
def notePivot (s : Solver τ) : Solver τ :=
  let s := s.note .pivot
  if s.foundConflict then
    let first := s.pivotsSinceConflict = 0
    let s := { s with pivotsSinceConflict := s.pivotsSinceConflict + 1 }
    (if first then s.note .wastefulCheck else s).note .pivotAfterConflict
  else s

/-- Remembers whether the basic `x` violates a bound and cannot be repaired. -/
def watch (s : Solver τ) (x : Var) : Except Fault (Solver τ) :=
  if s.foundConflict then .ok s
  else do
    match (← s.store.slot x).violation? with
    | none => return s
    | some v => return { s with foundConflict := (← s.partner? x v.side).isNone }

/-- Moves the basic `l` to the value `v` by moving the nonbasic `e`, whose coefficient in the row of `l` is `a`,
and exchanges the two. -/
def exchange (s : Solver τ) (l e : Var) (a : Rat) (v : DeltaRat) : Except Fault (Solver τ) := do
  match (v - (← s.store.slot l).value).div? a with
  | none => .error .divisionByZero
  | some step =>
    let s ← s.assign l v
    let s ← s.assign e ((← s.store.slot e).value + step)
    let s ← ((s.tableau.column e).filter (· ≠ l)).foldlM (follow e step) s
    let s := s.notePivot
    let s ← { s with tableau := ← s.tableau.pivot l e }.inspect e
    s.watch e

/-- Moves the basic `l` to the value `v` by moving the nonbasic `e`, which must occur in the row of `l`, and
exchanges the two. -/
def pivot (s : Solver τ) (l e : Var) (v : DeltaRat) : Except Fault (Solver τ) :=
  if !s.isBasic l then .error (.leavingNotBasic l)
  else if s.isBasic e then .error (.enteringBasic e)
  else do
    match (← s.tableau.row l).coeff? e with
    | none => .error (.notInRow e l)
    | some a => s.exchange l e a v

/-- Gives `x` a row: `x` must own no row, occur in none, and not occur in its definition `d`. -/
def addRow (s : Solver τ) (x : Var) (d : LinearForm) : Except Fault (Solver τ) := do
  let s := d.vars.foldl register (s.register x)
  let s := { s with tableau := ← s.tableau.addRow x d }
  let value ← s.rowValue (·.value) x
  let safe ← s.rowValue (·.safe) x
  { s with store := ← s.store.assignBoth x value safe }.inspect x

end LinReal.Solver
