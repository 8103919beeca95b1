import LinReal.Settings
import LinReal.Conflict
import LinReal.Queue
import LinReal.Store
import LinReal.Tableau
import LinReal.Tally

/-!
The state of a solver and its queries. Between calls a solver keeps three things: every basic variable has the value
of its row, every nonbasic variable lies within its bounds, and every basic variable outside its bounds is queued.
-/

namespace LinReal

/-- A solver whose bounds carry tokens of type `τ`. -/
structure Solver (τ : Type) where
  settings : Settings
  store : Store τ
  tableau : Tableau
  queue : RepairQueue
  /-- The variables that have been announced. -/
  registered : VarSet
  /-- Whether the latest pivot of this repair showed a conflict. -/
  foundConflict : Bool
  /-- The pivots of this repair since then. -/
  pivotsSinceConflict : Nat
  /-- The rounds of this repair, interruptions included. -/
  rounds : Nat
  /-- What the solver has done, the latest event first. -/
  log : List Event
  /-- The conflicts that it has reported, the latest first. -/
  reported : List (Conflict τ)
deriving DecidableEq, Repr

namespace Solver

variable {τ : Type}

def new (settings : Settings) : Solver τ where
  settings := settings
  store := .empty
  tableau := .empty
  queue := .empty
  registered := .empty
  foundConflict := false
  pivotsSinceConflict := 0
  rounds := 0
  log := []
  reported := []

/-! ### Queries -/

def variableCount (s : Solver τ) : Nat := s.registered.card

def isRegistered (s : Solver τ) (x : Var) : Bool := s.registered.contains x

def isBasic (s : Solver τ) (x : Var) : Bool := s.tableau.isBasic x

def tally (s : Solver τ) : Tally := .ofEvents s.log

/-- Whether every registered variable lies within its bounds. -/
def isConsistent (s : Solver τ) : Bool :=
  (List.range s.store.size).all fun x => !s.isRegistered x || (s.store.slots.get? x).all (·.isConsistent)

/-- The bound that the basic variable `x` violates. -/
def violation? (s : Solver τ) (x : Var) : Option (Violation τ) :=
  if s.isBasic x then (s.store.slots.get? x).bind (·.violation?) else none

/-- The value of the row of `x`, for the values that `part` takes from the slots. -/
def rowValue (s : Solver τ) (part : Slot τ → DeltaRat) (x : Var) : Except Fault DeltaRat := do
  let row ← s.tableau.row x
  row.foldlM (fun sum (y, a) => return sum + (part (← s.store.slot y)).scale a) 0

/-! ### Steps shared by the operations -/

def note (s : Solver τ) (e : Event) : Solver τ := { s with log := e :: s.log }

def report (s : Solver τ) (c : Conflict τ) : Solver τ := { s with reported := c :: s.reported }

/-- Announces `x`, with value zero and no bounds, unless it is registered. -/
def register (s : Solver τ) (x : Var) : Solver τ :=
  if s.isRegistered x then s
  else
    { s with
      registered := s.registered.insert x
      tableau := s.tableau.grow x
      store := s.store.install x 0 }

def assign (s : Solver τ) (x : Var) (v : DeltaRat) : Except Fault (Solver τ) := do
  return { s with store := ← s.store.assign x v }

/-- Queues the basic variable `x` if it violates a bound. -/
def inspect (s : Solver τ) (x : Var) : Except Fault (Solver τ) :=
  if s.isBasic x then do
    let slot ← s.store.slot x
    match slot.violation? with
    | none => return s
    | some v => return { s with queue := s.queue.push x (v.side.excess slot.value v.bound.value) }
  else .error (.notBasic x)

def inspectAll (s : Solver τ) (xs : List Var) : Except Fault (Solver τ) := xs.foldlM inspect s

def inspectBasics (s : Solver τ) : Except Fault (Solver τ) := s.inspectAll s.tableau.basis.members

end Solver

end LinReal
