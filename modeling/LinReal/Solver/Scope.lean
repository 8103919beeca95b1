import LinReal.Solver.Move

/-!
Going back. A commit makes the present values the ones to which a revert goes back; a scope remembers the bounds that
were in force when it was opened. Since both leave the basis as it is, variables that are outside their bounds
afterwards are moved or queued.
-/

namespace LinReal.Solver

variable {τ : Type}

def commit (s : Solver τ) : Solver τ := { s with store := s.store.commit }

/-- Moves `x` onto the bound outside which it lies. -/
def clamp (s : Solver τ) (x : Var) : Except Fault (Solver τ) := do
  match (← s.store.slot x).violation? with
  | none => return s
  | some v => s.update x v.bound.value

/-- The registered nonbasic variables, ascending. -/
def nonbasics (s : Solver τ) : List Var := s.registered.members.filter fun x => !s.isBasic x

/-- Brings the committed values back. Nonbasic variables move into the bounds that were set since. -/
def revert (s : Solver τ) : Except Fault (Solver τ) := do
  let s := { s with store := s.store.revert }
  (← s.nonbasics.foldlM clamp s).inspectBasics

def push (s : Solver τ) : Solver τ := { s with store := s.store.push }

/-- Closes the innermost scope: the bounds are again those in force when it was opened. -/
def pop (s : Solver τ) : Except Fault (Solver τ) := { s with store := s.store.pop.2 }.inspectBasics

end LinReal.Solver
