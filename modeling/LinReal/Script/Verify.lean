import LinReal.Script.Run

/-!
Verifying results. A model is checked against the rows and the bounds in force, by arithmetic alone. A conflict must
consist of bounds in force, and a fresh solver must find those bounds contradictory on their own.
-/

namespace LinReal.Script

/-- The value of a variable in a model, which must have one. -/
def valueOf (values : List Rat) (x : Var) : Except Fault Rat :=
  match values[x]? with
  | some v => .ok v
  | none => .error .outOfRange

def rowHolds (values : List Rat) (x : Var) (d : LinearForm) : Except Fault Bool := do
  let sum ← d.foldlM (fun sum (y, a) => return sum + a * (← valueOf values y)) 0
  return sum = (← valueOf values x)

def boundHolds (s : Script) (values : List Rat) (ordinal : Nat) : Except Fault Bool := do
  let l ← s.literal ordinal
  return l.relation.holds (← valueOf values l.var) l.constant

/-- Whether the values satisfy the first rows and the bounds with the given ordinals. -/
def verifyModel (s : Script) (values : List Rat) (rows : Nat) (active : List Nat) : Except Fault Bool := do
  let rowsHold ← (s.rows.take rows).allM fun (x, d) => rowHolds values x d
  let boundsHold ← active.allM (s.boundHolds values)
  return rowsHold && boundsHold

/-- A standard solver with the first rows of the script. -/
def solverWithRows (s : Script) (rows : Nat) : Except Fault (Solver Nat) :=
  (s.rows.take rows).foldlM (fun solver (x, d) => solver.addRow x d)
    ((List.range s.variableCount).foldl Solver.register (.new .standard))

/-- Whether asserting the bounds one after the other, and then repairing, comes upon a conflict. -/
def clashes (s : Script) (solver : Solver Nat) : List Nat → Except Fault Bool
  | [] => return (← solver.repair).1.isSome
  | ordinal :: rest => do
    match ← (← s.literal ordinal).assertIn solver ordinal with
    | (some _, _) => return true
    | (none, solver) => clashes s solver rest

/-- Whether the bounds with the given ordinals are some of those in force and contradict each other. -/
def verifyConflict (s : Script) (c : Conflict Nat) (rows : Nat) (active : List Nat) : Except Fault Bool :=
  if c.isEmpty || !c.tokens.all active.contains then .ok false
  else do
    let solver ← s.solverWithRows rows
    s.clashes solver (c.tokens.mergeSort (· ≤ ·))

/-- Checks a result against the script. -/
def verify (s : Script) (r : CheckResult) : Except Fault Bool :=
  match r.verdict with
  | .sat m => s.verifyModel m.values r.rows r.active
  | .unsat c => s.verifyConflict c r.rows r.active

end LinReal.Script
