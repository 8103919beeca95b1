import LinReal.Solver.State

/-!
Audits. An audit goes over the partition into basic and nonbasic variables, the rows with the values of their
owners, and the columns, and answers the first defect.
-/

namespace LinReal.Solver

variable {τ : Type}

/-- A variable whose mark does not agree with the rows. -/
def partitionDefect? (t : Tableau) (x : Var) : Option Defect :=
  let flagged := t.isBasic x
  let hasRow := (t.row? x).isSome
  if flagged ≠ hasRow then some (.partition x flagged hasRow) else none

/-- A row entry that must not be there. -/
def entryDefect? (t : Tableau) (b : Var) (x : Var) (a : Rat) : Option Defect :=
  if t.isBasic x then some (.basicInRow b x)
  else if a = 0 then some (.zeroCoefficient b x)
  else none

/-- A row with a bad entry, or whose owner has another value than the row. -/
def rowDefect? (s : Solver τ) (b : Var) (row : LinearForm) : Except Fault (Option Defect) := do
  match row.findSome? fun (x, a) => entryDefect? s.tableau b x a with
  | some d => return some d
  | none =>
    let computed ← s.rowValue (·.value) b
    let assigned := (← s.store.slot b).value
    return if computed = assigned then none else some (.rowMismatch b assigned computed)

/-- A variable whose column counts other rows than those that mention it. -/
def columnDefect? (t : Tableau) (x : Var) : Option Defect :=
  let indexed := t.rowCount x
  let actual := t.ownedRows.countP fun (_, row) => row.mentions x
  if indexed = actual then none else some (.columnIndex x indexed actual)

/-- The first defect of the state: of the partition, of a row, of a column. -/
def audit (s : Solver τ) : Except Fault (Option Defect) := do
  let t := s.tableau
  let xs := List.range t.size
  match xs.findSome? (partitionDefect? t) with
  | some d => return some d
  | none =>
    match ← t.ownedRows.findSomeM? fun (b, row) => s.rowDefect? b row with
    | some d => return some d
    | none => return xs.findSome? (columnDefect? t)

end LinReal.Solver
