import LinReal.Script.Basic
import LinReal.Solver.Assert
import LinReal.Solver.Repair
import LinReal.Solver.Scope

/-!
Running scripts. Each check gives a verdict on the bounds in force: a model, or a conflict between some of them.

While a conflict is pending, bounds are recorded but not asserted. A `pop` that drops a bound of the conflict clears it;
then the values of the last successful check come back.
-/

namespace LinReal

/-- Values that satisfy all bounds, for a positive value of `δ`. -/
structure Model where
  delta : Rat
  /-- The values of the solver, by variable. -/
  symbolic : List DeltaRat
  /-- The same values with `δ` replaced. -/
  values : List Rat
deriving DecidableEq, Repr

inductive Verdict where
  | sat (m : Model)
  /-- The bounds with these ordinals contradict each other. -/
  | unsat (c : Conflict Nat)
deriving DecidableEq, Repr

/-- The answer of a check with what it is about. -/
structure CheckResult where
  verdict : Verdict
  /-- The ordinals of the bounds in force. -/
  active : List Nat
  rows : Nat
deriving DecidableEq, Repr

namespace CheckResult

def isSat (r : CheckResult) : Bool :=
  match r.verdict with
  | .sat _ => true
  | .unsat _ => false

end CheckResult

namespace Literal

def assertIn (l : Literal) (s : Solver Nat) (token : Nat) : Except Fault (Option (Conflict Nat) × Solver Nat) :=
  match l.relation with
  | .ge | .gt => s.assertBound .lower l.var l.limit token
  | .le | .lt => s.assertBound .upper l.var l.limit token
  | .eq => s.assertEqual l.var l.limit token

/-- The greatest `δ` at which `a ≥ b` still holds, if it holds for small `δ` only. -/
def crossing (a b : DeltaRat) : Option Rat :=
  let gap := a.std - b.std
  let closing := b.inf - a.inf
  if 0 < gap ∧ 0 < closing then some (gap / closing) else none

/-- The greatest `δ` at which the bound still holds of the value `v`, if it holds for small `δ` only. -/
def deltaLimit (l : Literal) (v : DeltaRat) : Option Rat :=
  match l.relation with
  | .ge | .gt => crossing v l.limit
  | .le | .lt => crossing l.limit v
  | .eq => none

end Literal

structure Runner where
  solver : Solver Nat
  /-- The ordinals of the bounds asserted in each scope, innermost scope and latest bound first. -/
  scopes : List (List Nat)
  rows : Nat
  /-- The conflict that still stands. -/
  pending : Option (Conflict Nat)
  /-- The results of the checks so far, the latest first. -/
  results : List CheckResult
deriving DecidableEq, Repr

namespace Runner

def start (script : Script) (settings : Settings) : Runner where
  solver := (List.range script.variableCount).foldl Solver.register (.new settings)
  scopes := [[]]
  rows := 0
  pending := none
  results := []

/-- The ordinals of the bounds in force, in the order of the script. -/
def active (r : Runner) : List Nat := r.scopes.flatten.reverse

def record (r : Runner) (ordinal : Nat) : Runner :=
  match r.scopes with
  | [] => r
  | scope :: outer => { r with scopes := (ordinal :: scope) :: outer }

/-- The model of the solver's values, for the greatest `δ` up to one at which all bounds in force hold. -/
def model (script : Script) (r : Runner) : Except Fault Model := do
  let symbolic ← (List.range script.variableCount).mapM fun x => return (← r.solver.store.slot x).value
  let limits ← r.active.mapM fun i => do
    let l ← script.literal i
    match symbolic[l.var]? with
    | some v => return l.deltaLimit v
    | none => .error .outOfRange
  let delta := (limits.filterMap id).foldl (fun best l => if l < best then l else best) 1
  return ⟨delta, symbolic, symbolic.map (·.substitute delta)⟩

/-- Takes back the pending conflict if one of its bounds is among those dropped. -/
def retract (r : Runner) (dropped : List Nat) : Except Fault Runner :=
  match r.pending with
  | none => .ok r
  | some c =>
    if c.tokens.any dropped.contains then do
      return { r with pending := none, solver := ← r.solver.revert }
    else .ok r

/-- Repairs unless a conflict is pending; values that hold are committed. -/
def decide (r : Runner) : Except Fault Runner :=
  match r.pending with
  | some _ => .ok r
  | none => do
    match ← r.solver.repair with
    | (some c, s) => return { r with pending := some c, solver := s }
    | (none, s) => return { r with solver := s.commit }

def step (script : Script) (r : Runner) : Command → Except Fault Runner
  | .row x d => do
    return { r with solver := ← r.solver.addRow x d, rows := r.rows + 1 }
  | .bound ordinal =>
    let r := r.record ordinal
    match r.pending with
    | some _ => .ok r
    | none => do
      let (clash, s) ← (← script.literal ordinal).assertIn r.solver ordinal
      return { r with pending := clash, solver := s }
  | .push => .ok { r with solver := r.solver.push, scopes := [] :: r.scopes }
  | .pop => do
    let r' ← { r with scopes := r.scopes.tail }.retract (r.scopes.headD [])
    return { r' with solver := ← r'.solver.pop }
  | .check => do
    let r ← r.decide
    let verdict ← match r.pending with
      | some c => .ok (.unsat c)
      | none => .sat <$> r.model script
    return { r with results := ⟨verdict, r.active, r.rows⟩ :: r.results }

end Runner

namespace Script

/-- Runs a script. Answers one result for each check, and the tally of the solver. -/
def run (script : Script) (settings : Settings) : Except Fault (List CheckResult × Tally) := do
  let r ← script.commands.toList.foldlM (Runner.step script) (.start script settings)
  return (r.results.reverse, r.solver.tally)

end Script

end LinReal
