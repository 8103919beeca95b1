import LinReal.Solver.Audit
import LinReal.Solver.Move

/-!
Repair: pivots until every bound holds or a row shows that one cannot.

A round takes the next queued variable that is basic and outside its bounds, and moves it onto the violated bound by a
pivot with an eligible partner. Without such a variable the repair has succeeded; without a partner the row is a
conflict. A budget is asked before every round and may interrupt the repair, which then goes on at the next call.

The heuristic stage may visit a basis twice. It is left after a bounded number of rounds, and in the anti-cycle stage a
variable is basic, or at the value it had, or at one of its bounds. That leaves `4 ^ n` situations for `n` variables,
each of which determines the next round. Hence a repair that takes more rounds than `roundBound` never ends.
-/

namespace LinReal

/-- Asked before every round whether a repair has to stop; `β` is what the budget keeps from one round to the next. -/
structure Budget (β : Type) where
  ask : β → Bool × β

namespace Budget

def unlimited : Budget Unit := ⟨fun _ => (false, ())⟩

def pivots : Budget Nat := ⟨fun n => (n == 0, n - 1)⟩

/-- Keeps the number of times it was asked, and stops a repair once that is over `n`. -/
def calls (n : Nat) : Budget Nat := ⟨fun k => (n < k + 1, k + 1)⟩

end Budget

inductive Outcome (τ : Type) where
  | sat
  /-- The bounds with these tokens contradict each other. -/
  | unsat (c : Conflict τ)
  | interrupted
deriving DecidableEq, Repr

namespace Outcome

def isSat : Outcome τ → Bool
  | sat => true
  | _ => false

def conflict? : Outcome τ → Option (Conflict τ)
  | unsat c => some c
  | _ => none

end Outcome

namespace Solver

variable {τ : Type} [DecidableEq τ]

/-- The number of rounds within which a repair ends if it ends at all. -/
def roundBound (s : Solver τ) : Nat := s.settings.roundLimit s.variableCount + Nat.pow 4 s.variableCount + 2

/-- Takes queued variables until one is basic and outside its bounds; those before it are dropped. -/
def takeViolated (s : Solver τ) : Option (Var × Violation τ) × Solver τ :=
  match (s.queue.dropUntil fun x => (s.violation? x).isSome).pop with
  | none => (none, { s with queue := s.queue.cleared })
  | some (x, q) => ((s.violation? x).map (x, ·), { s with queue := q })

/-- Begins a round: audits a paranoid solver, and leaves the heuristic stage once its rounds are used up. -/
def openRound (s : Solver τ) : Except Fault (Solver τ) := do
  if s.settings.paranoid then
    if let some d := ← s.audit then .error (.broken d)
  if s.queue.stage = .heuristic && s.settings.roundLimit s.variableCount ≤ s.rounds then
    return { s with queue := s.queue.switch }.note .antiCycle
  else return s

/-- One round. Answers the outcome if the repair ends with it. -/
def round (s : Solver τ) : Except Fault (Option (Outcome τ) × Solver τ) :=
  match s.takeViolated with
  | (none, s) => .ok (some .sat, s)
  | (some (x, v), s) => do
    let s := { s with rounds := s.rounds + 1 }
    match ← s.partner? x v.side with
    | none => return (some (.unsat (← s.explain x v)), s.note .updateConflict)
    | some y =>
      let s ← s.pivot x y v.bound.value
      match ← s.conflictOf y with
      | none => return (none, s)
      | some c => return (some (.unsat c), s.note .updateConflict)

/-- One pass of the loop of a repair: the round is opened, the budget asked, and the round made. Answers the outcome if
the repair ends with it. -/
def pass (budget : Budget β) (b : β) (s : Solver τ) : Except Fault (Option (Outcome τ) × β × Solver τ) := do
  let s ← s.openRound
  match budget.ask b with
  | (true, b) => return (some .interrupted, b, s)
  | (false, b) =>
    let (outcome, s) ← s.round
    return (outcome, b, s)

/-- Passes until the repair ends, but at most as many as the first argument says. -/
def runRounds (budget : Budget β) : Nat → β → Solver τ → Except Fault (Outcome τ × β × Solver τ)
  | 0, _, _ => .error .diverged
  | n + 1, b, s => do
    match ← s.pass budget b with
    | (some outcome, b, s) => return (outcome, b, s)
    | (none, b, s) => runRounds budget n b s

/-! ### The early scan -/

/-- The queued variables that are basic and outside their bounds, each once, in the order of the queue. -/
def violators (s : Solver τ) : List Var := firsts (s.queue.order.filter fun x => (s.violation? x).isSome)

/-- Looks for conflicts among the queued variables without a pivot, and answers the first of the smallest ones. -/
def earlyConflict (s : Solver τ) : Except Fault (Option (Conflict τ) × Solver τ) := do
  let xs := s.violators
  let s ← { s with queue := s.queue.cleared }.inspectAll xs
  let found := (← xs.mapM s.conflictOf).filterMap id
  let s := found.foldl (fun s _ => s.note .earlyConflict) s
  match Conflict.smallest found with
  | none => return (none, s)
  | some (best, 0) => return (some best, s)
  | some (best, _ + 1) => return (some best, s.note .earlyImprovement)

/-! ### Whole repairs -/

/-- After a repair that was not interrupted the queue is empty and in the heuristic stage. -/
def endRepair (s : Solver τ) : Solver τ := { s with queue := .empty, rounds := 0 }

/-- Begins a repair: nothing has been seen yet, and the early scan is made if it is wanted. -/
def beginRepair (s : Solver τ) : Except Fault (Option (Conflict τ) × Solver τ) :=
  let s := { s with foundConflict := false, pivotsSinceConflict := 0 }
  if s.settings.earlyScan && 1 < s.queue.size then s.earlyConflict else .ok (none, s)

/-- Leaves a repair: a conflict is reported, and the variables outside their bounds are queued. -/
def leaveRepair (s : Solver τ) : Outcome τ → Except Fault (Solver τ)
  | .sat => .ok s.endRepair
  | .unsat c => do return (← s.endRepair.inspectBasics).report c
  | .interrupted => { s with queue := s.queue.cleared }.inspectAll (s.queue.queued.filter s.isBasic)

/-- Repairs until the bounds hold, a conflict is found, or the budget stops it, with at most `n` passes of the loop. -/
def repairUpTo (s : Solver τ) (n : Nat) (budget : Budget β) (b : β) : Except Fault (Outcome τ × β × Solver τ) :=
  if s.queue.isEmpty then .ok (.sat, b, s.endRepair)
  else do
    let (early, s) ← s.beginRepair
    let (outcome, b, s) ← match early with
      | some c => .ok (.unsat c, b, s)
      | none => s.runRounds budget n b
    return (outcome, b, ← s.leaveRepair outcome)

def repairWithin (s : Solver τ) (budget : Budget β) (b : β) : Except Fault (Outcome τ × β × Solver τ) :=
  s.repairUpTo s.roundBound budget b

/-- Repairs until the bounds hold or a conflict is found. -/
def repair (s : Solver τ) : Except Fault (Option (Conflict τ) × Solver τ) := do
  let (outcome, _, s) ← s.repairWithin .unlimited ()
  return (outcome.conflict?, s)

end Solver

end LinReal
