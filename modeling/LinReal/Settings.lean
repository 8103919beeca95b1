/-!
The settings of a solver.
-/

namespace LinReal

structure Settings where
  /-- Whether the queued variables are scanned for a conflict before a repair. -/
  earlyScan : Bool
  /-- After how many rounds a repair goes over to the anti-cycle stage. -/
  heuristicLimit : Option Nat
  /-- Whether every round begins with an audit. -/
  paranoid : Bool
deriving DecidableEq, Repr

namespace Settings

/-- Early scan, as many heuristic rounds as there are variables, no audits. -/
def standard : Settings := ⟨true, none, false⟩

instance : Inhabited Settings := ⟨standard⟩

/-- The number of heuristic rounds for a solver of `n` variables. -/
def roundLimit (c : Settings) (n : Nat) : Nat := c.heuristicLimit.getD n

end Settings

end LinReal
