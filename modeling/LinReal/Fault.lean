import LinReal.DeltaRat

/-!
What can go wrong with a solver. A *fault* is a call whose requirement does not hold, such as moving a basic
variable; a *defect* is a broken invariant found by an audit. Each has one wording, given by `message`.
-/

namespace LinReal

/-- A variable is its number. -/
abbrev Var := Nat

inductive Defect where
  | rowMismatch (basic : Var) (assigned computed : DeltaRat)
  | basicInRow (basic x : Var)
  | zeroCoefficient (basic x : Var)
  | partition (x : Var) (flagged hasRow : Bool)
  | columnIndex (x : Var) (indexed actual : Nat)
deriving DecidableEq, Repr

namespace Defect

def message : Defect → String
  | rowMismatch b v w =>
    s!"row of x{b} evaluates to " ++ w.text ++ s!", but x{b} is assigned " ++ v.text
  | basicInRow b x => s!"row of x{b} mentions basic variable x{x}"
  | zeroCoefficient b x => s!"row of x{b} stores a zero coefficient for x{x}"
  | partition x flagged hasRow => s!"x{x} is flagged basic = {flagged} but owns a row = {hasRow}"
  | columnIndex x indexed actual => s!"column of x{x} has {indexed} rows indexed but {actual} rows mention it"

end Defect

/-- A call whose requirement does not hold. -/
inductive Fault where
  | divisionByZero
  /-- A variable without a slot, or an ordinal without a literal, was looked up. -/
  | outOfRange
  | alreadyBasic (x : Var)
  | notBasic (x : Var)
  | noRow (x : Var)
  | ownsRow (x : Var)
  | occursInRow (x : Var)
  | selfReference
  | leavingNotBasic (x : Var)
  | enteringBasic (x : Var)
  | moveOfBasic (x : Var)
  | notInRow (entering leaving : Var)
  | zeroPivot (entering leaving : Var)
  /-- The coefficient that a row stores for the variable to enter is zero. -/
  | storedZero
  /-- A conflict was asked of a row in which a variable can still move. -/
  | unblocked (x : Var)
  | broken (d : Defect)
  /-- A repair came back to a basis it had left, so that it would run for ever. -/
  | diverged
deriving DecidableEq, Repr

namespace Fault

def message : Fault → String
  | divisionByZero => "division of a delta-rational by zero"
  | outOfRange => "index out of bounds"
  | alreadyBasic x => s!"variable {x} is already basic"
  | notBasic x => s!"variable {x} is not basic"
  | noRow x => s!"variable {x} does not own a tableau row"
  | ownsRow x => s!"variable {x} already owns a row"
  | occursInRow x => s!"variable {x} is used by an existing row"
  | selfReference => "a row cannot mention its own basic variable"
  | leavingNotBasic x => s!"leaving variable {x} is not basic"
  | enteringBasic x => s!"entering variable {x} is basic"
  | moveOfBasic x => s!"update of basic variable {x}"
  | notInRow entering leaving => s!"x{entering} does not occur in the row of x{leaving}"
  | zeroPivot entering leaving => s!"pivot on a zero coefficient: {entering} not in row of {leaving}"
  | storedZero => "assertion failed: !a_le.is_zero()"
  | unblocked x => s!"x{x} has no blocking bound"
  | broken d => d.message
  | diverged => "the repair does not end"

end Fault

end LinReal
