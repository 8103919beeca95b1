/-!
What a solver does, as a sequence of events, and the tally of such a sequence.
-/

namespace LinReal

inductive Event where
  | pivot
  | update
  | lowerConflict
  | upperConflict
  | equalityConflict
  | updateConflict
  | earlyConflict
  /-- The scan before a repair went over to a smaller conflict. -/
  | earlyImprovement
  /-- A pivot was made although a conflict had been seen. -/
  | pivotAfterConflict
  /-- The first such pivot of a repair was made. -/
  | wastefulCheck
  | antiCycle
deriving DecidableEq, Repr

/-- How often each event happened. -/
structure Tally where
  pivots : Nat
  updates : Nat
  lowerConflicts : Nat
  upperConflicts : Nat
  equalityConflicts : Nat
  updateConflicts : Nat
  earlyConflicts : Nat
  earlyImprovements : Nat
  pivotsAfterConflict : Nat
  wastefulChecks : Nat
  antiCycleSwitches : Nat
deriving DecidableEq, Repr

namespace Tally

def zero : Tally := ⟨0, 0, 0, 0, 0, 0, 0, 0, 0, 0, 0⟩

instance : Inhabited Tally := ⟨zero⟩

def count (t : Tally) : Event → Tally
  | .pivot => { t with pivots := t.pivots + 1 }
  | .update => { t with updates := t.updates + 1 }
  | .lowerConflict => { t with lowerConflicts := t.lowerConflicts + 1 }
  | .upperConflict => { t with upperConflicts := t.upperConflicts + 1 }
  | .equalityConflict => { t with equalityConflicts := t.equalityConflicts + 1 }
  | .updateConflict => { t with updateConflicts := t.updateConflicts + 1 }
  | .earlyConflict => { t with earlyConflicts := t.earlyConflicts + 1 }
  | .earlyImprovement => { t with earlyImprovements := t.earlyImprovements + 1 }
  | .pivotAfterConflict => { t with pivotsAfterConflict := t.pivotsAfterConflict + 1 }
  | .wastefulCheck => { t with wastefulChecks := t.wastefulChecks + 1 }
  | .antiCycle => { t with antiCycleSwitches := t.antiCycleSwitches + 1 }

def ofEvents (es : List Event) : Tally := es.foldl count zero

/-- The number of conflicts, of every kind but those of the early scan. -/
def conflicts (t : Tally) : Nat :=
  t.lowerConflicts + t.upperConflicts + t.equalityConflicts + t.updateConflicts

end Tally

end LinReal
