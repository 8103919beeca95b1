import LinReal.Tally

/-! Tallies count: every field says how often its event occurs in the sequence. -/

namespace LinReal.Tally

/-- The field that counts an event. -/
def counter (t : Tally) : Event → Nat
  | .pivot => t.pivots
  | .update => t.updates
  | .lowerConflict => t.lowerConflicts
  | .upperConflict => t.upperConflicts
  | .equalityConflict => t.equalityConflicts
  | .updateConflict => t.updateConflicts
  | .earlyConflict => t.earlyConflicts
  | .earlyImprovement => t.earlyImprovements
  | .pivotAfterConflict => t.pivotsAfterConflict
  | .wastefulCheck => t.wastefulChecks
  | .antiCycle => t.antiCycleSwitches

theorem counter_count (t : Tally) (e e' : Event) : (t.count e).counter e' = t.counter e' + if e = e' then 1 else 0 := by
  cases e <;> cases e' <;> rfl

theorem counter_foldl_count (es : List Event) (t : Tally) (e : Event) :
    (es.foldl count t).counter e = t.counter e + es.count e := by
  induction es generalizing t with
  | nil => rfl
  | cons e' es ih =>
    rw [List.foldl_cons, ih, counter_count, List.count_cons, Nat.add_assoc, Nat.add_comm (List.count e es)]
    simp only [beq_iff_eq]

theorem counter_ofEvents (es : List Event) (e : Event) : (ofEvents es).counter e = es.count e := by
  have hzero : zero.counter e = 0 := by cases e <;> rfl
  rw [ofEvents, counter_foldl_count, hzero, Nat.zero_add]

end LinReal.Tally
