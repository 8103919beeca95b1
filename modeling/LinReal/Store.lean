import LinReal.Table
import LinReal.Trail

/-!
The store: a slot for each variable, with its value and bounds, and two kinds of history.

* The first change of a value after a commit saves the old one in the slot; a revert brings the saved values back,
  a commit forgets them.
* Inside a scope every replaced bound is remembered on the trail, so that closing the scope restores the bounds that
  were in force when it was opened.
-/

namespace LinReal

structure Store (τ : Type) where
  slots : Table (Slot τ)
  /-- The variables whose values were changed since the last commit. -/
  changed : List Var
  trail : Trail τ
deriving DecidableEq, Repr

namespace Store

variable {τ : Type}

def empty : Store τ := ⟨.empty, [], .empty⟩

instance : Inhabited (Store τ) := ⟨empty⟩

def size (s : Store τ) : Nat := s.slots.size

/-- The slot of `x`, which must exist. -/
def slot (s : Store τ) (x : Var) : Except Fault (Slot τ) := s.slots.read x

/-- The bounds replaced in each open scope, innermost scope and latest change first. -/
def scopes (s : Store τ) : List (List (BoundChange τ)) := s.trail.scopes

/-- How many scopes are open. -/
def depth (s : Store τ) : Nat := s.trail.depth

/-- Gives `x` a fresh slot with the value `v`. -/
def install (s : Store τ) (x : Var) (v : DeltaRat) : Store τ :=
  { s with slots := (s.slots.grow x (.fresh 0)).set x (.fresh v) }

/-! ### Values -/

/-- Changes the values in the slot of `x` by `f`, and lists `x` as changed if its slot saves a value only now. -/
def revise (s : Store τ) (x : Var) (f : Slot τ → Slot τ) : Except Fault (Store τ) := do
  let old ← s.slot x
  let new := f old
  return { s with
    slots := s.slots.set x new
    changed := if new.saved.isSome && old.saved.isNone then x :: s.changed else s.changed }

def assign (s : Store τ) (x : Var) (v : DeltaRat) : Except Fault (Store τ) := s.revise x (·.assign v)

def assignBoth (s : Store τ) (x : Var) (v safe : DeltaRat) : Except Fault (Store τ) :=
  s.revise x (·.assignBoth v safe)

def commit (s : Store τ) : Store τ :=
  { s with slots := s.changed.foldl (fun t x => t.modify x Slot.commit) s.slots, changed := [] }

def revert (s : Store τ) : Store τ :=
  { s with slots := s.changed.foldl (fun t x => t.modify x Slot.revert) s.slots, changed := [] }

/-! ### Bounds -/

/-- Replaces the bound of `x` on a side; the old bound goes on the trail. -/
def setBound (s : Store τ) (side : Side) (x : Var) (b : Bound τ) : Except Fault (Store τ) := do
  let old ← s.slot x
  return { s with
    slots := s.slots.set x (old.withBound side (some b))
    trail := s.trail.record ⟨x, side, old.bound? side⟩ }

def push (s : Store τ) : Store τ := { s with trail := s.trail.push }

/-- Puts replaced bounds back, the latest first. -/
def restore (t : Table (Slot τ)) (changes : List (BoundChange τ)) : Table (Slot τ) :=
  changes.foldl (fun t c => t.modify c.var fun slot => slot.withBound c.side c.previous) t

/-- Closes the innermost scope. Answers the variables whose bounds are put back, the latest change first. -/
def pop (s : Store τ) : List Var × Store τ :=
  match s.trail.pop? with
  | none => ([], s)
  | some (scope, outer) => (scope.map (·.var), { s with slots := restore s.slots scope, trail := outer })

/-! ### What an operation does to the slots -/

theorem slot_eq_ok_iff {s : Store τ} {x : Var} {a : Slot τ} : s.slot x = .ok a ↔ s.slots.get? x = some a :=
  Table.read_eq_ok_iff

theorem get?_install (s : Store τ) (x : Var) (v : DeltaRat) (y : Var) :
    (s.install x v).slots.get? y =
      if x = y then some (.fresh v)
      else if y < s.slots.size then s.slots.get? y else if y ≤ x then some (.fresh 0) else none := by
  have hx : x < (s.slots.grow x (.fresh 0)).size := by
    rw [Table.size_grow]
    exact Nat.lt_of_lt_of_le (Nat.lt_succ_self x) (Nat.le_max_right _ _)
  simp only [install, Table.get?_set, hx, and_true, Table.get?_grow]

end Store

end LinReal
