import LinReal.Table

/-!
The queue of variables that wait for repair. A repair runs in two stages. The heuristic stage takes the variable that
violates its bound by the largest amount first, and the smaller variable on ties; its partner is one that occurs in
the fewest rows. The anti-cycle stage takes the smallest variable and the smallest partner, which excludes cycles.

The stage is the form of the queue, so that no entry is ever left behind in the other stage. Entries may be stale:
a variable stays queued after it became consistent or nonbasic.
-/

namespace LinReal

inductive Stage where
  | heuristic
  | antiCycle
deriving DecidableEq, Repr

namespace Stage

/-- The first of those candidates whose measure is least. -/
def leastBy (measure : Var → Nat) : List Var → Option Var
  | [] => none
  | x :: xs =>
    match leastBy measure xs with
    | none => some x
    | some y => if measure y < measure x then some y else some x

/-- The partner for a pivot among the eligible variables, which ascend. -/
def choosePartner (stage : Stage) (eligible : List Var) (rowCount : Var → Nat) : Option Var :=
  match stage with
  | heuristic => leastBy rowCount eligible
  | antiCycle => eligible.head?

/-- The partner when the row counts come from a table, which must have those that are looked at: the heuristic
stage looks at the count of every candidate, the anti-cycle stage at none. -/
def choosePartnerIn (stage : Stage) (eligible : List Var) (rowCounts : Table Nat) : Except Fault (Option Var) :=
  match stage with
  | heuristic => do
    let counts ← eligible.mapM rowCounts.read
    return leastBy (fun x => ((eligible.zip counts).lookup x).getD 0) eligible
  | antiCycle => return eligible.head?

end Stage

/-- A queued variable and the amount by which it violated its bound. -/
structure Entry where
  var : Var
  amount : DeltaRat
deriving DecidableEq, Repr

namespace Entry

/-- Whether `a` is taken before `b`: the amount is larger, or equal and the variable smaller. -/
def before (a b : Entry) : Bool := b.amount < a.amount || (a.amount = b.amount && a.var < b.var)

end Entry

/-- The queued variables, in the order in which they will be taken. -/
inductive RepairQueue where
  /-- The heuristic stage: largest amount first. -/
  | byAmount (entries : List Entry)
  /-- The anti-cycle stage: smallest variable first. -/
  | byIndex (vars : List Var)
deriving DecidableEq, Repr

namespace RepairQueue

def empty : RepairQueue := .byAmount []

instance : Inhabited RepairQueue := ⟨empty⟩

def stage : RepairQueue → Stage
  | byAmount _ => .heuristic
  | byIndex _ => .antiCycle

/-- The queued variables in the order in which they will be taken, repeated ones included. -/
def order : RepairQueue → List Var
  | byAmount es => es.map (·.var)
  | byIndex xs => xs

def size (q : RepairQueue) : Nat := q.order.length

def isEmpty (q : RepairQueue) : Bool := q.order.isEmpty

/-- Puts an element before the first one that it precedes. -/
def insertBy (before : α → α → Bool) (a : α) : List α → List α
  | [] => [a]
  | b :: bs => if before a b then a :: b :: bs else b :: insertBy before a bs

/-- Queues `x`; only the heuristic stage looks at the amount. -/
def push (q : RepairQueue) (x : Var) (amount : DeltaRat) : RepairQueue :=
  match q with
  | byAmount es => byAmount (insertBy Entry.before ⟨x, amount⟩ es)
  | byIndex xs => byIndex (insertBy (fun a b => a < b) x xs)

def pop : RepairQueue → Option (Var × RepairQueue)
  | byAmount [] => none
  | byAmount (e :: es) => some (e.var, byAmount es)
  | byIndex [] => none
  | byIndex (x :: xs) => some (x, byIndex xs)

/-- Drops the entries up to the first one of which `p` holds. -/
def dropUntil (p : Var → Bool) : RepairQueue → RepairQueue
  | byAmount es => byAmount (es.dropWhile fun e => !p e.var)
  | byIndex xs => byIndex (xs.dropWhile fun x => !p x)

/-- Goes over to the anti-cycle stage with the same entries. -/
def switch (q : RepairQueue) : RepairQueue :=
  byIndex (q.order.foldl (fun xs x => insertBy (fun a b => a < b) x xs) [])

/-- The distinct queued variables, ascending. -/
def queued (q : RepairQueue) : List Var :=
  q.order.foldl (fun xs x => if xs.contains x then xs else insertBy (fun a b => a < b) x xs) []

/-- The empty queue of the same stage. -/
def cleared : RepairQueue → RepairQueue
  | byAmount _ => byAmount []
  | byIndex _ => byIndex []

/-! ### The entries -/

theorem insertBy_perm (before : α → α → Bool) (a : α) (as : List α) : (insertBy before a as).Perm (a :: as) := by
  induction as with
  | nil => exact .refl _
  | cons b bs ih =>
    simp only [insertBy]
    split
    · exact .refl _
    · exact (ih.cons b).trans (.swap a b bs)

theorem order_push (q : RepairQueue) (x : Var) (amount : DeltaRat) : (q.push x amount).order.Perm (x :: q.order) := by
  cases q with
  | byAmount es => exact (insertBy_perm _ _ es).map (·.var)
  | byIndex xs => exact insertBy_perm _ _ xs

theorem order_eq_of_pop {q q' : RepairQueue} {x : Var} (h : q.pop = some (x, q')) : q.order = x :: q'.order := by
  match q, h with
  | byAmount (_ :: _), h =>
    cases h
    rfl
  | byIndex (_ :: _), h =>
    cases h
    rfl

theorem pop_eq_none_iff {q : RepairQueue} : q.pop = none ↔ q.isEmpty := by
  cases q with
  | byAmount es => cases es <;> simp [pop, isEmpty, order]
  | byIndex xs => cases xs <;> simp [pop, isEmpty, order]

theorem order_switch (q : RepairQueue) : q.switch.order.Perm q.order := by
  have h : ∀ xs acc : List Var, (xs.foldl (fun xs x => insertBy (fun a b => a < b) x xs) acc).Perm (xs ++ acc) := by
    intro xs
    induction xs with
    | nil => exact fun acc => .refl _
    | cons x xs ih =>
      intro acc
      refine (ih _).trans ?_
      refine ((insertBy_perm _ x acc).append_left xs).trans ?_
      exact List.perm_middle
  have := h q.order []
  rw [List.append_nil] at this
  exact this

theorem mem_queued {q : RepairQueue} {x : Var} : x ∈ q.queued ↔ x ∈ q.order := by
  have h : ∀ xs acc : List Var,
      x ∈ xs.foldl (fun xs x => if xs.contains x then xs else insertBy (fun a b => a < b) x xs) acc ↔
        x ∈ acc ∨ x ∈ xs := by
    intro xs
    induction xs with
    | nil => simp
    | cons y ys ih =>
      intro acc
      rw [List.foldl_cons, ih]
      split
      · rename_i hc
        have := List.contains_iff_mem.mp hc
        grind
      · rw [(insertBy_perm _ _ _).mem_iff]
        grind
  exact (h q.order []).trans (by simp)

end RepairQueue

end LinReal
