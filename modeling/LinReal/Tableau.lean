import LinReal.LinearForm
import LinReal.VarSet

/-!
The tableau: a system of rows, each of which defines one *basic* variable as a normal linear form over nonbasic
variables. Beside the rows it keeps the column of each variable, the basic variables whose rows mention it.

A row comes and goes through `setRow`, which takes its owner out of the columns of the old row and puts it into those
of the new one. A pivot solves one row for a variable it mentions and substitutes the solved row wherever that
variable occurs, so the system keeps its solutions. There the columns follow the terms one by one: an owner enters a
column where a term appears in its row, and leaves it where a term cancels.
-/

namespace LinReal

/-- A stored row: a basic variable and the form that defines it. -/
structure Row where
  owner : Var
  form : LinearForm
deriving DecidableEq, Repr

/-- Rows by owner, columns by variable, and the set of owners. -/
structure Tableau where
  rows : Table (Option Row)
  columns : Table (List Var)
  basis : VarSet
deriving DecidableEq, Repr

namespace Tableau

def empty : Tableau := ⟨.empty, .empty, .empty⟩

instance : Inhabited Tableau := ⟨empty⟩

/-! ### Queries -/

/-- The number of variables that the tableau has room for. -/
def size (t : Tableau) : Nat := t.rows.size

def isBasic (t : Tableau) (x : Var) : Bool := t.basis.contains x

/-- What is stored for `x`, if it owns a row. -/
def stored? (t : Tableau) (x : Var) : Option Row := (t.rows.get? x).join

/-- The row of `x`, if it owns one. -/
def row? (t : Tableau) (x : Var) : Option LinearForm := (t.stored? x).map (·.form)

/-- The row of `x`, which must own one. -/
def row (t : Tableau) (x : Var) : Except Fault LinearForm :=
  match t.row? x with
  | some f => .ok f
  | none => .error (.noRow x)

/-- The basic variables whose rows mention `x`, ascending. -/
def column (t : Tableau) (x : Var) : List Var := (t.columns.get? x).getD []

def rowCount (t : Tableau) (x : Var) : Nat := (t.column x).length

def occurs (t : Tableau) (x : Var) : Bool := !(t.column x).isEmpty

/-- All rows with their owners, in the order in which they are stored. -/
def ownedRows (t : Tableau) : List (Var × LinearForm) :=
  (List.range t.size).filterMap fun x => (t.stored? x).map fun r => (r.owner, r.form)

/-! ### Changing rows -/

/-- Makes room for `x`; a new variable is nonbasic and occurs in no row. -/
def grow (t : Tableau) (x : Var) : Tableau :=
  ⟨t.rows.grow x none, t.columns.grow x [], t.basis.grow x⟩

/-- Puts `b` into its place in an ascending column. -/
def enterColumn (b : Var) : List Var → List Var
  | [] => [b]
  | c :: cs => if b < c then b :: c :: cs else if b = c then c :: cs else c :: enterColumn b cs

def leaveColumn (b : Var) (cs : List Var) : List Var := cs.filter (· ≠ b)

/-- Gives `b` the row `f`, or no row, and brings the columns up to date. -/
def setRow (t : Tableau) (b : Var) (f : Option LinearForm) : Tableau :=
  let cleared := ((t.row? b).getD []).vars.foldl (fun cs x => cs.modify x (leaveColumn b)) t.columns
  { t with
    rows := t.rows.set b (f.map (Row.mk b))
    columns := (f.getD []).vars.foldl (fun cs x => cs.modify x (enterColumn b)) cleared }

/-- A definition with every basic variable replaced by its row and equal variables collected. -/
def resolve (t : Tableau) (d : LinearForm) : LinearForm :=
  d.foldl (fun f (x, a) => f.addScaled a ((t.row? x).getD [(x, 1)])) []

/-- Makes `b` basic with the definition `d`: `b` must own no row, occur in none, and not occur in `d`. -/
def addRow (t : Tableau) (b : Var) (d : LinearForm) : Except Fault Tableau :=
  if t.isBasic b then .error (.ownsRow b)
  else if t.occurs b then .error (.occursInRow b)
  else if d.mentions b then .error .selfReference
  else
    let t := d.vars.foldl grow (t.grow b)
    -- `b` is not in the basis, as the first test says.
    .ok { t.setRow b (some (t.resolve d)) with basis := t.basis.insert b }

/-! ### Pivots -/

/-- The columns after the term of `x` in the row of `b` has changed. -/
def reindex (b x : Var) (before after : LinearForm) (columns : Table (List Var)) : Table (List Var) :=
  match before.mentions x, after.mentions x with
  | false, true => columns.modify x (enterColumn b)
  | true, false => columns.modify x (leaveColumn b)
  | _, _ => columns

/-- Adds `a·x` to a row, where `a` is not zero. -/
def addTerm (r : Row) (columns : Table (List Var)) (x : Var) (a : Rat) : Row × Table (List Var) :=
  let f := r.form.insertTerm x a
  (⟨r.owner, f⟩, reindex r.owner x r.form f columns)

/-- Adds `m·g` to a row, term by term, where neither `m` nor a coefficient of `g` is zero. -/
def addMultiple (r : Row) (columns : Table (List Var)) (m : Rat) (g : LinearForm) : Row × Table (List Var) :=
  g.foldl (fun (r, columns) (x, a) => addTerm r columns x (m * a)) (r, columns)

/-- Replaces `e` by `g` in the row of `b`; the column of `e` stays as it is. -/
def substitute (t : Tableau) (e : Var) (g : LinearForm) (b : Var) : Tableau :=
  match t.stored? b with
  | none => t
  | some r =>
    match r.form.coeff? e with
    | none => t
    | some a =>
      let (row, columns) := addMultiple ⟨r.owner, r.form.erase e⟩ t.columns a g
      { t with rows := t.rows.set b (some row), columns := columns }

/-- Exchanges the basic `l`, whose row is `r`, with the nonbasic `e`, whose coefficient in `r` is `a`. -/
def exchange (t : Tableau) (l e : Var) (r : LinearForm) (a : Rat) : Tableau :=
  let solved := (r.erase e).solve l a
  let t := (t.setRow l none).setRow e (some solved)
  let t := (t.column e).foldl (substitute · e solved) t
  -- `pivot` has seen that `l` is in the basis and `e` is not.
  { t with columns := t.columns.set e [], basis := (t.basis.erase l).insert e }

/-- Exchanges the basic `l` with the nonbasic `e`, which must occur in the row of `l`. -/
def pivot (t : Tableau) (l e : Var) : Except Fault Tableau :=
  if !t.isBasic l then .error (.leavingNotBasic l)
  else if t.isBasic e then .error (.enteringBasic e)
  else
    match t.row? l with
    | none => .error (.noRow l)
    | some r =>
      match r.coeff? e with
      | none => .error (.zeroPivot e l)
      | some a => if a = 0 then .error .storedZero else .ok (t.exchange l e r a)

/-! ### What a change of row does -/

theorem row?_eq_some_iff {t : Tableau} {b : Var} {f : LinearForm} :
    t.row? b = some f ↔ ∃ r, t.stored? b = some r ∧ r.form = f := Option.map_eq_some_iff

theorem stored?_grow (t : Tableau) (x y : Var) : (t.grow x).stored? y = t.stored? y := by
  simp only [stored?, grow, Table.get?_grow]
  by_cases h : y < t.rows.size
  · simp [h]
  · have hy : t.rows.get? y = none := Table.get?_eq_none_iff.mpr (Nat.le_of_not_lt h)
    by_cases h' : y ≤ x <;> simp [h, h', hy]

theorem row?_grow (t : Tableau) (x y : Var) : (t.grow x).row? y = t.row? y := by
  rw [row?, row?, stored?_grow]

theorem stored?_setRow (t : Tableau) (b : Var) (f : Option LinearForm) (x : Var) :
    (t.setRow b f).stored? x = if b = x ∧ b < t.size then f.map (Row.mk b) else t.stored? x := by
  have hset : (t.setRow b f).stored? x = ((t.rows.set b (f.map (Row.mk b))).get? x).join := rfl
  rw [hset, Table.get?_set]
  by_cases h : b = x ∧ b < t.size
  · rw [if_pos h, if_pos (show b = x ∧ b < t.rows.size from h), Option.join_some]
  · rw [if_neg h, if_neg (show ¬(b = x ∧ b < t.rows.size) from h), stored?]

theorem row?_setRow (t : Tableau) (b : Var) (f : Option LinearForm) (x : Var) :
    (t.setRow b f).row? x = if b = x ∧ b < t.size then f else t.row? x := by
  rw [row?, stored?_setRow]
  split
  · cases f <;> rfl
  · rfl

@[simp] theorem basis_setRow (t : Tableau) (b : Var) (f : Option LinearForm) : (t.setRow b f).basis = t.basis := rfl

@[simp] theorem size_setRow (t : Tableau) (b : Var) (f : Option LinearForm) : (t.setRow b f).size = t.size := by
  simp [size, setRow]

@[simp] theorem mem_leaveColumn {b c : Var} {cs : List Var} : c ∈ leaveColumn b cs ↔ c ≠ b ∧ c ∈ cs := by
  simp [leaveColumn, and_comm]

theorem mem_enterColumn {b c : Var} {cs : List Var} : c ∈ enterColumn b cs ↔ c = b ∨ c ∈ cs := by
  induction cs with
  | nil => simp [enterColumn]
  | cons d ds ih =>
    simp only [enterColumn]
    split
    · simp
    · split
      · simp_all
      · simp only [List.mem_cons, ih]
        grind

/-- Changing the columns of some variables: those named, if they exist, are changed by `g`. -/
theorem mem_foldl_modify {g : List Var → List Var} {p : Var → Prop} {b : Var}
    (hg : ∀ cs c, c ∈ g cs ↔ p c ∨ (c ≠ b ∧ c ∈ cs)) (xs : List Var) (cs : Table (List Var)) (x c : Var) :
    c ∈ ((xs.foldl (fun cs x => cs.modify x g) cs).get? x).getD [] ↔
      if x ∈ xs ∧ x < cs.size then p c ∨ (c ≠ b ∧ c ∈ (cs.get? x).getD []) else c ∈ (cs.get? x).getD [] := by
  induction xs generalizing cs with
  | nil => simp
  | cons y ys ih =>
    rw [List.foldl_cons, ih, Table.size_modify, Table.get?_modify]
    by_cases hx : x < cs.size
    · obtain ⟨col, hcol⟩ := Option.isSome_iff_exists.mp (Table.isSome_get?_iff.mpr hx)
      by_cases hy : y = x
      · subst hy
        simp only [hcol, if_true, Option.map_some, Option.getD_some, hg, hx, List.mem_cons, true_or, and_true]
        grind
      · simp only [hcol, hy, if_false, Option.getD_some, hx, List.mem_cons, and_true]
        grind
    · simp only [hx, and_false, if_false]
      have hcol : cs.get? x = none := Table.get?_eq_none_iff.mpr (Nat.le_of_not_lt hx)
      by_cases hy : y = x <;> simp [hy, hcol]

/-- A change of the row of `b` leaves the other members of each column alone; `b` itself leaves the columns of the
old row and enters those of the new one. -/
theorem mem_column_setRow (t : Tableau) (b : Var) (f : Option LinearForm) {x c : Var} (hx : x < t.columns.size) :
    c ∈ (t.setRow b f).column x ↔
      if c = b then x ∈ (f.getD []).vars ∨ (x ∉ ((t.row? b).getD []).vars ∧ b ∈ t.column x) else c ∈ t.column x := by
  simp only [column, setRow]
  rw [mem_foldl_modify (p := (· = b)) (b := b) (by intro cs c; rw [mem_enterColumn]; grind),
    mem_foldl_modify (p := fun _ => False) (b := b) (by intro cs c; simp), Table.size_foldl_modify]
  grind

end Tableau

end LinReal
