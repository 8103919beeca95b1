import LinReal.Fault

/-!
Growable tables indexed by variable: a slot for every number below the size. The view of a table is `get?`; each
operation comes with the equation that says what it does to that view, and two tables with the same view are equal.
-/

namespace LinReal

/-- One value for each number below the size. -/
structure Table (α : Type u) where
  slots : Array α
deriving DecidableEq, Repr

namespace Table

variable {α : Type u}

def empty : Table α := ⟨#[]⟩

instance : Inhabited (Table α) := ⟨empty⟩

def size (t : Table α) : Nat := t.slots.size

/-- The value in slot `x`, if there is one. -/
def get? (t : Table α) (x : Nat) : Option α := t.slots[x]?

/-- The value in slot `x`, which must exist. -/
def read (t : Table α) (x : Nat) : Except Fault α :=
  match t.get? x with
  | some a => .ok a
  | none => .error .outOfRange

/-- Makes room for slot `x`; new slots hold `a`. -/
def grow (t : Table α) (x : Nat) (a : α) : Table α :=
  ⟨t.slots ++ Array.replicate (x + 1 - t.slots.size) a⟩

def set (t : Table α) (x : Nat) (a : α) : Table α := ⟨t.slots.setIfInBounds x a⟩

def modify (t : Table α) (x : Nat) (f : α → α) : Table α := ⟨t.slots.modify x f⟩

def toList (t : Table α) : List α := t.slots.toList

/-- How many slots hold `a`. -/
def count [BEq α] (t : Table α) (a : α) : Nat := t.slots.count a

/-! ### The view -/

@[simp] theorem size_empty : (empty : Table α).size = 0 := rfl

@[simp] theorem get?_empty (x : Nat) : (empty : Table α).get? x = none := by simp [get?, empty]

theorem get?_eq_none_iff {t : Table α} {x : Nat} : t.get? x = none ↔ t.size ≤ x := by simp [get?, size]

theorem isSome_get?_iff {t : Table α} {x : Nat} : (t.get? x).isSome ↔ x < t.size := by simp [get?, size]

theorem lt_size_of_get? {t : Table α} {x : Nat} {a : α} (h : t.get? x = some a) : x < t.size :=
  isSome_get?_iff.mp (by simp [h])

theorem read_eq_ok_iff {t : Table α} {x : Nat} {a : α} : t.read x = .ok a ↔ t.get? x = some a := by
  simp only [read]
  cases t.get? x <;> simp

@[simp] theorem size_grow (t : Table α) (x : Nat) (a : α) : (t.grow x a).size = max t.size (x + 1) := by
  simp only [size, grow, Array.size_append, Array.size_replicate]
  omega

theorem get?_grow (t : Table α) (x : Nat) (a : α) (y : Nat) :
    (t.grow x a).get? y = if y < t.size then t.get? y else if y ≤ x then some a else none := by
  simp only [get?, grow, size, Array.getElem?_append, Array.getElem?_replicate]
  by_cases h : y < t.slots.size
  · simp [h]
  · by_cases h' : y ≤ x
    · have : y - t.slots.size < x + 1 - t.slots.size := by omega
      simp [h, h', this]
    · have : ¬y - t.slots.size < x + 1 - t.slots.size := by omega
      simp [h, h', this]

@[simp] theorem size_set (t : Table α) (x : Nat) (a : α) : (t.set x a).size = t.size := by
  simp [size, set]

theorem get?_set (t : Table α) (x : Nat) (a : α) (y : Nat) :
    (t.set x a).get? y = if x = y ∧ x < t.size then some a else t.get? y := by
  simp only [get?, set, size, Array.getElem?_setIfInBounds]
  by_cases h : x = y
  · subst h
    by_cases h' : x < t.slots.size <;> simp [h']
  · simp [h]

@[simp] theorem size_modify (t : Table α) (x : Nat) (f : α → α) : (t.modify x f).size = t.size := by
  simp [size, modify]

theorem get?_modify (t : Table α) (x : Nat) (f : α → α) (y : Nat) :
    (t.modify x f).get? y = if x = y then (t.get? y).map f else t.get? y := by
  simp only [get?, modify, Array.getElem?_modify]

theorem size_foldl_modify (f : α → α) (xs : List Nat) (t : Table α) :
    (xs.foldl (fun t x => t.modify x f) t).size = t.size := by
  induction xs generalizing t with
  | nil => rfl
  | cons x xs ih => rw [List.foldl_cons, ih, size_modify]

/-! ### Counting -/

section Count

variable [BEq α] [LawfulBEq α]

theorem count_grow (t : Table α) (x : Nat) {a b : α} (h : b ≠ a) : (t.grow x b).count a = t.count a := by
  simp [count, grow, Array.count_replicate, h]

/-- A slot that comes to hold `a` counts one more. -/
theorem count_set_of_ne {t : Table α} {x : Nat} {a b : α} (h : t.get? x = some b) (hne : b ≠ a) :
    (t.set x a).count a = t.count a + 1 := by
  obtain ⟨hx, hb⟩ := Array.getElem?_eq_some_iff.mp h
  simp [count, set, Array.setIfInBounds_def, hx, Array.count_set, hb, hne]

/-- A slot that held `a` and comes to hold something else counts one less. -/
theorem count_set_of_eq {t : Table α} {x : Nat} {a b : α} (h : t.get? x = some a) (hne : b ≠ a) :
    (t.set x b).count a = t.count a - 1 := by
  obtain ⟨hx, ha⟩ := Array.getElem?_eq_some_iff.mp h
  simp [count, set, Array.setIfInBounds_def, hx, Array.count_set, ha, hne]

end Count

theorem toList_eq_map (t : Table α) (a : α) : t.toList = (List.range t.size).map fun x => (t.get? x).getD a := by
  refine List.ext_getElem (by simp [toList, size]) fun x hx _ => ?_
  have hlt : x < t.slots.size := by simpa [toList] using hx
  simp [toList, get?, hlt]

@[ext] theorem ext {t u : Table α} (h : ∀ x, t.get? x = u.get? x) : t = u := by
  cases t; cases u
  congr 1
  exact Array.ext_getElem? h

end Table

end LinReal
