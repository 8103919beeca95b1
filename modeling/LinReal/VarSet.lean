import LinReal.Table

/-!
Sets of variables, as one mark for each variable below the size of a table, and a count of the marks. The count
follows the marks through every change. The solver's basis is such a set; a variable enters it only from outside and
leaves it only from inside.
-/

namespace LinReal

/-- A set of variables: those whose slot holds `true`, and their number. -/
structure VarSet where
  marks : Table Bool
  card : Nat
  card_eq : card = marks.count true
deriving DecidableEq, Repr

namespace VarSet

def empty : VarSet := ⟨.empty, 0, rfl⟩

instance : Inhabited VarSet := ⟨empty⟩

def size (s : VarSet) : Nat := s.marks.size

/-- Whether `x` is in the set; a variable without a slot is not. -/
def contains (s : VarSet) (x : Var) : Bool := (s.marks.get? x).getD false

instance : Membership Var VarSet := ⟨fun s x => s.contains x = true⟩

instance (x : Var) (s : VarSet) : Decidable (x ∈ s) := inferInstanceAs (Decidable (s.contains x = true))

theorem mem_def {s : VarSet} {x : Var} : x ∈ s ↔ s.contains x = true := Iff.rfl

theorem mem_iff {s : VarSet} {x : Var} : x ∈ s ↔ s.marks.get? x = some true := by
  rw [mem_def, contains]
  cases s.marks.get? x <;> simp

def members (s : VarSet) : List Var := (List.range s.size).filter s.contains

/-- Makes room for `x`, without adding it. -/
def grow (s : VarSet) (x : Var) : VarSet :=
  ⟨s.marks.grow x false, s.card, s.card_eq.trans (s.marks.count_grow x Bool.false_ne_true).symm⟩

@[simp] theorem mem_grow {s : VarSet} {x y : Var} : y ∈ s.grow x ↔ y ∈ s := by
  simp only [mem_iff, grow, Table.get?_grow]
  by_cases h : y < s.marks.size
  · simp [h]
  · have : s.marks.get? y = none := Table.get?_eq_none_iff.mpr (Nat.le_of_not_lt h)
    by_cases h' : y ≤ x <;> simp [h, h', this]

/-- The slot of a variable outside the set, once there is room for it. -/
theorem get?_grow_of_not_mem {s : VarSet} {x : Var} (h : x ∉ s) : (s.grow x).marks.get? x = some false := by
  have hlt : x < (s.grow x).marks.size := by
    rw [grow, Table.size_grow]
    exact Nat.lt_of_lt_of_le (Nat.lt_succ_self x) (Nat.le_max_right _ _)
  obtain ⟨b, hb⟩ := Option.isSome_iff_exists.mp (Table.isSome_get?_iff.mpr hlt)
  cases b with
  | false => exact hb
  | true => exact absurd (mem_grow.mp (mem_iff.mpr hb)) h

def insert (s : VarSet) (x : Var) : VarSet :=
  if h : x ∈ s then s
  else
    ⟨(s.grow x).marks.set x true, s.card + 1, by
      rw [Table.count_set_of_ne (get?_grow_of_not_mem h) Bool.false_ne_true, ← (s.grow x).card_eq]
      rfl⟩

def erase (s : VarSet) (x : Var) : VarSet :=
  if h : x ∈ s then
    ⟨s.marks.set x false, s.card - 1, by
      rw [Table.count_set_of_eq (mem_iff.mp h) Bool.false_ne_true, s.card_eq]⟩
  else s

/-- Adds a variable that is not in the set yet. -/
def enter (s : VarSet) (x : Var) : Except Fault VarSet :=
  if x ∈ s then .error (.alreadyBasic x) else .ok (s.insert x)

/-- Takes a member out. -/
def leave (s : VarSet) (x : Var) : Except Fault VarSet :=
  if x ∈ s then .ok (s.erase x) else .error (.notBasic x)

/-! ### Membership -/

theorem not_mem_empty (x : Var) : x ∉ empty := by simp [mem_iff, empty]

@[simp] theorem mem_insert {s : VarSet} {x y : Var} : y ∈ s.insert x ↔ y = x ∨ y ∈ s := by
  unfold insert
  split
  · rename_i h
    constructor
    · exact Or.inr
    · rintro (rfl | hy)
      · exact h
      · exact hy
  · rename_i h
    have hx : x < (s.grow x).marks.size := Table.lt_size_of_get? (get?_grow_of_not_mem h)
    rw [mem_iff, Table.get?_set, ← @mem_grow s x y, mem_iff]
    by_cases hxy : x = y
    · simp [hxy, hxy ▸ hx]
    · simp [hxy, Ne.symm hxy]

@[simp] theorem mem_erase {s : VarSet} {x y : Var} : y ∈ s.erase x ↔ y ≠ x ∧ y ∈ s := by
  unfold erase
  split
  · rename_i h
    have hx : x < s.marks.size := Table.lt_size_of_get? (mem_iff.mp h)
    rw [mem_iff, Table.get?_set, mem_iff]
    by_cases hxy : x = y
    · simp [hxy, hxy ▸ hx]
    · simp [hxy, Ne.symm hxy]
  · rename_i h
    constructor
    · intro hy
      refine ⟨?_, hy⟩
      rintro rfl
      exact h hy
    · exact And.right

@[simp] theorem size_erase (s : VarSet) (x : Var) : (s.erase x).size = s.size := by
  unfold erase
  split
  · exact Table.size_set _ _ _
  · rfl

theorem size_insert {s : VarSet} {x : Var} (hx : x < s.size) : (s.insert x).size = s.size := by
  unfold insert
  split
  · rfl
  · have hgrow : (s.grow x).marks.size = s.size := (Table.size_grow _ _ _).trans (Nat.max_eq_left hx)
    exact (Table.size_set _ _ _).trans hgrow

@[simp] theorem mem_members {s : VarSet} {x : Var} : x ∈ s.members ↔ x ∈ s := by
  simp only [members, List.mem_filter, List.mem_range, size, mem_def]
  refine ⟨fun h => h.2, fun h => ⟨?_, h⟩⟩
  exact Table.lt_size_of_get? (mem_iff.mp h)

theorem nodup_members (s : VarSet) : s.members.Nodup := List.nodup_range.filter _

theorem length_members (s : VarSet) : s.members.length = s.card := by
  rw [s.card_eq, Table.count, ← Array.count_toList, ← Table.toList, s.marks.toList_eq_map false, List.count_eq_countP,
    List.countP_map, members, ← List.countP_eq_length_filter]
  refine List.countP_congr fun x _ => ?_
  simp [contains]

theorem ext_marks {s t : VarSet} (h : s.marks = t.marks) : s = t := by
  cases s with
  | mk marks card card_eq =>
    cases t with
    | mk marks' card' card_eq' =>
      cases h
      cases card_eq.trans card_eq'.symm
      rfl

theorem ext {s t : VarSet} (hsize : s.size = t.size) (hmem : ∀ x, x ∈ s ↔ x ∈ t) : s = t := by
  refine ext_marks (Table.ext fun x => ?_)
  have hx := hmem x
  rw [mem_iff, mem_iff] at hx
  cases hs : s.marks.get? x with
  | none =>
    have hle : t.marks.size ≤ x := Nat.le_trans (Nat.le_of_eq hsize.symm) (Table.get?_eq_none_iff.mp hs)
    exact (Table.get?_eq_none_iff.mpr hle).symm
  | some b =>
    have hlt : x < t.marks.size := Nat.lt_of_lt_of_le (Table.lt_size_of_get? hs) (Nat.le_of_eq hsize)
    obtain ⟨c, hc⟩ := Option.isSome_iff_exists.mp (Table.isSome_get?_iff.mpr hlt)
    rw [hs, hc] at hx
    rw [hc]
    cases b <;> cases c <;> simp_all

end VarSet

end LinReal
