import LinReal.Bound
import LinReal.Fault

/-!
The trail of the bounds that were replaced inside scopes. All scopes share one list of changes; each open scope has a mark,
the length of the list when the scope was opened, and closing a scope takes the changes since its mark off the list. The
view of a trail are its scopes, each with the changes made in it; two trails with the same view are equal.
-/

namespace LinReal

/-- A bound that was replaced. -/
structure BoundChange (τ : Type) where
  var : Var
  side : Side
  previous : Option (Bound τ)
deriving DecidableEq, Repr

/-- Marks, the latest first, cut a list of `n` changes: each lies at or before the one after it, and nothing lies before
the first. -/
def Trail.Marked : Nat → List Nat → Prop
  | n, [] => n = 0
  | n, mark :: outer => mark ≤ n ∧ Marked mark outer

/-- The bounds replaced in the open scopes. -/
structure Trail (τ : Type) where
  /-- The changes in all open scopes, the latest first. -/
  changes : List (BoundChange τ)
  /-- How many changes there were when each open scope was opened, innermost scope first. -/
  marks : List Nat
  marked : Trail.Marked changes.length marks
deriving DecidableEq, Repr

namespace Trail

variable {τ : Type}

def empty : Trail τ := ⟨[], [], rfl⟩

instance : Inhabited (Trail τ) := ⟨empty⟩

def depth (t : Trail τ) : Nat := t.marks.length

theorem Marked.succ {n : Nat} {marks : List Nat} (h : Marked n marks) (hne : marks ≠ []) : Marked (n + 1) marks := by
  cases marks with
  | nil => exact absurd rfl hne
  | cons mark outer => exact ⟨Nat.le_succ_of_le h.1, h.2⟩

/-- What is left of the list without the changes since the latest mark. -/
theorem Marked.drop {changes : List (BoundChange τ)} {mark : Nat} {outer : List Nat}
    (h : Marked changes.length (mark :: outer)) : Marked (changes.drop (changes.length - mark)).length outer := by
  rw [List.length_drop, Nat.sub_sub_self h.1]
  exact h.2

/-- Remembers a change, if a scope is open. -/
def record (t : Trail τ) (c : BoundChange τ) : Trail τ :=
  if h : t.marks = [] then t else ⟨c :: t.changes, t.marks, t.marked.succ h⟩

def push (t : Trail τ) : Trail τ := ⟨t.changes, t.changes.length :: t.marks, Nat.le_refl _, t.marked⟩

/-- Closes the innermost scope, if one is open. Answers the changes made in it, the latest first. -/
def pop? : Trail τ → Option (List (BoundChange τ) × Trail τ)
  | ⟨_, [], _⟩ => none
  | ⟨changes, mark :: outer, h⟩ =>
    let n := changes.length - mark
    some (changes.take n, ⟨changes.drop n, outer, h.drop⟩)

/-! ### The view -/

/-- A list of changes, cut at the marks. -/
def cut (changes : List (BoundChange τ)) : List Nat → List (List (BoundChange τ))
  | [] => []
  | mark :: outer =>
    let n := changes.length - mark
    changes.take n :: cut (changes.drop n) outer

/-- The changes made in each open scope, innermost scope and latest change first. -/
def scopes (t : Trail τ) : List (List (BoundChange τ)) := cut t.changes t.marks

@[simp] theorem scopes_empty : (empty : Trail τ).scopes = [] := rfl

theorem length_cut (changes : List (BoundChange τ)) (marks : List Nat) : (cut changes marks).length = marks.length := by
  induction marks generalizing changes with
  | nil => rfl
  | cons mark outer ih => rw [cut, List.length_cons, ih, List.length_cons]

@[simp] theorem length_scopes (t : Trail τ) : t.scopes.length = t.depth := length_cut _ _

@[simp] theorem scopes_push (t : Trail τ) : t.push.scopes = [] :: t.scopes := by
  simp only [scopes, push, cut, Nat.sub_self, List.take_zero, List.drop_zero]

/-- A change belongs to the innermost scope. -/
theorem scopes_record (t : Trail τ) (c : BoundChange τ) : (t.record c).scopes = t.scopes.modifyHead (c :: ·) := by
  obtain ⟨changes, marks, h⟩ := t
  cases marks with
  | nil => rfl
  | cons mark outer =>
    have hlength : (c :: changes).length - mark = changes.length - mark + 1 := Nat.sub_add_comm h.1
    simp only [record, reduceCtorEq, dite_false, scopes, cut, hlength, List.take_succ_cons, List.drop_succ_cons,
      List.modifyHead_cons]

theorem scopes_of_pop?_none {t : Trail τ} (h : t.pop? = none) : t.scopes = [] := by
  obtain ⟨changes, marks, hm⟩ := t
  cases marks with
  | nil => rfl
  | cons mark outer => cases h

theorem scopes_of_pop? {t u : Trail τ} {scope : List (BoundChange τ)} (h : t.pop? = some (scope, u)) :
    t.scopes = scope :: u.scopes := by
  obtain ⟨changes, marks, hm⟩ := t
  cases marks with
  | nil => cases h
  | cons mark outer =>
    cases h
    rfl

theorem flatten_cut {changes : List (BoundChange τ)} {marks : List Nat} (h : Marked changes.length marks) :
    (cut changes marks).flatten = changes := by
  induction marks generalizing changes with
  | nil => exact (List.eq_nil_of_length_eq_zero h).symm
  | cons mark outer ih => rw [cut, List.flatten_cons, ih h.drop, List.take_append_drop]

theorem marks_eq_of_cut {changes : List (BoundChange τ)} {marks marks' : List Nat} (h : Marked changes.length marks)
    (h' : Marked changes.length marks') (heq : cut changes marks = cut changes marks') : marks = marks' := by
  induction marks generalizing changes marks' with
  | nil =>
    cases marks' with
    | nil => rfl
    | cons mark' outer' => cases heq
  | cons mark outer ih =>
    cases marks' with
    | nil => cases heq
    | cons mark' outer' =>
      obtain ⟨hhead, htail⟩ := List.cons.inj heq
      have hmark : mark = mark' := by
        have hlength := congrArg List.length hhead
        simp only [List.length_take] at hlength
        have hle := h.1
        have hle' := h'.1
        omega
      subst hmark
      rw [ih h.drop h'.drop htail]

@[ext] theorem ext_scopes {t u : Trail τ} (h : t.scopes = u.scopes) : t = u := by
  obtain ⟨changes, marks, hm⟩ := t
  obtain ⟨changes', marks', hm'⟩ := u
  obtain rfl : changes = changes' := by
    rw [← flatten_cut hm, ← flatten_cut hm']
    exact congrArg List.flatten h
  obtain rfl := marks_eq_of_cut hm hm' h
  rfl

end Trail

end LinReal
