import LinReal.Queue
import Mathlib.Data.List.TakeWhile
import Mathlib.Order.Nat

/-! The queue of a repair under its operations. Entries are only added until one is taken; in the anti-cycle stage the
    entries ascend, so the one that is taken is the smallest of those that are still wanted. -/

namespace LinReal

/-! ### Insertion -/

theorem pairwise_insertBy {α : Type} {before : α → α → Bool} {R : α → α → Prop} (htrans : ∀ {a b c}, R a b → R b c → R a c)
    (hbefore : ∀ {a b}, before a b = true → R a b) (hafter : ∀ {a b}, before a b = false → R b a) {a : α} {as : List α}
    (h : as.Pairwise R) : (RepairQueue.insertBy before a as).Pairwise R := by
  induction as with
  | nil => exact List.pairwise_singleton _ _
  | cons b bs ih =>
    obtain ⟨hb, hbs⟩ := List.pairwise_cons.mp h
    simp only [RepairQueue.insertBy]
    split
    · rename_i hab
      refine List.pairwise_cons.mpr ⟨fun c hc => ?_, h⟩
      rcases List.mem_cons.mp hc with rfl | hc
      · exact hbefore hab
      · exact htrans (hbefore hab) (hb c hc)
    · rename_i hab
      refine List.pairwise_cons.mpr ⟨fun c hc => ?_, ih hbs⟩
      rcases List.mem_cons.mp ((RepairQueue.insertBy_perm before a bs).mem_iff.mp hc) with rfl | hc
      · exact hafter (Bool.eq_false_iff.mpr hab)
      · exact hb c hc

theorem pairwise_insertBy_lt {x : Var} {xs : List Var} (h : xs.Pairwise (· ≤ ·)) :
    (RepairQueue.insertBy (fun a b => a < b) x xs).Pairwise (· ≤ ·) :=
  pairwise_insertBy (R := (· ≤ ·)) le_trans (fun h => (of_decide_eq_true h).le) (fun h => not_lt.mp (of_decide_eq_false h)) h

namespace RepairQueue

variable {q q' q'' : RepairQueue} {x y : Var} {p : Var → Bool}

/-- In the anti-cycle stage the entries ascend. -/
def Sorted : RepairQueue → Prop
  | byAmount _ => True
  | byIndex xs => xs.Pairwise (· ≤ ·)

/-- Entries are added, and the stage stays. -/
structure Grows (q q' : RepairQueue) : Prop where
  mem : ∀ {x}, x ∈ q.order → x ∈ q'.order
  stage : q'.stage = q.stage
  sorted : q.Sorted → q'.Sorted

theorem Grows.refl (q : RepairQueue) : Grows q q := ⟨id, rfl, id⟩

theorem Grows.trans (h₁ : Grows q q') (h₂ : Grows q' q'') : Grows q q'' :=
  ⟨h₂.mem ∘ h₁.mem, h₂.stage.trans h₁.stage, h₂.sorted ∘ h₁.sorted⟩

theorem grows_push (q : RepairQueue) (x : Var) (amount : DeltaRat) : Grows q (q.push x amount) := by
  refine ⟨fun hy => (order_push q x amount).mem_iff.mpr (List.mem_cons_of_mem _ hy), ?_, ?_⟩
  · cases q <;> rfl
  · intro h
    cases q with
    | byAmount es => trivial
    | byIndex xs => exact pairwise_insertBy_lt h

theorem mem_push (q : RepairQueue) (x : Var) (amount : DeltaRat) : x ∈ (q.push x amount).order :=
  (order_push q x amount).mem_iff.mpr List.mem_cons_self

theorem sorted_switch (q : RepairQueue) : q.switch.Sorted :=
  List.foldlRecOn (motive := List.Pairwise (· ≤ ·)) q.order _ List.Pairwise.nil fun _ h _ _ => pairwise_insertBy_lt h

theorem mem_switch : x ∈ q.switch.order ↔ x ∈ q.order := (order_switch q).mem_iff

theorem cleared_view (q : RepairQueue) : q.cleared.order = [] ∧ q.cleared.stage = q.stage ∧ q.cleared.Sorted := by
  cases q with
  | byAmount es => exact ⟨rfl, rfl, trivial⟩
  | byIndex xs => exact ⟨rfl, rfl, List.Pairwise.nil⟩

/-! ### Taking the first wanted entry -/

theorem order_dropUntil (p : Var → Bool) (q : RepairQueue) :
    (q.dropUntil p).order = q.order.dropWhile fun x => !p x := by
  cases q with
  | byAmount es =>
    simp only [dropUntil, order]
    induction es with
    | nil => rfl
    | cons e es ih =>
      simp only [List.dropWhile_cons, List.map_cons]
      split
      · exact ih
      · rfl
  | byIndex xs => rfl

theorem stage_dropUntil (p : Var → Bool) (q : RepairQueue) : (q.dropUntil p).stage = q.stage := by cases q <;> rfl

theorem sorted_dropUntil (p : Var → Bool) (h : q.Sorted) : (q.dropUntil p).Sorted := by
  cases q with
  | byAmount es => trivial
  | byIndex xs => exact h.sublist (List.dropWhile_sublist _)

theorem sorted_pop (hs : q.Sorted) (h : q.pop = some (x, q')) :
    q'.stage = q.stage ∧ q'.Sorted ∧ (q.stage = .antiCycle → ∀ y ∈ q'.order, x ≤ y) := by
  match q, h with
  | byAmount (_ :: _), h =>
    cases h
    exact ⟨rfl, trivial, fun h => by cases h⟩
  | byIndex (_ :: _), h =>
    cases h
    obtain ⟨hx, hxs⟩ := List.pairwise_cons.mp hs
    exact ⟨rfl, hxs, fun _ => hx⟩

theorem not_wanted_of_pop_eq_none (h : (q.dropUntil p).pop = none) (hx : x ∈ q.order) : p x = false := by
  rw [pop_eq_none_iff, isEmpty, order_dropUntil, List.isEmpty_iff, List.dropWhile_eq_nil_iff] at h
  simpa using h x hx

/-- The entry that is taken is wanted, and no wanted entry is lost but the one that is taken. -/
theorem taken (h : (q.dropUntil p).pop = some (x, q')) :
    p x = true ∧ x ∈ q.order ∧ ∀ y ∈ q.order, p y = true → y = x ∨ y ∈ q'.order := by
  have horder := order_eq_of_pop h
  rw [order_dropUntil] at horder
  have hx : p x = true := by
    have hne : q.order.dropWhile (fun x => !p x) ≠ [] := by simp [horder]
    have := List.head_dropWhile_not (fun x => !p x) hne
    simpa [horder] using this
  have hsplit := List.takeWhile_append_dropWhile (p := fun x => !p x) (l := q.order)
  rw [horder] at hsplit
  refine ⟨hx, by rw [← hsplit]; simp, fun y hy hp => ?_⟩
  rw [← hsplit] at hy
  rcases List.mem_append.mp hy with hy | hy
  · have := List.mem_takeWhile_imp hy
    simp [hp] at this
  · exact List.mem_cons.mp hy

end RepairQueue

end LinReal
