import LinReal.Store
import LinReal.Proofs.Order
import LinReal.Proofs.Traversal
import Mathlib.Logic.Function.Basic

/-! What the operations of a store do to its values, its committed values and its bounds. Each is a function on all
    variables, so an operation is said by one equation for each of the three. -/

namespace LinReal

/-- The bounds of all variables, by side. -/
abbrev Bounds (τ : Type) := Side → Var → Option (Bound τ)

namespace Store

variable {τ : Type} {s t : Store τ} {x y : Var} {side : Side} {v : DeltaRat}

/-- The value of `x`; zero for a variable without a slot. -/
def value (s : Store τ) (x : Var) : DeltaRat := ((s.slots.get? x).map (·.value)).getD 0

/-- The committed value of `x`; zero for a variable without a slot. -/
def safe (s : Store τ) (x : Var) : DeltaRat := ((s.slots.get? x).map (·.safe)).getD 0

/-- The bounds in a table of slots. -/
def boundsIn (t : Table (Slot τ)) : Bounds τ := fun side x => (t.get? x).bind (·.bound? side)

/-- The bounds in force. -/
def bounds (s : Store τ) : Bounds τ := boundsIn s.slots

/-- Every slot that saves a value is listed as changed. -/
def Tracks (s : Store τ) : Prop := ∀ {x a}, s.slots.get? x = some a → a.saved.isSome → x ∈ s.changed

theorem value_of_get? {a : Slot τ} (h : s.slots.get? x = some a) : s.value x = a.value := by simp [value, h]

theorem safe_of_get? {a : Slot τ} (h : s.slots.get? x = some a) : s.safe x = a.safe := by simp [safe, h]

theorem bounds_of_get? {a : Slot τ} (h : s.slots.get? x = some a) (side : Side) :
    s.bounds side x = a.bound? side := by simp [bounds, boundsIn, h]

theorem exists_slot (h : x < s.size) : ∃ a, s.slots.get? x = some a :=
  Option.isSome_iff_exists.mp (Table.isSome_get?_iff.mpr h)

theorem slot_ok (h : x < s.size) : ∃ a, s.slot x = .ok a ∧ s.slots.get? x = some a := by
  obtain ⟨a, ha⟩ := exists_slot h
  exact ⟨a, slot_eq_ok_iff.mpr ha, ha⟩

/-- The parts of a store that a change of values leaves alone. -/
structure SameBounds (s t : Store τ) : Prop where
  size : t.size = s.size
  scopes : t.scopes = s.scopes
  bounds : t.bounds = s.bounds

theorem SameBounds.refl (s : Store τ) : SameBounds s s := ⟨rfl, rfl, rfl⟩

theorem SameBounds.trans {u : Store τ} (h₁ : SameBounds s t) (h₂ : SameBounds t u) : SameBounds s u :=
  ⟨h₂.size.trans h₁.size, h₂.scopes.trans h₁.scopes, h₂.bounds.trans h₁.bounds⟩

/-! ### Changes of one value -/

theorem part_set {α : Type} (t : Table (Slot τ)) (hx : x < t.size) (a : Slot τ) (p : Slot τ → α) (d : α) :
    (fun y => (((t.set x a).get? y).map p).getD d) = Function.update (fun y => ((t.get? y).map p).getD d) x (p a) := by
  funext y
  by_cases h : y = x
  · subst h
    simp [Table.get?_set, hx]
  · simp [Table.get?_set, Ne.symm h, Function.update_of_ne h]

theorem boundsIn_set {t : Table (Slot τ)} {a b : Slot τ} (hx : t.get? x = some a)
    (h : ∀ side, b.bound? side = a.bound? side) : boundsIn (t.set x b) = boundsIn t := by
  funext side y
  simp only [boundsIn, Table.get?_set]
  split
  · rename_i hy
    rw [← hy.1, hx, Option.bind_some, Option.bind_some, h]
  · rfl

theorem revise_ok {f : Slot τ → Slot τ} (hf : ∀ a side, (f a).bound? side = a.bound? side) (hx : x < s.size) :
    ∃ a t, s.slots.get? x = some a ∧ s.revise x f = .ok t ∧ SameBounds s t ∧
      t.value = Function.update s.value x (f a).value ∧ t.safe = Function.update s.safe x (f a).safe ∧
      (s.Tracks → t.Tracks) := by
  obtain ⟨a, hslot, ha⟩ := slot_ok hx
  have hok : s.revise x f = .ok { s with
      slots := s.slots.set x (f a)
      changed := if (f a).saved.isSome && a.saved.isNone then x :: s.changed else s.changed } := by
    simp only [revise, hslot, ok_bind]
    rfl
  refine ⟨a, _, ha, hok, ⟨Table.size_set _ _ _, rfl, boundsIn_set ha (hf a)⟩,
    part_set s.slots hx _ _ _, part_set s.slots hx _ _ _, fun h {y b} hy hsaved => ?_⟩
  rw [Table.get?_set] at hy
  split at hy
  · rename_i hxy
    obtain rfl := Option.some.inj hy
    obtain rfl := hxy.1
    by_cases hold : a.saved.isNone
    · simp [hsaved, hold]
    · have hin := h ha (by simpa [Option.ne_none_iff_isSome] using hold)
      split
      · exact List.mem_cons_of_mem _ hin
      · exact hin
  · have hin := h hy hsaved
    split
    · exact List.mem_cons_of_mem _ hin
    · exact hin

theorem assign_ok (hx : x < s.size) (v : DeltaRat) :
    ∃ t, s.assign x v = .ok t ∧ SameBounds s t ∧ t.value = Function.update s.value x v ∧ t.safe = s.safe ∧
      (s.Tracks → t.Tracks) := by
  obtain ⟨a, t, ha, ht, hsame, hvalue, hsafe, htracks⟩ :=
    revise_ok (s := s) (f := (·.assign v)) (fun a side => by cases side <;> rfl) hx
  refine ⟨t, ht, hsame, hvalue, ?_, htracks⟩
  rw [hsafe, Slot.safe_assign, ← safe_of_get? ha, Function.update_eq_self]

theorem assignBoth_ok (hx : x < s.size) (v safe : DeltaRat) :
    ∃ t, s.assignBoth x v safe = .ok t ∧ SameBounds s t ∧ t.value = Function.update s.value x v ∧
      t.safe = Function.update s.safe x safe ∧ (s.Tracks → t.Tracks) := by
  obtain ⟨a, t, ha, ht, hsame, hvalue, hsafe, htracks⟩ :=
    revise_ok (s := s) (f := (·.assignBoth v safe)) (fun a side => by cases side <;> rfl) hx
  exact ⟨t, ht, hsame, hvalue, by rw [hsafe, Slot.safe_assignBoth], htracks⟩

theorem install_view (s : Store τ) (x : Var) (v : DeltaRat) :
    (s.install x v).size = max s.size (x + 1) ∧ (s.install x v).value = Function.update s.value x v ∧
      (s.install x v).safe = Function.update s.safe x v ∧
      ((∀ side, s.bounds side x = none) → (s.install x v).bounds = s.bounds) ∧
      (s.Tracks → (s.install x v).Tracks) := by
  have hpart : ∀ {α : Type} (p : Slot τ → α) (d : α), p (.fresh 0) = d → (fun y =>
      (((s.install x v).slots.get? y).map p).getD d) =
        Function.update (fun y => ((s.slots.get? y).map p).getD d) x (p (.fresh v)) := by
    intro α p d hd
    funext y
    rw [get?_install]
    by_cases hy : y = x
    · simp [hy]
    · rw [if_neg (Ne.symm hy), Function.update_of_ne hy]
      by_cases hlt : y < s.slots.size
      · rw [if_pos hlt]
      · rw [if_neg hlt, Table.get?_eq_none_iff.mpr (Nat.le_of_not_lt hlt)]
        split <;> simp [hd]
  refine ⟨?_, hpart (·.value) 0 rfl, hpart (·.safe) 0 rfl, fun hnone => ?_, fun h {y a} hy hsaved => ?_⟩
  · exact (Table.size_set _ _ _).trans (Table.size_grow _ _ _)
  · funext side y
    simp only [bounds, boundsIn, get?_install] at hnone ⊢
    by_cases hy : y = x
    · subst hy
      rw [hnone side]
      simp only [if_true, Option.bind_some]
      cases side <;> rfl
    · rw [if_neg (Ne.symm hy)]
      by_cases hlt : y < s.slots.size
      · rw [if_pos hlt]
      · rw [if_neg hlt, Table.get?_eq_none_iff.mpr (Nat.le_of_not_lt hlt)]
        split
        · cases side <;> rfl
        · rfl
  · rw [get?_install] at hy
    split at hy
    · obtain rfl := Option.some.inj hy
      cases hsaved
    · split at hy
      · exact h hy hsaved
      · split at hy
        · obtain rfl := Option.some.inj hy
          cases hsaved
        · cases hy

/-! ### Commit and revert -/

theorem get?_foldl_modify {f : Slot τ → Slot τ} (hf : ∀ a, f (f a) = f a) (xs : List Var) (t : Table (Slot τ)) (y : Var) :
    (xs.foldl (fun t x => t.modify x f) t).get? y = if y ∈ xs then (t.get? y).map f else t.get? y := by
  induction xs generalizing t with
  | nil => simp
  | cons x xs ih =>
    rw [List.foldl_cons, ih, Table.get?_modify]
    by_cases hx : x = y
    · subst hx
      by_cases hy : x ∈ xs <;> cases t.get? x <;> simp [hy, hf]
    · simp [hx, Ne.symm hx]

/-- A slot of a store that tracks its changes, after an idempotent function was applied to the changed ones, if the
    function leaves a slot alone that saves no value. -/
theorem get?_changed (h : s.Tracks) {f : Slot τ → Slot τ} (hf : ∀ a, f (f a) = f a)
    (hnone : ∀ a, a.saved = none → f a = a) (y : Var) :
    (s.changed.foldl (fun t x => t.modify x f) s.slots).get? y = (s.slots.get? y).map f := by
  rw [get?_foldl_modify hf]
  split
  · rfl
  · rename_i hy
    cases ha : s.slots.get? y with
    | none => rfl
    | some a =>
      have hsaved : a.saved = none := by
        by_contra hne
        exact hy (h ha (Option.isSome_iff_ne_none.mpr hne))
      rw [Option.map_some, hnone a hsaved]

theorem boundsIn_foldl_modify {f : Slot τ → Slot τ} (hf : ∀ a side, (f a).bound? side = a.bound? side) (xs : List Var)
    (t : Table (Slot τ)) : boundsIn (xs.foldl (fun t x => t.modify x f) t) = boundsIn t := by
  induction xs generalizing t with
  | nil => rfl
  | cons x xs ih =>
    rw [List.foldl_cons, ih]
    funext side y
    simp only [boundsIn, Table.get?_modify]
    split
    · cases t.get? y <;> simp [hf]
    · rfl

theorem sameBounds_commit (s : Store τ) : SameBounds s s.commit :=
  ⟨Table.size_foldl_modify _ _ _, rfl, boundsIn_foldl_modify (fun _ side => by cases side <;> rfl) _ _⟩

theorem sameBounds_revert (s : Store τ) : SameBounds s s.revert :=
  ⟨Table.size_foldl_modify _ _ _, rfl, boundsIn_foldl_modify (fun _ side => by cases side <;> rfl) _ _⟩

theorem commit_view (h : s.Tracks) : SameBounds s s.commit ∧ s.commit.value = s.value ∧ s.commit.safe = s.value ∧
    s.commit.Tracks := by
  have hget : ∀ y, s.commit.slots.get? y = (s.slots.get? y).map Slot.commit :=
    get?_changed h (fun _ => rfl) (fun a ha => by cases a; cases ha; rfl)
  refine ⟨sameBounds_commit s, ?_, ?_, fun {x a} hx hsaved => ?_⟩
  · funext y
    simp only [value, hget]
    cases s.slots.get? y <;> rfl
  · funext y
    simp only [value, safe, hget]
    cases s.slots.get? y <;> rfl
  · rw [hget] at hx
    obtain ⟨b, -, rfl⟩ := Option.map_eq_some_iff.mp hx
    cases hsaved

theorem revert_view (h : s.Tracks) : SameBounds s s.revert ∧ s.revert.value = s.safe ∧ s.revert.safe = s.safe ∧
    s.revert.Tracks := by
  have hget : ∀ y, s.revert.slots.get? y = (s.slots.get? y).map Slot.revert :=
    get?_changed h (fun _ => rfl) (fun a ha => by cases a; cases ha; rfl)
  refine ⟨sameBounds_revert s, ?_, ?_, fun {x a} hx hsaved => ?_⟩
  · funext y
    simp only [value, safe, hget]
    cases s.slots.get? y <;> rfl
  · funext y
    simp only [safe, hget]
    cases s.slots.get? y <;> rfl
  · rw [hget] at hx
    obtain ⟨b, -, rfl⟩ := Option.map_eq_some_iff.mp hx
    cases hsaved

end Store

end LinReal
