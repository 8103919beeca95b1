import LinReal.Table

/-! Computations that may fail: what a success says of their steps. -/

namespace LinReal

variable {ε α β γ σ : Type}

theorem bind_eq_ok {x : Except ε α} {f : α → Except ε β} {b : β} :
    (x >>= f) = .ok b ↔ ∃ a, x = .ok a ∧ f a = .ok b := by
  cases x <;> simp [bind, Except.bind]

theorem bind_eq_error {x : Except ε α} {f : α → Except ε β} {e : ε} :
    (x >>= f) = .error e ↔ x = .error e ∨ ∃ a, x = .ok a ∧ f a = .error e := by
  cases x <;> simp [bind, Except.bind]

theorem ok_bind (a : α) (f : α → Except ε β) : (Except.ok a >>= f) = f a := rfl

/-- Two computations that begin with the same step go on with its value. -/
theorem same_of_bind {x x' : Except ε α} {f : α → Except ε β} {f' : α → Except ε γ} {b : β} {b' : γ} (hx : x' = x)
    (h : (x >>= f) = .ok b) (h' : (x' >>= f') = .ok b') : ∃ a, x = .ok a ∧ f a = .ok b ∧ f' a = .ok b' := by
  obtain ⟨a, ha, h⟩ := bind_eq_ok.mp h
  rw [hx, ha] at h'
  exact ⟨a, ha, h, h'⟩

/-- A traversal every step of which succeeds with the value that `value` gives. -/
theorem mapM_eq_ok {f : α → Except ε β} {value : α → β} {xs : List α} (h : ∀ x ∈ xs, f x = .ok (value x)) :
    xs.mapM f = .ok (xs.map value) := by
  induction xs with
  | nil => rfl
  | cons x xs ih =>
    rw [List.mapM_cons, h x List.mem_cons_self, ok_bind, ih fun y hy => h y (List.mem_cons_of_mem _ hy)]
    rfl

/-- Every value that a traversal gives is that of some element. -/
theorem exists_of_mapM {f : α → Except ε β} {xs : List α} {ys : List β} (h : xs.mapM f = .ok ys) {y : β} (hy : y ∈ ys) :
    ∃ x ∈ xs, f x = .ok y := by
  induction xs generalizing ys with
  | nil =>
    cases h
    cases hy
  | cons x xs ih =>
    rw [List.mapM_cons] at h
    obtain ⟨z, hz, h⟩ := bind_eq_ok.mp h
    obtain ⟨zs, hzs, h⟩ := bind_eq_ok.mp h
    cases h
    rcases List.mem_cons.mp hy with rfl | hy
    · exact ⟨x, List.mem_cons_self, hz⟩
    · obtain ⟨x', hx', hfx⟩ := ih hzs hy
      exact ⟨x', List.mem_cons_of_mem _ hx', hfx⟩

/-- The value of every element is among those that a traversal gives. -/
theorem mem_of_mapM {f : α → Except ε β} {xs : List α} {ys : List β} (h : xs.mapM f = .ok ys) {x : α} (hx : x ∈ xs) :
    ∃ y ∈ ys, f x = .ok y := by
  induction xs generalizing ys with
  | nil => cases hx
  | cons z zs ih =>
    rw [List.mapM_cons] at h
    obtain ⟨w, hw, h⟩ := bind_eq_ok.mp h
    obtain ⟨ws, hws, h⟩ := bind_eq_ok.mp h
    cases h
    rcases List.mem_cons.mp hx with rfl | hx
    · exact ⟨w, List.mem_cons_self, hw⟩
    · obtain ⟨y, hy, hxy⟩ := ih hws hx
      exact ⟨y, List.mem_cons_of_mem _ hy, hxy⟩

/-- What every step preserves a run of such steps preserves. -/
theorem foldlM_invariant {f : σ → α → Except ε σ} {P : σ → Prop} (hf : ∀ {s t x}, P s → f s x = .ok t → P t)
    {xs : List α} {s t : σ} (hs : P s) (h : xs.foldlM f s = .ok t) : P t := by
  induction xs generalizing s with
  | nil =>
    cases h
    exact hs
  | cons x xs ih =>
    rw [List.foldlM_cons] at h
    obtain ⟨u, hu, h⟩ := bind_eq_ok.mp h
    exact ih (hf hs hu) h

/-- What every step keeps a run of such steps keeps. -/
theorem foldlM_keeps {f : σ → α → Except ε σ} (part : σ → β) (hf : ∀ {s t x}, f s x = .ok t → part t = part s)
    {xs : List α} {s t : σ} (h : xs.foldlM f s = .ok t) : part t = part s :=
  foldlM_invariant (P := fun u => part u = part s) (fun hs hu => (hf hu).trans hs) rfl h

theorem allM_eq_ok {f : α → Except ε Bool} {p : α → Bool} {xs : List α} (h : ∀ x ∈ xs, f x = .ok (p x)) :
    xs.allM f = .ok (xs.all p) := by
  induction xs with
  | nil => rfl
  | cons x xs ih =>
    have hxs := ih fun y hy => h y (List.mem_cons_of_mem _ hy)
    rw [List.allM, h x List.mem_cons_self, ok_bind, List.all_cons]
    cases p x with
    | true => exact hxs
    | false => rfl

end LinReal
