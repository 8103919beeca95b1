import LinReal.Proofs.Solver.Conflicts
import LinReal.Proofs.Store.Discipline

/-! The invariant of a solver. The rows have the solutions of the definitions that were given to it, values and committed
    values are solutions, and the bounds are disciplined. Every basic variable outside its bounds is queued, and unless
    somebody moved one there, no nonbasic variable lies outside its bounds.

    This file holds the invariant and how the steps shared by the operations keep it. -/

namespace LinReal

variable {τ : Type} {ds : List (Var × LinearForm)} {x y : Var}

namespace Solver

variable {s t u : Solver τ} {v : DeltaRat}

/-- Rows, values and bounds fit each other and the definitions `ds`. -/
structure Coherent (ds : List (Var × LinearForm)) (s : Solver τ) : Prop where
  shaped : s.Shaped
  room : ∀ {x}, s.isRegistered x = true → x < s.tableau.size
  announced : ∀ {x}, Mentions ds x → s.isRegistered x = true
  mentioned : ∀ {b f}, s.tableau.row? b = some f → Mentions ds b ∧ ∀ x ∈ f.vars, Mentions ds x
  denotes : s.tableau.Denotes ds
  solves : s.tableau.SolvesDelta s.store.value
  safe : s.tableau.SolvesDelta s.store.safe
  tracks : s.store.Tracks
  disciplined : s.store.Disciplined s.registered

/-- Every basic variable outside its bounds is queued. -/
def Queued (s : Solver τ) : Prop := ∀ x, s.isBasic x = true → ¬s.Within x → x ∈ s.queue.order

/-- Every nonbasic variable lies within its bounds. -/
def Settled (s : Solver τ) : Prop := ∀ x, s.isBasic x = false → s.Within x

/-- The invariant that holds between calls however variables are moved. -/
structure Sound (ds : List (Var × LinearForm)) (s : Solver τ) : Prop where
  coherent : s.Coherent ds
  queued : s.Queued
  sorted : s.queue.Sorted

theorem sound_new (settings : Settings) : (new settings : Solver τ).Sound [] := by
  have hrow : ∀ x, (new settings : Solver τ).tableau.row? x = none := by
    intro x
    simp [new, Tableau.row?, Tableau.stored?, Tableau.empty]
  have hbasic : ∀ x, (new settings : Solver τ).isBasic x ≠ true := fun x => VarSet.not_mem_empty x
  refine ⟨⟨⟨Tableau.wellFormed_empty, rfl⟩, ?_, ?_, ?_, Tableau.denotes_empty, ?_, ?_, ?_, Store.disciplined_empty _⟩, ?_,
    trivial⟩
  · exact fun hx => absurd hx (VarSet.not_mem_empty _)
  · rintro x ⟨d, hd, -⟩
    cases hd
  · intro b f hb
    rw [hrow] at hb
    cases hb
  · intro b f hb
    rw [hrow] at hb
    cases hb
  · intro b f hb
    rw [hrow] at hb
    cases hb
  · intro x a ha
    simp [new, Store.empty] at ha
  · exact fun x hx => absurd hx (hbasic x)

theorem settled_new (settings : Settings) : (new settings : Solver τ).Settled := by
  intro x _ side l hl
  simp [new, Store.bounds, Store.boundsIn, Store.empty] at hl

/-! ### What an operation carries over -/

/-- The bounds of every level stay, and so do the announced variables. -/
structure Carries (s t : Solver τ) : Prop where
  levels : t.store.levels = s.store.levels
  registered : ∀ {x}, s.isRegistered x = true → t.isRegistered x = true

theorem Carries.refl (s : Solver τ) : Carries s s := ⟨rfl, id⟩

theorem Carries.trans (h₁ : Carries s t) (h₂ : Carries t u) : Carries s u :=
  ⟨h₂.levels.trans h₁.levels, h₂.registered ∘ h₁.registered⟩

theorem Frame.carries (h : Frame s t) : Carries s t :=
  ⟨Store.levels_congr h.store, fun hx => by rwa [isRegistered, h.registered]⟩

theorem Carries.bounds (h : Carries s t) : t.store.bounds = s.store.bounds := by
  have hlevels := h.levels
  rw [Store.levels_eq_cons, Store.levels_eq_cons s.store] at hlevels
  exact (List.cons.inj hlevels).1

theorem Coherent.isRegistered (h : s.Coherent ds) {b : Var} {f : LinearForm} (hb : s.tableau.row? b = some f) :
    s.isRegistered b = true ∧ ∀ x ∈ f.vars, s.isRegistered x = true :=
  ⟨h.announced (h.mentioned hb).1, fun x hx => h.announced ((h.mentioned hb).2 x hx)⟩

theorem Coherent.within_of_not_registered (h : s.Coherent ds) (hx : ¬s.isRegistered x = true) : s.Within x :=
  h.disciplined.admits_of_not_mem hx _

/-- A step that changes neither rows nor bounds keeps coherence if the new values solve the rows. -/
theorem Coherent.of_frame (h : s.Coherent ds) (hf : Frame s t) (ht : t.tableau = s.tableau)
    (hsolves : t.tableau.SolvesDelta t.store.value) : t.Coherent ds where
  shaped := h.shaped.of_frame hf ht
  room hx := by
    rw [ht]
    exact h.room (by rwa [Solver.isRegistered, hf.registered] at hx)
  announced hx := hf.carries.registered (h.announced hx)
  mentioned hb := h.mentioned (ht ▸ hb)
  denotes := ht ▸ h.denotes
  solves := hsolves
  safe := by
    rw [ht, hf.safe]
    exact h.safe
  tracks := hf.tracks h.tracks
  disciplined := hf.registered ▸ h.disciplined.congr hf.store

/-- Only queue, counters and notes change. -/
structure Idle (s t : Solver τ) : Prop where
  settings : t.settings = s.settings
  registered : t.registered = s.registered
  store : t.store = s.store
  tableau : t.tableau = s.tableau

theorem Idle.refl (s : Solver τ) : Idle s s := ⟨rfl, rfl, rfl, rfl⟩

theorem Idle.trans (h₁ : Idle s t) (h₂ : Idle t u) : Idle s u :=
  ⟨h₂.settings.trans h₁.settings, h₂.registered.trans h₁.registered, h₂.store.trans h₁.store,
    h₂.tableau.trans h₁.tableau⟩

theorem Idle.carries (h : Idle s t) : Carries s t := ⟨by rw [h.store], fun hx => by rwa [isRegistered, h.registered]⟩

theorem Idle.isBasic (h : Idle s t) (x : Var) : t.isBasic x = s.isBasic x := by rw [Solver.isBasic, h.tableau, Solver.isBasic]

theorem Idle.within (h : Idle s t) : t.Within x ↔ s.Within x := by rw [Within, h.store, Within]

theorem Idle.settled (h : Idle s t) (hs : s.Settled) : t.Settled := fun x hx =>
  h.within.mpr (hs x ((h.isBasic x).symm.trans hx))

theorem Coherent.idle (h : s.Coherent ds) (hi : Idle s t) : t.Coherent ds where
  shaped := ⟨hi.tableau ▸ h.shaped.wellFormed, by rw [hi.store, hi.tableau, h.shaped.size]⟩
  room hx := by
    rw [hi.tableau]
    exact h.room (by rwa [Solver.isRegistered, hi.registered] at hx)
  announced hx := hi.carries.registered (h.announced hx)
  mentioned hb := h.mentioned (hi.tableau ▸ hb)
  denotes := hi.tableau ▸ h.denotes
  solves := by
    rw [hi.tableau, hi.store]
    exact h.solves
  safe := by
    rw [hi.tableau, hi.store]
    exact h.safe
  tracks := hi.store ▸ h.tracks
  disciplined := by
    rw [hi.store, hi.registered]
    exact h.disciplined

theorem Coherent.withQueue (h : s.Coherent ds) (q : RepairQueue) : ({ s with queue := q } : Solver τ).Coherent ds :=
  h.idle ⟨rfl, rfl, rfl, rfl⟩

/-! ### Announcing variables -/

/-- What announcing variables leaves alone. -/
structure Announced (s t : Solver τ) : Prop where
  carries : Carries s t
  queue : t.queue = s.queue
  row : ∀ x, t.tableau.row? x = s.tableau.row? x
  basic : ∀ x, t.isBasic x = s.isBasic x
  within : ∀ {x}, t.Within x ↔ s.Within x

theorem Announced.refl (s : Solver τ) : Announced s s := ⟨.refl s, rfl, fun _ => rfl, fun _ => rfl, Iff.rfl⟩

theorem Announced.trans (h₁ : Announced s t) (h₂ : Announced t u) : Announced s u :=
  ⟨h₁.carries.trans h₂.carries, h₂.queue.trans h₁.queue, fun x => (h₂.row x).trans (h₁.row x),
    fun x => (h₂.basic x).trans (h₁.basic x), h₂.within.trans h₁.within⟩

theorem Announced.queued (h : Announced s t) (hs : s.Queued) : t.Queued := by
  intro x hx hn
  rw [h.queue]
  exact hs x (h.basic x ▸ hx) (h.within.not.mp hn)

theorem Announced.settled (h : Announced s t) (hs : s.Settled) : t.Settled := fun x hx =>
  h.within.mpr (hs x (h.basic x ▸ hx))

theorem register_of_isRegistered (hx : s.isRegistered x = true) : s.register x = s := by rw [register, if_pos hx]

theorem isRegistered_register (s : Solver τ) (x : Var) :
    (s.register x).isRegistered y = true ↔ y = x ∨ s.isRegistered y = true := by
  unfold register
  split
  · rename_i hx
    constructor
    · exact Or.inr
    · rintro (rfl | hy)
      · exact hx
      · exact hy
  · exact VarSet.mem_insert

/-- A variable that is announced already keeps its values when another one is announced. -/
theorem values_register (hy : s.isRegistered y = true) (x : Var) :
    (s.register x).store.value y = s.store.value y ∧ (s.register x).store.safe y = s.store.safe y := by
  by_cases hx : s.isRegistered x = true
  · rw [register_of_isRegistered hx]
    exact ⟨rfl, rfl⟩
  · have hne : y ≠ x := by
      rintro rfl
      exact hx hy
    have hinstalled : (s.register x).store = s.store.install x 0 := by rw [register, if_neg hx]
    obtain ⟨-, hvalue, hsafe, -⟩ := s.store.install_view x 0
    rw [hinstalled, hvalue, hsafe, Function.update_of_ne hne, Function.update_of_ne hne]
    exact ⟨rfl, rfl⟩

theorem Coherent.announced_register (h : s.Coherent ds) (x : Var) : Announced s (s.register x) := by
  by_cases hx : s.isRegistered x = true
  · rw [register_of_isRegistered hx]
    exact .refl s
  · have hlevels := Store.levels_install h.disciplined hx 0
    obtain ⟨-, hvalue, -, hbounds, -⟩ := s.store.install_view x 0
    have hreg : s.register x = { s with
        registered := s.registered.insert x
        tableau := s.tableau.grow x
        store := s.store.install x 0 } := by rw [register, if_neg hx]
    refine ⟨⟨by rw [hreg]; exact hlevels, fun hy => (isRegistered_register s x).mpr (Or.inr hy)⟩, by rw [hreg], fun y => ?_,
      fun y => ?_, fun {y} => ?_⟩
    · rw [hreg]
      exact Tableau.row?_grow s.tableau x y
    · rw [hreg]
      exact Tableau.isBasic_grow s.tableau x y
    · rw [hreg, Within, Within, hbounds (h.disciplined.bounds_eq_none hx), hvalue]
      by_cases hy : y = x
      · rw [hy]
        have hnone := h.disciplined.admits_of_not_mem hx
        exact ⟨fun _ => hnone _, fun _ => hnone _⟩
      · rw [Function.update_of_ne hy]

theorem Coherent.register (h : s.Coherent ds) (x : Var) : (s.register x).Coherent ds := by
  by_cases hx : s.isRegistered x = true
  · rw [register_of_isRegistered hx]
    exact h
  · obtain ⟨hsize, hvalue, hsafe, -, htracks⟩ := s.store.install_view x 0
    have hrow := Tableau.row?_grow s.tableau x
    have hreg : s.register x = { s with
        registered := s.registered.insert x
        tableau := s.tableau.grow x
        store := s.store.install x 0 } := by rw [Solver.register, if_neg hx]
    have hne : ∀ {y}, s.isRegistered y = true → y ≠ x := by
      rintro y hy rfl
      exact hx hy
    -- No row mentions a variable that was not announced, so its value is free.
    have hother : ∀ {w : Var → DeltaRat}, s.tableau.SolvesDelta w →
        (s.tableau.grow x).SolvesDelta (Function.update w x 0) := fun hw => by
      refine hw.congr hrow fun b f hb => ⟨?_, fun y hy => ?_⟩
      · exact Function.update_of_ne (hne (h.isRegistered hb).1) _ _
      · exact Function.update_of_ne (hne ((h.isRegistered hb).2 y hy)) _ _
    rw [hreg]
    refine ⟨⟨h.shaped.wellFormed.grow x, ?_⟩, fun {y} hy => ?_, fun hy => ?_, fun hb => ?_,
      (Tableau.denotes_congr hrow).mpr h.denotes, ?_, ?_, htracks h.tracks, ?_⟩
    · exact hsize.trans (by rw [h.shaped.size, Tableau.size_grow])
    · show y < (s.tableau.grow x).size
      rw [Tableau.size_grow]
      rcases VarSet.mem_insert.mp hy with rfl | hy
      · exact Nat.lt_of_lt_of_le (Nat.lt_succ_self y) (Nat.le_max_right _ _)
      · exact Nat.lt_of_lt_of_le (h.room hy) (Nat.le_max_left _ _)
    · exact VarSet.mem_insert.mpr (Or.inr (h.announced hy))
    · exact h.mentioned ((hrow _).symm.trans hb)
    · show (s.tableau.grow x).SolvesDelta (s.store.install x 0).value
      rw [hvalue]
      exact hother h.solves
    · show (s.tableau.grow x).SolvesDelta (s.store.install x 0).safe
      rw [hsafe]
      exact hother h.safe
    · exact (h.disciplined.install hx 0).mono fun y hy => VarSet.mem_insert.mpr (Or.inr hy)

theorem Coherent.registerAll (h : s.Coherent ds) (xs : List Var) : (xs.foldl Solver.register s).Coherent ds ∧
    Announced s (xs.foldl Solver.register s) ∧ ∀ x ∈ xs, (xs.foldl Solver.register s).isRegistered x = true := by
  induction xs generalizing s with
  | nil => exact ⟨h, .refl s, fun x hx => by cases hx⟩
  | cons y ys ih =>
    obtain ⟨hc, hann, hin⟩ := ih (h.register y)
    refine ⟨hc, (h.announced_register y).trans hann, fun x hx => ?_⟩
    rcases List.mem_cons.mp hx with rfl | hx
    · exact hann.carries.registered ((isRegistered_register s x).mpr (Or.inl rfl))
    · exact hin x hx

theorem Sound.register (h : s.Sound ds) (x : Var) : (s.register x).Sound ds := by
  have hann := h.coherent.announced_register x
  exact ⟨h.coherent.register x, hann.queued h.queued, hann.queue ▸ h.sorted⟩

/-! ### Moves -/

theorem Moved.coherent (hm : Moved s t x v) (h : s.Coherent ds) : t.Coherent ds :=
  h.of_frame hm.frame hm.tableau (hm.solves h.solves)

theorem Moved.queued (hm : Moved s t x v) (h : s.Queued) : t.Queued := by
  intro y hy hn
  rcases hm.watched hy hn with hin | hns
  · exact hin
  · exact hm.frame.queue.mem (h y (by rwa [isBasic, hm.tableau] at hy) hns)

theorem Moved.sound (hm : Moved s t x v) (h : s.Sound ds) : t.Sound ds :=
  ⟨hm.coherent h.coherent, hm.queued h.queued, hm.frame.queue.sorted h.sorted⟩

/-- A move keeps the nonbasic variables within their bounds if it respects the bounds of the one that it moves. -/
theorem Moved.within (hm : Moved s t x v) (hv : s.store.bounds.Admits x v) (hy : s.isBasic y = false)
    (h : y ≠ x → s.Within y) : t.Within y := by
  rw [Within, hm.frame.store.bounds, hm.nonbasic hy]
  by_cases hyx : y = x
  · rw [hyx, Function.update_self]
    exact hv
  · rw [Function.update_of_ne hyx]
    exact h hyx

theorem Moved.settled (hm : Moved s t x v) (hv : s.store.bounds.Admits x v) (h : s.Settled) : t.Settled := fun y hy =>
  have hys : s.isBasic y = false := by rwa [isBasic, hm.tableau] at hy
  hm.within hv hys fun _ => h y hys

variable {l e : Var}

theorem Pivoted.isBasic_iff (hp : Pivoted s t l e v) (h : s.Shaped) :
    t.isBasic y = true ↔ y = e ∨ (y ≠ l ∧ s.isBasic y = true) := by
  obtain ⟨r, a, hr, ha, ht⟩ := hp.tableau
  obtain ⟨-, -, hbasic, -⟩ := Tableau.exchange_view h.wellFormed hr ha
  rw [isBasic, ht]
  exact hbasic y

theorem Pivoted.nonbasic_of (hp : Pivoted s t l e v) (h : s.Shaped) (hy : t.isBasic y = false) :
    y ≠ e ∧ (y = l ∨ s.isBasic y = false) := by
  have hn := (hp.isBasic_iff h (y := y)).not.mp (by rw [hy]; exact Bool.false_ne_true)
  rw [not_or, not_and, Bool.not_eq_true] at hn
  exact ⟨hn.1, or_iff_not_imp_left.mpr hn.2⟩

theorem Pivoted.solves_iff (hp : Pivoted s t l e v) (h : s.Shaped) (w : Var → DeltaRat) :
    t.tableau.SolvesDelta w ↔ s.tableau.SolvesDelta w := by
  obtain ⟨r, a, hr, ha, ht⟩ := hp.tableau
  rw [ht]
  exact solvesDelta_exchange h hr ha w

theorem Pivoted.coherent (hp : Pivoted s t l e v) (h : s.Coherent ds) (ht : t.Shaped) : t.Coherent ds := by
  obtain ⟨r, a, hr, ha, htab⟩ := hp.tableau
  obtain ⟨-, hsize, -, hrows⟩ := Tableau.exchange_view h.shaped.wellFormed hr ha
  have hsolved : ∀ x ∈ ((LinearForm.erase r e).solve l a).vars, Mentions ds x := by
    intro x hx
    rcases LinearForm.mem_vars_solve hx with rfl | hx
    · exact (h.mentioned hr).1
    · exact (h.mentioned hr).2 x (LinearForm.mem_vars_erase.mp hx).2
  refine ⟨ht, fun hx => ?_, fun hx => hp.frame.carries.registered (h.announced hx), fun {b f} hb => ?_, ?_,
    hp.solves h.solves, ?_, hp.frame.tracks h.tracks, hp.frame.registered ▸ h.disciplined.congr hp.frame.store⟩
  · rw [htab, hsize]
    exact h.room (by rwa [Solver.isRegistered, hp.frame.registered] at hx)
  · rw [htab, hrows] at hb
    split at hb
    · rename_i hbe
      obtain rfl := Option.some.inj hb
      exact ⟨hbe ▸ (h.mentioned hr).2 e (LinearForm.mem_vars_of_coeff? ha), hsolved⟩
    · split at hb
      · cases hb
      · obtain ⟨g, hg, rfl⟩ := Option.map_eq_some_iff.mp hb
        refine ⟨(h.mentioned hg).1, fun x hx => ?_⟩
        rcases LinearForm.mem_vars_replace hx with ⟨-, hx⟩ | hx
        · exact (h.mentioned hg).2 x hx
        · exact hsolved x hx
  · rw [htab]
    exact fun w => (Tableau.solves_exchange_iff h.shaped.wellFormed hr ha w).trans (h.denotes w)
  · rw [hp.frame.safe]
    exact (hp.solves_iff h.shaped _).mpr h.safe

/-- A pivot keeps violators queued even if the variable that leaves was not. -/
theorem Pivoted.queued (hp : Pivoted s t l e v)
    (hq : ∀ y, y ≠ l → s.isBasic y = true → ¬s.Within y → y ∈ s.queue.order) : t.Queued := by
  intro y hy hn
  rcases hp.watched hy hn with hin | ⟨hyl, hys, hns⟩
  · exact hin
  · exact hp.frame.queue.mem (hq y hyl hys hns)

/-- A pivot keeps the nonbasic variables within their bounds if it respects the bounds of the one that leaves. -/
theorem Pivoted.settled (hp : Pivoted s t l e v) (h : s.Shaped) (hv : s.store.bounds.Admits l v) (hs : s.Settled) :
    t.Settled := by
  intro y hy
  obtain ⟨hye, hyl⟩ := hp.nonbasic_of h hy
  rw [Within, hp.frame.store.bounds]
  by_cases heq : y = l
  · rw [heq, hp.leaving]
    exact hv
  · rw [hp.nonbasic (hyl.resolve_left heq) hye]
    exact hs y (hyl.resolve_left heq)

theorem Pivoted.sound (hp : Pivoted s t l e v) (h : s.Sound ds) (ht : t.Shaped) : t.Sound ds :=
  ⟨hp.coherent h.coherent ht, hp.queued fun y _ => h.queued y, hp.frame.queue.sorted h.sorted⟩

end Solver

end LinReal
