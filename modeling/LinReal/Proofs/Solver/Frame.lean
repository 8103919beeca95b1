import LinReal.Solver.Move
import LinReal.Proofs.Queue
import LinReal.Proofs.Store.Levels
import LinReal.Proofs.Tableau.Pivot

/-! Steps that move variables. Such a step changes values and notes and adds to the queue; what it leaves alone is its
    frame. A basic variable that a step brings outside its bounds is queued by it. -/

namespace LinReal

namespace Slot

variable {τ : Type} {a : Slot τ} {side : Side} {v : Violation τ}

theorem violated?_eq_some_iff :
    a.violated? side = some v ↔
      v.side = side ∧ a.bound? side = some v.bound ∧ side.outside a.value v.bound.value = true := by
  cases v with
  | mk side' b =>
    simp only [violated?, Option.map_eq_some_iff, Option.filter_eq_some_iff, Violation.mk.injEq]
    constructor
    · rintro ⟨c, ⟨hb, ho⟩, rfl, rfl⟩
      exact ⟨rfl, hb, ho⟩
    · rintro ⟨rfl, hb, ho⟩
      exact ⟨b, ⟨hb, ho⟩, rfl, rfl⟩

theorem violated?_eq_none_iff :
    a.violated? side = none ↔ ∀ b, a.bound? side = some b → side.outside a.value b.value = false := by
  simp [violated?]

theorem bound?_of_violation? (h : a.violation? = some v) :
    a.bound? v.side = some v.bound ∧ v.side.outside a.value v.bound.value = true := by
  unfold violation? at h
  rcases Option.or_eq_some_iff.mp h with h | ⟨-, h⟩
  · obtain ⟨hs, hb⟩ := violated?_eq_some_iff.mp h
    exact hs ▸ hb
  · obtain ⟨hs, hb⟩ := violated?_eq_some_iff.mp h
    exact hs ▸ hb

theorem violation?_eq_none_iff :
    a.violation? = none ↔ ∀ side b, a.bound? side = some b → side.outside a.value b.value = false := by
  unfold violation?
  rw [Option.or_eq_none_iff, violated?_eq_none_iff, violated?_eq_none_iff]
  constructor
  · rintro ⟨hl, hu⟩ side b hb
    cases side
    · exact hl b hb
    · exact hu b hb
  · intro h
    exact ⟨h .lower, h .upper⟩

end Slot

namespace Solver

variable {τ : Type} {s t u : Solver τ} {x y b : Var} {v : DeltaRat}

/-- The value of `x` lies within its bounds. -/
def Within (s : Solver τ) (x : Var) : Prop := s.store.bounds.Admits x (s.store.value x)

/-- The tableau is well formed, and each of its variables has a slot. -/
structure Shaped (s : Solver τ) : Prop where
  wellFormed : s.tableau.WellFormed
  size : s.store.size = s.tableau.size

theorem within_iff {a : Slot τ} (h : s.store.slots.get? x = some a) : s.Within x ↔ a.violation? = none := by
  rw [Slot.violation?_eq_none_iff, Within, Bounds.Admits, Store.value_of_get? h]
  simp only [Store.bounds_of_get? h]

theorem within_congr (hb : t.store.bounds = s.store.bounds) (hv : t.store.value x = s.store.value x) :
    t.Within x ↔ s.Within x := by
  rw [Within, Within, hb, hv]

theorem Shaped.slot_ok (h : s.Shaped) (hx : x < s.tableau.size) :
    ∃ a, s.store.slot x = .ok a ∧ s.store.slots.get? x = some a :=
  Store.slot_ok (h.size ▸ hx)

theorem Shaped.row_ok (h : s.Shaped) (hx : s.isBasic x = true) :
    ∃ f, s.tableau.row x = .ok f ∧ s.tableau.row? x = some f := by
  obtain ⟨f, hf⟩ := h.wellFormed.isBasic_iff.mp hx
  exact ⟨f, by simp [Tableau.row, hf], hf⟩

theorem row?_of_row {f : LinearForm} (h : s.tableau.row x = .ok f) : s.tableau.row? x = some f := by
  unfold Tableau.row at h
  split at h
  · rename_i g hg
    cases h
    exact hg
  · cases h

theorem isSome_violation?_iff : (s.violation? x).isSome = true ↔ s.isBasic x = true ∧ ¬s.Within x := by
  unfold violation?
  split
  · rename_i hb
    simp only [hb, true_and]
    cases ha : s.store.slots.get? x with
    | none => simp [Within, Bounds.Admits, Store.bounds, Store.boundsIn, ha]
    | some a => rw [within_iff ha, Option.bind_some, Option.isSome_iff_ne_none]
  · rename_i hb
    simp [hb]

theorem outside_of_violation? {w : Violation τ} (h : s.violation? x = some w) : s.isBasic x = true ∧ ¬s.Within x :=
  isSome_violation?_iff.mp (Option.isSome_iff_exists.mpr ⟨w, h⟩)

theorem bounds_of_violation? {w : Violation τ} (h : s.violation? x = some w) :
    s.isBasic x = true ∧ s.store.bounds w.side x = some w.bound ∧
      w.side.outside (s.store.value x) w.bound.value = true := by
  unfold violation? at h
  split at h
  · rename_i hb
    obtain ⟨a, ha, hw⟩ := Option.bind_eq_some_iff.mp h
    obtain ⟨hbound, ho⟩ := Slot.bound?_of_violation? hw
    exact ⟨hb, by rw [Store.bounds_of_get? ha, hbound], by rwa [Store.value_of_get? ha]⟩
  · cases h

theorem isConsistent_of_within (h : ∀ x, s.isRegistered x = true → s.Within x) : s.isConsistent = true := by
  rw [isConsistent, List.all_eq_true]
  intro x hx
  cases hreg : s.isRegistered x with
  | false => rfl
  | true =>
    obtain ⟨a, ha⟩ := Store.exists_slot (List.mem_range.mp hx)
    have hin := Slot.violation?_eq_none_iff.mp ((within_iff ha).mp (h x hreg))
    have hout : ∀ side, a.outside side a.value = false := by
      intro side
      cases hl : a.bound? side with
      | none => rw [Slot.outside, hl, Option.any_none]
      | some l => rw [Slot.outside, hl, Option.any_some, hin side l hl]
    simp [ha, Slot.isConsistent, hout]

/-- What a step that moves variables keeps. -/
structure Frame (s t : Solver τ) : Prop where
  settings : t.settings = s.settings
  registered : t.registered = s.registered
  rounds : t.rounds = s.rounds
  store : Store.SameBounds s.store t.store
  safe : t.store.safe = s.store.safe
  tracks : s.store.Tracks → t.store.Tracks
  queue : s.queue.Grows t.queue

theorem Frame.refl (s : Solver τ) : Frame s s := ⟨rfl, rfl, rfl, .refl _, rfl, id, .refl _⟩

theorem Frame.trans (h₁ : Frame s t) (h₂ : Frame t u) : Frame s u where
  settings := h₂.settings.trans h₁.settings
  registered := h₂.registered.trans h₁.registered
  rounds := h₂.rounds.trans h₁.rounds
  store := h₁.store.trans h₂.store
  safe := h₂.safe.trans h₁.safe
  tracks := h₂.tracks ∘ h₁.tracks
  queue := h₁.queue.trans h₂.queue

theorem Shaped.of_frame (h : s.Shaped) (hf : Frame s t) (ht : t.tableau = s.tableau) : t.Shaped :=
  ⟨ht ▸ h.wellFormed, by rw [ht, hf.store.size, h.size]⟩

/-! ### Single steps -/

theorem frame_note (s : Solver τ) (e : Event) : Frame s (s.note e) := ⟨rfl, rfl, rfl, .refl _, rfl, id, .refl _⟩

theorem frame_queue {q : RepairQueue} (h : s.queue.Grows q) : Frame s { s with queue := q } :=
  ⟨rfl, rfl, rfl, .refl _, rfl, id, h⟩

theorem assign_ok (hx : x < s.store.size) (v : DeltaRat) :
    ∃ t, s.assign x v = .ok t ∧ Frame s t ∧ t.tableau = s.tableau ∧ t.queue = s.queue ∧
      t.store.value = Function.update s.store.value x v := by
  obtain ⟨st, hst, hsame, hvalue, hsafe, htracks⟩ := Store.assign_ok hx v
  refine ⟨{ s with store := st }, ?_, ⟨rfl, rfl, rfl, hsame, hsafe, htracks, .refl _⟩, rfl, rfl, hvalue⟩
  rw [assign, hst]
  rfl

theorem inspect_ok (h : s.Shaped) (hx : s.isBasic x = true) :
    ∃ q, s.inspect x = .ok { s with queue := q } ∧ s.queue.Grows q ∧ (¬s.Within x → x ∈ q.order) ∧
      ∀ y ∈ q.order, y = x ∨ y ∈ s.queue.order := by
  obtain ⟨a, hslot, ha⟩ := h.slot_ok (h.wellFormed.lt_size hx)
  cases hv : a.violation? with
  | none =>
    refine ⟨s.queue, ?_, .refl _, fun hn => absurd ((within_iff ha).mpr hv) hn, fun y hy => Or.inr hy⟩
    simp only [inspect, hx, if_true, hslot, ok_bind, hv]
    rfl
  | some w =>
    refine ⟨s.queue.push x (w.side.excess a.value w.bound.value), ?_, RepairQueue.grows_push _ _ _,
      fun _ => RepairQueue.mem_push _ _ _, fun y hy => ?_⟩
    · simp only [inspect, hx, if_true, hslot, ok_bind, hv]
      rfl
    · exact List.mem_cons.mp ((RepairQueue.order_push _ _ _).mem_iff.mp hy)

theorem inspectAll_ok (h : s.Shaped) {xs : List Var} (hxs : ∀ x ∈ xs, s.isBasic x = true) :
    ∃ q, s.inspectAll xs = .ok { s with queue := q } ∧ s.queue.Grows q ∧
      (∀ x ∈ xs, ¬s.Within x → x ∈ q.order) ∧ ∀ y ∈ q.order, y ∈ xs ∨ y ∈ s.queue.order := by
  induction xs generalizing s with
  | nil => exact ⟨s.queue, rfl, .refl _, fun x hx => (by cases hx), fun y hy => Or.inr hy⟩
  | cons x xs ih =>
    obtain ⟨q, hq, hgrows, hin, hnew⟩ := inspect_ok h (hxs x List.mem_cons_self)
    obtain ⟨q', hq', hgrows', hin', hnew'⟩ := ih (s := { s with queue := q }) ⟨h.wellFormed, h.size⟩
      fun y hy => hxs y (List.mem_cons_of_mem _ hy)
    refine ⟨q', ?_, hgrows.trans hgrows', fun y hy hn => ?_, fun y hy => ?_⟩
    · rw [inspectAll] at hq' ⊢
      rw [List.foldlM_cons, hq, ok_bind, hq']
    · rcases List.mem_cons.mp hy with rfl | hy
      · exact hgrows'.mem (hin hn)
      · exact hin' y hy hn
    · rcases hnew' y hy with hy | hy
      · exact Or.inl (List.mem_cons_of_mem _ hy)
      · rcases hnew y hy with rfl | hy
        · exact Or.inl List.mem_cons_self
        · exact Or.inr hy

theorem inspectBasics_ok (h : s.Shaped) :
    ∃ q, s.inspectBasics = .ok { s with queue := q } ∧ s.queue.Grows q ∧
      ∀ x, s.isBasic x = true → ¬s.Within x → x ∈ q.order := by
  have hbs : ∀ x ∈ s.tableau.basis.members, s.isBasic x = true := fun x hx => VarSet.mem_members.mp hx
  obtain ⟨q, hq, hgrows, hin, -⟩ := inspectAll_ok h hbs
  exact ⟨q, hq, hgrows, fun x hx => hin x (VarSet.mem_members.mpr hx)⟩

end Solver

end LinReal
