import LinReal.Solver.Assert
import LinReal.Solver.Scope
import LinReal.Solver.Repair
import LinReal.Proofs.Queue
import LinReal.Proofs.Traversal

/-! What a solver has on record: its events and the conflicts that it has reported. Most steps leave the record alone; a move of a
    variable adds one event to it, and a pivot what `notePivot` says. -/

namespace LinReal.Solver

variable {τ : Type} {s t u : Solver τ} {x l e : Var} {v step : DeltaRat}

structure Record (τ : Type) where
  settings : Settings
  log : List Event
  reported : List (Conflict τ)

def record (s : Solver τ) : Record τ := ⟨s.settings, s.log, s.reported⟩

theorem log_of_record (h : t.record = s.record) : t.log = s.log := congrArg Record.log h

theorem record_note (h : t.record = s.record) (e : Event) : (t.note e).record = (s.note e).record := by
  simp only [record, note, Record.mk.injEq] at h ⊢
  exact ⟨h.1, congrArg _ h.2.1, h.2.2⟩

theorem record_report (h : t.record = s.record) (c : Conflict τ) : (t.report c).record = (s.report c).record := by
  simp only [record, report, Record.mk.injEq] at h ⊢
  exact ⟨h.1, h.2.1, congrArg _ h.2.2⟩

/-! ### Silent steps -/

/-- Variables are queued, and nothing else happens. -/
structure Requeued (s t : Solver τ) : Prop where
  exists_eq : ∃ queue, t = { s with queue := queue } ∧ queue.stage = s.queue.stage

theorem Requeued.refl (s : Solver τ) : Requeued s s := ⟨s.queue, rfl, rfl⟩

theorem Requeued.trans (h₁ : Requeued s t) (h₂ : Requeued t u) : Requeued s u := by
  obtain ⟨queue, rfl, hstage⟩ := h₁.exists_eq
  obtain ⟨queue', rfl, hstage'⟩ := h₂.exists_eq
  exact ⟨queue', rfl, hstage'.trans hstage⟩

theorem requeued_cleared (s : Solver τ) : Requeued s { s with queue := s.queue.cleared } :=
  ⟨s.queue.cleared, rfl, s.queue.cleared_view.2.1⟩

theorem inspect_inv (h : s.inspect x = .ok t) : s.isBasic x = true ∧ Requeued s t := by
  unfold inspect at h
  split at h
  · refine ⟨by assumption, ?_⟩
    obtain ⟨slot, -, h⟩ := bind_eq_ok.mp h
    split at h
    · cases h
      exact .refl s
    · cases h
      exact ⟨_, rfl, (RepairQueue.grows_push _ _ _).stage⟩
  · cases h

theorem requeued_inspectAll {xs : List Var} (h : s.inspectAll xs = .ok t) : Requeued s t :=
  foldlM_invariant (P := Requeued s) (fun hs hu => hs.trans (inspect_inv hu).2) (.refl s) h

/-- Values change and variables are queued, and nothing else happens. -/
structure Shifted (s t : Solver τ) : Prop where
  exists_eq : ∃ store queue, t = { s with store := store, queue := queue }

theorem Shifted.refl (s : Solver τ) : Shifted s s := ⟨s.store, s.queue, rfl⟩

theorem Shifted.trans (h₁ : Shifted s t) (h₂ : Shifted t u) : Shifted s u := by
  obtain ⟨store, queue, rfl⟩ := h₁.exists_eq
  obtain ⟨store', queue', rfl⟩ := h₂.exists_eq
  exact ⟨store', queue', rfl⟩

theorem Shifted.record (h : Shifted s t) : t.record = s.record := by
  obtain ⟨store, queue, rfl⟩ := h.exists_eq
  rfl

theorem Shifted.foundConflict (h : Shifted s t) : t.foundConflict = s.foundConflict := by
  obtain ⟨store, queue, rfl⟩ := h.exists_eq
  rfl

theorem Requeued.shifted (h : Requeued s t) : Shifted s t := by
  obtain ⟨queue, rfl, -⟩ := h.exists_eq
  exact ⟨s.store, queue, rfl⟩

theorem Requeued.record (h : Requeued s t) : t.record = s.record := h.shifted.record

theorem shifted_assign (h : s.assign x v = .ok t) : Shifted s t := by
  obtain ⟨store, -, h⟩ := bind_eq_ok.mp h
  cases h
  exact ⟨store, s.queue, rfl⟩

theorem shifted_follow (h : follow x step s e = .ok t) : Shifted s t := by
  obtain ⟨f, -, h⟩ := bind_eq_ok.mp h
  split at h
  · cases h
    exact .refl s
  · obtain ⟨slot, -, h⟩ := bind_eq_ok.mp h
    obtain ⟨u, hu, h⟩ := bind_eq_ok.mp h
    exact (shifted_assign hu).trans (inspect_inv h).2.shifted

theorem shifted_followAll {xs : List Var} (h : xs.foldlM (follow x step) s = .ok t) : Shifted s t :=
  foldlM_invariant (P := Shifted s) (fun hs hu => hs.trans (shifted_follow hu)) (.refl s) h

theorem record_inspect (h : s.inspect x = .ok t) : t.record = s.record := (inspect_inv h).2.record

theorem record_inspectAll {xs : List Var} (h : s.inspectAll xs = .ok t) : t.record = s.record := (requeued_inspectAll h).record

theorem record_watch (h : s.watch x = .ok t) : t.record = s.record := by
  unfold watch at h
  split at h
  · cases h
    rfl
  · obtain ⟨slot, -, h⟩ := bind_eq_ok.mp h
    split at h
    · cases h
      rfl
    · obtain ⟨q, -, h⟩ := bind_eq_ok.mp h
      cases h
      rfl

theorem record_register (s : Solver τ) (x : Var) : (s.register x).record = s.record := by
  unfold register
  split <;> rfl

theorem record_takeViolated {taken : Option (Var × Violation τ)} (h : s.takeViolated = (taken, t)) :
    t.record = s.record := by
  unfold takeViolated at h
  split at h <;> (cases h; rfl)

theorem record_addRow {d : LinearForm} (h : s.addRow x d = .ok t) : t.record = s.record := by
  have hroom : ∀ (xs : List Var) (s : Solver τ), (xs.foldl register s).record = s.record := by
    intro xs
    induction xs with
    | nil => exact fun _ => rfl
    | cons y ys ih => exact fun s => (ih (s.register y)).trans (record_register s y)
  obtain ⟨tableau, -, h⟩ := bind_eq_ok.mp h
  obtain ⟨value, -, h⟩ := bind_eq_ok.mp h
  obtain ⟨safe, -, h⟩ := bind_eq_ok.mp h
  obtain ⟨store, -, h⟩ := bind_eq_ok.mp h
  have hinspect : t.record = (d.vars.foldl register (s.register x)).record := (record_inspect h).trans rfl
  exact hinspect.trans ((hroom d.vars (s.register x)).trans (record_register s x))

/-! ### Steps with an event of their own -/

theorem record_update (h : s.update x v = .ok t) : t.record = (s.note .update).record := by
  unfold update at h
  split at h
  · cases h
  · obtain ⟨slot, -, h⟩ := bind_eq_ok.mp h
    obtain ⟨u, hu, h⟩ := bind_eq_ok.mp h
    obtain ⟨w, hw, h⟩ := bind_eq_ok.mp h
    cases h
    exact record_note ((shifted_followAll hu).trans (shifted_assign hw)).record .update

/-- Nothing is noted, or an update. -/
theorem record_settleBound {move : DeltaRat → Bool} (h : s.settleBound x v move = .ok t) :
    t.record = s.record ∨ t.record = (s.note .update).record := by
  unfold settleBound at h
  split at h
  · exact Or.inl (record_inspect h)
  · obtain ⟨slot, -, h⟩ := bind_eq_ok.mp h
    split at h
    · exact Or.inr (record_update h)
    · cases h
      exact Or.inl rfl

theorem record_clamp (h : s.clamp x = .ok t) : t.record = s.record ∨ t.record = (s.note .update).record := by
  obtain ⟨slot, -, h⟩ := bind_eq_ok.mp h
  split at h
  · cases h
    exact Or.inl rfl
  · exact Or.inr (record_update h)

/-- A pivot notes itself once the values have moved. Then the rows change, and the variable that has entered is watched. -/
theorem pivot_inv (h : s.pivot l e v = .ok t) : ∃ (u w : Solver τ) (tableau : Tableau), Shifted s u ∧
    Shifted { u.notePivot with tableau := tableau } w ∧ w.isBasic e = true ∧ w.watch e = .ok t := by
  unfold pivot at h
  split at h
  · cases h
  · split at h
    · cases h
    · obtain ⟨f, -, h⟩ := bind_eq_ok.mp h
      split at h
      · cases h
      · obtain ⟨slot, -, h⟩ := bind_eq_ok.mp h
        split at h
        · cases h
        · obtain ⟨s₁, h₁, h⟩ := bind_eq_ok.mp h
          obtain ⟨slot', -, h⟩ := bind_eq_ok.mp h
          obtain ⟨s₂, h₂, h⟩ := bind_eq_ok.mp h
          obtain ⟨s₃, h₃, h⟩ := bind_eq_ok.mp h
          obtain ⟨tableau, -, h⟩ := bind_eq_ok.mp h
          obtain ⟨s₄, h₄, h⟩ := bind_eq_ok.mp h
          obtain ⟨hbasic, hqueue⟩ := inspect_inv h₄
          refine ⟨s₃, s₄, tableau, ((shifted_assign h₁).trans (shifted_assign h₂)).trans (shifted_followAll h₃),
            hqueue.shifted, ?_, h⟩
          obtain ⟨queue, rfl, -⟩ := hqueue.exists_eq
          exact hbasic

theorem record_pivot (h : s.pivot l e v = .ok t) : ∃ u : Solver τ, u.record = s.record ∧ t.record = u.notePivot.record := by
  obtain ⟨u, w, tableau, hu, hw, -, ht⟩ := pivot_inv h
  exact ⟨u, hu.record, (record_watch ht).trans hw.record⟩

theorem record_leaveRepair_of_ne {o : Outcome τ} (h : s.leaveRepair o = .ok t) (ho : o.conflict? = none) :
    t.record = s.record := by
  cases o with
  | sat =>
    cases h
    rfl
  | unsat c => cases ho
  | interrupted => exact record_inspectAll (s := { s with queue := s.queue.cleared }) h

theorem record_leaveRepair_unsat {c : Conflict τ} (h : s.leaveRepair (.unsat c) = .ok t) :
    t.record = (s.report c).record := by
  obtain ⟨u, hu, h⟩ := bind_eq_ok.mp h
  cases h
  exact record_report ((record_inspectAll hu).trans rfl) c

/-! ### The early scan -/

/-- What the scan notes if it comes upon the conflicts `found`. -/
def scanNotes (found : List (Conflict τ)) : List Event :=
  (match Conflict.smallest found with
    | some (_, _ + 1) => [.earlyImprovement]
    | _ => []) ++ List.replicate found.length .earlyConflict

theorem mem_scanNotes {found : List (Conflict τ)} {e : Event} (h : e ∈ scanNotes found) :
    e = .earlyImprovement ∨ e = .earlyConflict := by
  rcases List.mem_append.mp h with h | h
  · split at h
    · exact Or.inl (List.mem_singleton.mp h)
    · cases h
  · exact Or.inr (List.eq_of_mem_replicate h)

theorem count_scanNotes_of_ne {found : List (Conflict τ)} {e : Event} (h : e ≠ .earlyImprovement) (h' : e ≠ .earlyConflict) :
    (scanNotes found).count e = 0 :=
  List.count_eq_zero.mpr fun hin => (mem_scanNotes hin).elim h h'

theorem count_scanNotes (found : List (Conflict τ)) : (scanNotes found).count .earlyConflict = found.length := by
  rw [scanNotes, List.count_append, List.count_replicate_self]
  split <;> exact Nat.zero_add _

theorem foldl_note (e : Event) (cs : List (Conflict τ)) (s : Solver τ) :
    cs.foldl (fun s _ => s.note e) s = { s with log := List.replicate cs.length e ++ s.log } := by
  induction cs generalizing s with
  | nil => rfl
  | cons c cs ih =>
    rw [List.foldl_cons, ih, List.length_cons, List.replicate_succ', List.append_assoc]
    rfl

/-- What the early scan has done: it has asked the rows of all violators, it answers a smallest of their conflicts, and all that it
    has changed is the queue and the log. -/
theorem earlyConflict_inv [DecidableEq τ] {answer : Option (Conflict τ)} (h : s.earlyConflict = .ok (answer, t)) :
    ∃ u answers, Requeued s u ∧ s.violators.mapM u.conflictOf = .ok answers ∧
      answer = (Conflict.smallest (answers.filterMap id)).map (·.1) ∧
      t = { u with log := scanNotes (answers.filterMap id) ++ u.log } := by
  obtain ⟨u, hu, h⟩ := bind_eq_ok.mp h
  obtain ⟨answers, hanswers, h⟩ := bind_eq_ok.mp h
  refine ⟨u, answers, (requeued_cleared s).trans (requeued_inspectAll hu), hanswers, ?_⟩
  have hnoted := foldl_note .earlyConflict (answers.filterMap id) u
  rw [scanNotes]
  simp only at h
  split at h
  · rename_i hsmallest
    cases h
    rw [hsmallest]
    exact ⟨rfl, hnoted⟩
  · rename_i hsmallest
    cases h
    rw [hsmallest]
    exact ⟨rfl, hnoted⟩
  · rename_i hsmallest
    cases h
    rw [hsmallest]
    exact ⟨rfl, congrArg (note · .earlyImprovement) hnoted⟩

end LinReal.Solver
