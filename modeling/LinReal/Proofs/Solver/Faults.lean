import LinReal.Proofs.Solver.Histories
import LinReal.Proofs.Solver.Lockstep

/-! Faults. Wherever variables have been moved, and whether or not the solver audits itself, a call that requires nothing of the
    state meets no fault; a search goes on as long as it has passes left; and a row is refused only for a reason that can be read
    off the rows. What an operation looks up without a check is there: every variable that it can come upon has a slot. -/

namespace LinReal

namespace Store

variable {τ : Type} {s t : Store τ} {x : Var} {v : DeltaRat}

/-- The variables listed as changed have slots. -/
def Listed (s : Store τ) : Prop := ∀ x ∈ s.changed, x < s.size

theorem Listed.congr (h : s.Listed) (hc : t.changed = s.changed) (hs : t.size = s.size) : t.Listed := by
  intro y hy
  rw [hs]
  exact h y (hc ▸ hy)

theorem Listed.revise {f : Slot τ → Slot τ} (h : s.Listed) (ht : s.revise x f = .ok t) : t.Listed := by
  obtain ⟨old, hold, ht⟩ := bind_eq_ok.mp ht
  cases ht
  have hx : x < s.size := Table.lt_size_of_get? (slot_eq_ok_iff.mp hold)
  have hsize : (s.slots.set x (f old)).size = s.size := Table.size_set _ _ _
  intro y hy
  refine Nat.lt_of_lt_of_eq ?_ hsize.symm
  simp only at hy
  split at hy
  · rcases List.mem_cons.mp hy with rfl | hy
    · exact hx
    · exact h y hy
  · exact h y hy

theorem Listed.install (h : s.Listed) (x : Var) (v : DeltaRat) : (s.install x v).Listed := by
  intro y hy
  rw [(s.install_view x v).1]
  exact Nat.lt_of_lt_of_le (h y hy) (Nat.le_max_left _ _)

theorem Listed.setBound {side : Side} {l : Bound τ} (h : s.Listed) (ht : s.setBound side x l = .ok t) : t.Listed := by
  obtain ⟨old, -, ht⟩ := bind_eq_ok.mp ht
  cases ht
  exact h.congr rfl (Table.size_set _ _ _)

theorem Listed.pop (h : s.Listed) (hr : s.InRange) : s.pop.2.Listed := by
  refine h.congr ?_ (pop_view hr).1
  unfold Store.pop
  split <;> rfl

theorem listed_commit (s : Store τ) : s.commit.Listed := fun _ hy => by cases hy

theorem listed_revert (s : Store τ) : s.revert.Listed := fun _ hy => by cases hy

end Store

namespace Solver

variable {τ β : Type} {s t u : Solver τ} {ds es : List (Var × LinearForm)} {x y l e : Var} {v step : DeltaRat}
  {d : LinearForm} {budget : Budget β} {b b' c : β} {n k : Nat}

/-! ### Changed variables -/

theorem Idle.listed (hi : Idle s t) (h : s.store.Listed) : t.store.Listed := hi.store ▸ h

theorem listed_assign (h : s.store.Listed) (ht : s.assign x v = .ok t) : t.store.Listed := by
  obtain ⟨st, hst, ht⟩ := bind_eq_ok.mp ht
  cases ht
  exact h.revise hst

theorem listed_follow (h : s.store.Listed) (ht : follow x step s y = .ok t) : t.store.Listed := by
  obtain ⟨f, -, ht⟩ := bind_eq_ok.mp ht
  split at ht
  · cases ht
    exact h
  · obtain ⟨slot, -, ht⟩ := bind_eq_ok.mp ht
    obtain ⟨u, hu, ht⟩ := bind_eq_ok.mp ht
    exact (idle_inspect ht).listed (listed_assign h hu)

theorem listed_update (h : s.store.Listed) (ht : s.update x v = .ok t) : t.store.Listed := by
  unfold update at ht
  split at ht
  · cases ht
  · obtain ⟨slot, -, ht⟩ := bind_eq_ok.mp ht
    obtain ⟨u, hu, ht⟩ := bind_eq_ok.mp ht
    obtain ⟨w, hw, ht⟩ := bind_eq_ok.mp ht
    cases ht
    exact (idle_note w .update).listed (listed_assign (foldlM_invariant listed_follow h hu) hw)

theorem listed_pivot (h : s.store.Listed) (ht : s.pivot l e v = .ok t) : t.store.Listed := by
  obtain ⟨f, a, -, -, ht⟩ := exchange_of_pivot ht
  obtain ⟨slot, -, ht⟩ := bind_eq_ok.mp ht
  split at ht
  · cases ht
  · obtain ⟨s₁, h₁, ht⟩ := bind_eq_ok.mp ht
    obtain ⟨slot', -, ht⟩ := bind_eq_ok.mp ht
    obtain ⟨s₂, h₂, ht⟩ := bind_eq_ok.mp ht
    obtain ⟨s₃, h₃, ht⟩ := bind_eq_ok.mp ht
    obtain ⟨tableau, -, ht⟩ := bind_eq_ok.mp ht
    obtain ⟨s₄, h₄, ht⟩ := bind_eq_ok.mp ht
    have hmoved := foldlM_invariant listed_follow (listed_assign (listed_assign h h₁) h₂) h₃
    have hnoted := (idle_notePivot s₃).listed hmoved
    -- Only the tableau changes before the entering variable is inspected.
    have hinspected : s₄.store = s₃.notePivot.store := (idle_inspect h₄).store
    exact (idle_watch ht).listed (hinspected ▸ hnoted)

theorem listed_register (h : s.store.Listed) (x : Var) : (s.register x).store.Listed := by
  unfold register
  split
  · exact h
  · exact h.install x 0

theorem listed_addRow (h : s.store.Listed) (ht : s.addRow x d = .ok t) : t.store.Listed := by
  have hroom : (d.vars.foldl register (s.register x)).store.Listed :=
    List.foldlRecOn (motive := fun u : Solver τ => u.store.Listed) d.vars register (listed_register h x)
      fun u hu y _ => listed_register hu y
  obtain ⟨tableau, -, ht⟩ := bind_eq_ok.mp ht
  obtain ⟨value, -, ht⟩ := bind_eq_ok.mp ht
  obtain ⟨safe, -, ht⟩ := bind_eq_ok.mp ht
  obtain ⟨store, hstore, ht⟩ := bind_eq_ok.mp ht
  exact (idle_inspect ht).listed (hroom.revise hstore)

theorem listed_settleBound {move : DeltaRat → Bool} (h : s.store.Listed) (ht : s.settleBound x v move = .ok t) :
    t.store.Listed := by
  unfold settleBound at ht
  split at ht
  · exact (idle_inspect ht).listed h
  · obtain ⟨slot, -, ht⟩ := bind_eq_ok.mp ht
    split at ht
    · exact listed_update h ht
    · cases ht
      exact h

theorem listed_clamp (h : s.store.Listed) (ht : s.clamp x = .ok t) : t.store.Listed := by
  obtain ⟨slot, -, ht⟩ := bind_eq_ok.mp ht
  split at ht
  · cases ht
    exact h
  · exact listed_update h ht

theorem Walk.listed (hw : Walk s t) (h : s.store.Listed) : t.store.Listed := by
  induction hw with
  | start => exact h
  | rest _ hi ih => exact hi.listed ih
  | pivot _ hu ih => exact listed_pivot ih hu

/-! ### Look-ups -/

/-- Whatever is looked up without a check is there: exactly the basic variables own rows, and the variables of rows, columns and
    histories have slots. -/
structure Allotted (s : Solver τ) : Prop where
  size : s.tableau.size = s.store.size
  columns : s.tableau.columns.size = s.store.size
  registered : ∀ x, s.isRegistered x = true → x < s.store.size
  basic : ∀ x, s.isBasic x = true ↔ ∃ f, s.tableau.row? x = some f
  row : ∀ b f, s.tableau.row? b = some f → b < s.store.size ∧ ∀ x ∈ f.vars, x < s.store.size
  column : ∀ x, ∀ b ∈ s.tableau.column x, s.isBasic b = true
  changed : s.store.Listed
  replaced : s.store.InRange

theorem Coherent.allotted (h : s.Coherent ds) (hl : s.store.Listed) : s.Allotted where
  size := h.shaped.size.symm
  columns := h.shaped.wellFormed.columns_size.trans h.shaped.size.symm
  registered _ hx := h.shaped.size ▸ h.room hx
  basic _ := h.shaped.wellFormed.isBasic_iff
  row _ _ hf := h.shaped.size ▸ ⟨Tableau.lt_size_of_row? hf, fun _ hx => h.shaped.wellFormed.range hf hx⟩
  column _ _ hb := h.shaped.wellFormed.isBasic_of_mem_column hb
  changed := hl
  replaced := h.disciplined.inRange

/-! ### Rows -/

theorem Sound.addRow_fails_iff (h : s.Sound ds) : (∃ fault, s.addRow x d = .error fault) ↔
    s.isBasic x = true ∨ s.tableau.occurs x = true ∨ x ∈ d.vars := by
  constructor
  · rintro ⟨fault, hfault⟩
    by_contra hno
    simp only [not_or, Bool.not_eq_true] at hno
    obtain ⟨t, ht, -⟩ := addRow_ok h hno.1 hno.2.1 hno.2.2
    cases hfault.symm.trans ht
  · intro hcause
    cases ht : s.addRow x d with
    | error fault => exact ⟨fault, rfl⟩
    | ok t =>
      obtain ⟨hnb, hocc, hself⟩ := addRow_requires h.coherent ht
      rcases hcause with hb | ho | hd
      · exact absurd (hb.symm.trans hnb) Bool.noConfusion
      · exact absurd (ho.symm.trans hocc) Bool.noConfusion
      · exact absurd hd hself

/-! ### Histories -/

variable [DecidableEq τ] {settings : Settings} {admits : Solver τ → Var → DeltaRat → Prop}

theorem listed_assert {a : Assertion τ} {answer : Option (Conflict τ)} (h : s.store.Listed)
    (ht : a.apply s = .ok (answer, t)) : t.store.Listed := by
  have hu := listed_register h a.var
  cases Assertion.apply_inv ht with
  | redundant => exact hu
  | refused => exact hu
  | narrowed _ _ _ hstore ht =>
    exact listed_settleBound (foldlM_invariant Store.Listed.setBound hu hstore) ht

theorem Call.listed (hc : Call admits ds s es t) (hs : s.Sound ds) (h : s.store.Listed) : t.store.Listed := by
  cases hc with
  | register x => exact listed_register h x
  | addRow x d ht => exact listed_addRow h ht
  | assertBound side x v token ht => exact listed_assert (a := .bound side x v token) h ht
  | assertEqual x v token ht => exact listed_assert (a := .equal x v token) h ht
  | update x v hv ht => exact listed_update h ht
  | pivot l e v hv ht => exact listed_pivot h ht
  | search budget b n ht => exact (repairUpTo_traced ht).walk.listed h
  | commit => exact Store.listed_commit s.store
  | revert ht =>
    obtain ⟨u, hu, ht⟩ := bind_eq_ok.mp ht
    exact (idle_inspectAll ht).listed (foldlM_invariant listed_clamp (Store.listed_revert s.store) hu)
  | push => exact h
  | pop ht => exact (idle_inspectAll ht).listed (h.pop hs.coherent.disciplined.inRange)

theorem Reached.listed (h : Reached settings admits ds s) : s.store.Listed := by
  induction h with
  | new => exact fun x hx => by cases hx
  | call hs hc ih => exact hc.listed hs.sound ih

theorem Head.listed (hh : Head budget s b k c t) (h : s.store.Listed) : t.store.Listed := by
  induction hh with
  | first _ ht => exact (idle_beginRepair ht).listed h
  | next _ hp ih => exact (pass_traced hp).walk.listed ih

/-- Whatever is looked up without a check is there: now, at the head of the loop of every search, and after any one call. -/
structure Provided (ds : List (Var × LinearForm)) (s : Solver τ) : Prop where
  present : s.Allotted
  searching : ∀ (β : Type) (budget : Budget β) b k c t, Head budget s b k c t → t.Allotted
  called : ∀ es t, Call Anywhere ds s es t → t.Allotted

theorem Reached.provided (h : Reached settings Anywhere ds s) : s.Provided ds where
  present := h.sound.coherent.allotted h.listed
  searching _ _ _ _ _ _ hh := (hh.kept h.sound).1.coherent.allotted (hh.listed h.listed)
  called _ _ hc := (hc.kept h.sound).1.coherent.allotted (hc.listed h.sound h.listed)

/-! ### Searches -/

/-- From the head of the loop passes are made without a fault, until one ends the search or none is left. -/
theorem Head.runRounds_cases (hh : Head budget s b k c t) (h : s.Sound ds) (n : Nat) :
    (∃ r, t.runRounds budget n c = .ok r) ∨
      t.runRounds budget n c = .error .diverged ∧ ∃ d u, Head budget s b (k + n) d u := by
  induction n generalizing k c t with
  | zero => exact Or.inr ⟨rfl, c, t, hh⟩
  | succ n ih =>
    obtain ⟨o, d, u, hp, -⟩ := pass_ok (hh.kept h).1 budget c
    cases o with
    | none =>
      rw [runRounds_of_goes hp, Nat.add_comm n 1, ← Nat.add_assoc]
      exact ih (hh.next hp)
    | some o => exact Or.inl ⟨_, runRounds_of_ends hp⟩

theorem Sound.repairUpTo_cases (h : s.Sound ds) (budget : Budget β) (b : β) (n : Nat) :
    (∃ r, s.repairUpTo n budget b = .ok r) ∨
      s.repairUpTo n budget b = .error .diverged ∧ ∃ c t, Head budget s b n c t := by
  cases he : s.queue.isEmpty with
  | true => exact Or.inl ⟨(.sat, b, s.endRepair), by rw [repairUpTo, he]; rfl⟩
  | false =>
    obtain ⟨answer, u, hu, hpaused, hqueued, hsorted, hsound⟩ := beginRepair_ok h
    have hkeeps := hpaused.idle.keeps h.coherent
    cases answer with
    | some conflict =>
      obtain ⟨t, ht, -⟩ := leaveRepair_ok (hkeeps.unsat (hsound conflict rfl))
      exact Or.inl ⟨(.unsat conflict, b, t), by rw [repairUpTo_of_early he hu, ht]; rfl⟩
    | none =>
      rw [repairUpTo_of_begin he hu]
      rcases (Head.first he hu : Head budget s b 0 b u).runRounds_cases h n with ⟨⟨o, b', w⟩, hw⟩ | ⟨hw, hh⟩
      · obtain ⟨t, ht, -⟩ := leaveRepair_ok (runRounds_searched ⟨hkeeps.coherent, hqueued, hsorted⟩ hw)
        exact Or.inl ⟨(o, b', t), by rw [hw, ok_bind, ht]; rfl⟩
      · exact Or.inr ⟨by rw [hw]; rfl, by rwa [Nat.zero_add] at hh⟩

/-! ### Calls -/

/-- A call that requires nothing of the state, and makes no passes. -/
def Action.Unconditional : Action τ → Prop
  | .register _ | .assert _ | .commit | .revert | .push | .pop => True
  | .addRow _ _ | .update _ _ | .pivot _ _ _ | .search _ _ _ => False

theorem Action.apply_ok {a : Action τ} (h : s.Sound ds) (ha : a.Unconditional) : ∃ r, a.apply s = .ok r := by
  cases a with
  | register x => exact ⟨_, rfl⟩
  | assert a =>
    obtain ⟨answer, t, ht, -⟩ := a.apply_ok h
    exact ⟨(answer, t), ht⟩
  | commit => exact ⟨_, rfl⟩
  | revert =>
    obtain ⟨t, ht, -⟩ := revert_ok h
    exact ⟨(none, t), by simp only [Action.apply, ht]; rfl⟩
  | push => exact ⟨_, rfl⟩
  | pop =>
    obtain ⟨t, ht, -⟩ := pop_ok h
    exact ⟨(none, t), by simp only [Action.apply, ht]; rfl⟩
  | addRow x d | update x v | pivot l e v | search budget b n => exact ha.elim

/-- Wherever variables have been moved, a call that requires nothing meets no fault; a search fails only if it has made all the
    passes that it may make; and a row is refused exactly if its owner is basic, occurs in a row or occurs in its definition. Here
    and at the head of the loop of every search, what is looked up without a check is there. -/
theorem Reached.meets_no_fault (h : Reached settings Anywhere ds s) :
    s.Allotted ∧
    (∀ a : Action τ, a.Unconditional → ∃ r, a.apply s = .ok r) ∧
    (∀ (β : Type) (budget : Budget β) b n,
      ((∃ r, s.repairUpTo n budget b = .ok r) ∨
        s.repairUpTo n budget b = .error .diverged ∧ ∃ c t, Head budget s b n c t) ∧
      ∀ k c t, Head budget s b k c t → t.Allotted ∧ ∃ r, t.pass budget c = .ok r) ∧
    ∀ x d, (∃ fault, s.addRow x d = .error fault) ↔
      (∃ f, s.tableau.row? x = some f) ∨ (∃ b f, s.tableau.row? b = some f ∧ x ∈ f.vars) ∨ x ∈ d.vars := by
  have hs := h.sound
  have hwf := hs.coherent.shaped.wellFormed
  refine ⟨h.provided.present, fun a ha => a.apply_ok hs ha, fun β budget b n =>
    ⟨hs.repairUpTo_cases budget b n, fun k c t hh => ?_⟩, fun x d => ?_⟩
  · obtain ⟨o, c', u, hp, -⟩ := pass_ok (hh.kept hs).1 budget c
    exact ⟨h.provided.searching _ _ _ _ _ _ hh, _, hp⟩
  · rw [hs.addRow_fails_iff, ← hwf.isBasic_iff, ← hwf.occurs_iff]
    rfl

/-- A solver that audits itself: its variables are 3, 7 and 11, one of them was moved far outside its bounds, and no scope is open. -/
theorem Reached.meets_no_fault_of_gaps : ∃ s : Solver Nat,
    Reached ⟨true, none, true⟩ Anywhere [(7, [(3, 1), (11, 2)])] s ∧ s.store.value 3 = .ofRat 50 ∧
      (∃ r, (Action.pop : Action Nat).apply s = .ok r) ∧
      (∀ n fault, s.repairUpTo n .unlimited () = .error fault → fault = .diverged) ∧
      ∃ fault, s.addRow 3 [(20, 1)] = .error fault := by
  have hrun : (do
      let s ← (Solver.new ⟨true, none, true⟩).addRow 7 [(3, 1), (11, 2)]
      let (_, s) ← s.assertBound .upper 3 (.ofRat 0) 0
      let s ← s.update 3 (.ofRat 50)
      let s ← s.pivot 7 11 (.ofRat 100)
      let (_, s) ← s.assertBound .lower 11 (.ofRat 60) 1
      return (s.store.value 3, s.tableau.row? 11)) =
      (.ok (.ofRat 50, some [(3, -1/2), (7, 1/2)]) : Except Fault (DeltaRat × Option LinearForm)) := by decide +kernel
  obtain ⟨s₁, h₁, hrun⟩ := bind_eq_ok.mp hrun
  obtain ⟨⟨_, s₂⟩, h₂, hrun⟩ := bind_eq_ok.mp hrun
  obtain ⟨s₃, h₃, hrun⟩ := bind_eq_ok.mp hrun
  obtain ⟨s₄, h₄, hrun⟩ := bind_eq_ok.mp hrun
  obtain ⟨⟨_, s₅⟩, h₅, hrun⟩ := bind_eq_ok.mp hrun
  obtain ⟨hvalue, hrow⟩ := Prod.mk.inj (Except.ok.inj hrun)
  have hs : Reached ⟨true, none, true⟩ Anywhere [(7, [(3, 1), (11, 2)])] s₅ :=
    .call (.call (.call (.call (.call .new (.addRow _ _ h₁)) (.assertBound _ _ _ _ h₂)) (.update _ _ trivial h₃))
      (.pivot _ _ _ trivial h₄)) (.assertBound _ _ _ _ h₅)
  obtain ⟨-, hcalls, hsearches, hrows⟩ := hs.meets_no_fault
  refine ⟨s₅, hs, hvalue, hcalls .pop trivial, fun n fault hfault => ?_,
    (hrows 3 [(20, 1)]).mpr (Or.inr (Or.inl ⟨11, _, hrow, List.mem_cons_self⟩))⟩
  rcases (hsearches Unit .unlimited () n).1 with ⟨r, hr⟩ | ⟨hr, -⟩
  · cases hfault.symm.trans hr
  · cases hfault.symm.trans hr
    rfl

end Solver

end LinReal
