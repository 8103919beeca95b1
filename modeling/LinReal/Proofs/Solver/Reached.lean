import LinReal.Proofs.Solver.Rows
import LinReal.Proofs.Solver.Assertions
import LinReal.Proofs.Solver.Scopes
import LinReal.Proofs.Solver.Searches

/-! Reached states: those that any sequence of calls leads to, from a solver without variables. Every call keeps the
    invariant, whatever the order of calls; and unless a call moves a variable outside its bounds, the nonbasic
    variables stay within theirs, also at the head of the loop of every search. -/

namespace LinReal.Solver

variable {τ β : Type} [DecidableEq τ]

/-- A call of a solver, with the definitions that it has been given before and after. Variables are moved only to values
    that `admits` allows. -/
inductive Call (admits : Solver τ → Var → DeltaRat → Prop) :
    List (Var × LinearForm) → Solver τ → List (Var × LinearForm) → Solver τ → Prop where
  | register {ds s} (x : Var) : Call admits ds s ds (s.register x)
  | addRow {ds s t} (x : Var) (d : LinearForm) (h : s.addRow x d = .ok t) : Call admits ds s ((x, d) :: ds) t
  | assertBound {ds s t} (side : Side) (x : Var) (v : DeltaRat) (token : τ) {answer : Option (Conflict τ)}
      (h : s.assertBound side x v token = .ok (answer, t)) : Call admits ds s ds t
  | assertEqual {ds s t} (x : Var) (v : DeltaRat) (token : τ) {answer : Option (Conflict τ)}
      (h : s.assertEqual x v token = .ok (answer, t)) : Call admits ds s ds t
  | update {ds s t} (x : Var) (v : DeltaRat) (hv : admits s x v) (h : s.update x v = .ok t) : Call admits ds s ds t
  | pivot {ds s t} (l e : Var) (v : DeltaRat) (hv : admits s l v) (h : s.pivot l e v = .ok t) : Call admits ds s ds t
  | search {ds s t} {β : Type} (budget : Budget β) (b : β) (n : Nat) {o : Outcome τ} {b' : β}
      (h : s.repairUpTo n budget b = .ok (o, b', t)) : Call admits ds s ds t
  | commit {ds s} : Call admits ds s ds s.commit
  | revert {ds s t} (h : s.revert = .ok t) : Call admits ds s ds t
  | push {ds s} : Call admits ds s ds s.push
  | pop {ds s t} (h : s.pop = .ok t) : Call admits ds s ds t

/-- The states that calls lead to from a solver without variables. -/
inductive Reached (settings : Settings) (admits : Solver τ → Var → DeltaRat → Prop) :
    List (Var × LinearForm) → Solver τ → Prop where
  | new : Reached settings admits [] (new settings)
  | call {ds s es t} (h : Reached settings admits ds s) (hc : Call admits ds s es t) : Reached settings admits es t

/-- The states at the head of the loop of a search, with the number of passes made and what is left of the budget. -/
inductive Head (budget : Budget β) (s : Solver τ) (b : β) : Nat → β → Solver τ → Prop where
  | first {t} (he : s.queue.isEmpty = false) (ht : s.beginRepair = .ok (none, t)) : Head budget s b 0 b t
  | next {k c t d u} (h : Head budget s b k c t) (hp : t.pass budget c = .ok (none, d, u)) : Head budget s b (k + 1) d u

/-- Variables may be moved anywhere. -/
def Anywhere (_ : Solver τ) (_ : Var) (_ : DeltaRat) : Prop := True

/-- Variables may be moved within their bounds. -/
def WithinBounds (s : Solver τ) (x : Var) (v : DeltaRat) : Prop := s.store.bounds.Admits x v

variable {s t : Solver τ} {ds es : List (Var × LinearForm)} {settings : Settings} {budget : Budget β} {b c : β} {k : Nat}
  {admits : Solver τ → Var → DeltaRat → Prop}

/-! ### Every call keeps the invariant -/

theorem Call.kept (hc : Call admits ds s es t) (h : s.Sound ds) :
    t.Sound es ∧ ((∀ s x v, admits s x v → s.store.bounds.Admits x v) → s.Settled → t.Settled) := by
  cases hc with
  | register x => exact ⟨h.register x, fun _ => (h.coherent.announced_register x).settled⟩
  | addRow x d ht =>
    obtain ⟨hnb, hocc, hself⟩ := addRow_requires h.coherent ht
    obtain ⟨t', ht', hsound, -, hsettled⟩ := addRow_ok h hnb hocc hself
    cases ht.symm.trans ht'
    exact ⟨hsound, fun _ => hsettled⟩
  | assertBound side x v token ht =>
    obtain ⟨answer, t', ht', hasserted⟩ := assertBound_ok h side x v token
    cases ht.symm.trans ht'
    exact ⟨hasserted.sound, fun _ => hasserted.settled⟩
  | assertEqual x v token ht =>
    obtain ⟨answer, t', ht', hasserted⟩ := assertEqual_ok h x v token
    cases ht.symm.trans ht'
    exact ⟨hasserted.sound, fun _ => hasserted.settled⟩
  | update x v hv ht =>
    obtain ⟨hnb, hlt⟩ := update_requires h.coherent.shaped ht
    obtain ⟨t', ht', hmoved⟩ := update_ok h.coherent.shaped hnb hlt v
    cases ht.symm.trans ht'
    exact ⟨hmoved.sound h, fun hadm => hmoved.settled (hadm s x v hv)⟩
  | pivot l e v hv ht =>
    obtain ⟨r, a, hr, ha⟩ := pivot_requires ht
    obtain ⟨t', ht', hpivoted, hshaped⟩ := pivot_ok h.coherent.shaped hr ha v
    cases ht.symm.trans ht'
    exact ⟨hpivoted.sound h hshaped, fun hadm => hpivoted.settled h.coherent.shaped (hadm s l v hv)⟩
  | search budget b n ht =>
    obtain ⟨hsearched, hsound⟩ := repairUpTo_searched h ht
    exact ⟨hsound, fun _ => hsearched.keeps.settled⟩
  | commit => exact ⟨h.commit.1, fun _ => h.commit.2.2⟩
  | revert ht =>
    obtain ⟨t', ht', hsound, -, hsettled⟩ := revert_ok h
    cases ht.symm.trans ht'
    exact ⟨hsound, fun _ _ => hsettled⟩
  | push => exact ⟨h.push.1, fun _ => h.push.2.2.2⟩
  | pop ht =>
    obtain ⟨t', ht', hsound, -, -, hsettled⟩ := pop_ok h
    cases ht.symm.trans ht'
    exact ⟨hsound, fun _ => hsettled⟩

theorem Reached.sound (h : Reached settings admits ds s) : s.Sound ds := by
  induction h with
  | new => exact sound_new settings
  | call _ hc ih => exact (hc.kept ih).1

theorem Reached.settled (h : Reached settings WithinBounds ds s) : s.Settled := by
  induction h with
  | new => exact settled_new settings
  | call hs hc ih => exact (hc.kept hs.sound).2 (fun _ _ _ hv => hv) ih

/-! ### Conflicts -/

/-- Every conflict that a call answers is sound, wherever variables have been moved. -/
theorem Reached.sound_conflicts (h : Reached settings Anywhere ds s) :
    (∀ side x v token conflict t, s.assertBound side x v token = .ok (some conflict, t) →
      conflict.Sound ds t.store.bounds [token] fun w => side.outside (w x) v = false) ∧
    (∀ x v token conflict t, s.assertEqual x v token = .ok (some conflict, t) →
      conflict.Sound ds t.store.bounds [token] fun w => w x = v) ∧
    (∀ (β : Type) (budget : Budget β) b n conflict b' t, s.repairUpTo n budget b = .ok (.unsat conflict, b', t) →
      conflict.Sound ds t.store.bounds [] fun _ => True) ∧
    ∀ x conflict, s.conflictOf x = .ok (some conflict) → conflict.Sound ds s.store.bounds [] fun _ => True := by
  have hs := h.sound
  refine ⟨fun side x v token conflict t ht => ?_, fun x v token conflict t ht => ?_,
    fun β budget b n conflict b' t ht => ?_, fun x conflict hc => ?_⟩
  · obtain ⟨answer, t', ht', hasserted⟩ := assertBound_ok hs side x v token
    cases ht.symm.trans ht'
    refine (hasserted.refused conflict rfl).2.mono fun w hw side' hside => ?_
    exact hside ▸ hw
  · obtain ⟨answer, t', ht', hasserted⟩ := assertEqual_ok hs x v token
    cases ht.symm.trans ht'
    refine (hasserted.refused conflict rfl).2.mono fun w hw side _ => ?_
    rw [hw]
    exact Side.outside_self _ _
  · exact (repairUpTo_searched hs ht).1.unsat conflict rfl
  · have hx := conflictOf_requires hc
    obtain ⟨c, hc', hsound⟩ := conflictOf_ok hs.coherent.shaped hs.coherent.denotes hs.coherent.solves hx
    cases hc.symm.trans hc'
    exact hsound conflict rfl

/-- A sum of two variables that are at most zero is never two. -/
theorem Reached.sound_conflicts_of_sum : ∃ (s t : Solver Nat) (conflict : Conflict Nat),
    Reached .standard Anywhere [(2, [(0, 1), (1, 1)])] s ∧
      s.repairUpTo 9 .unlimited () = .ok (.unsat conflict, (), t) ∧ conflict.tokens = [0, 1, 2] ∧
      conflict.Sound [(2, [(0, 1), (1, 1)])] t.store.bounds [] fun _ => True := by
  have hrun : (do
      let s ← (Solver.new .standard).addRow 2 [(0, 1), (1, 1)]
      let (_, s) ← s.assertBound .lower 2 (.ofRat 2) 0
      let (_, s) ← s.assertBound .upper 0 (.ofRat 0) 1
      let (_, s) ← s.assertBound .upper 1 (.ofRat 0) 2
      let (o, _, _) ← s.repairUpTo 9 .unlimited ()
      return o) = (.ok (.unsat ⟨[0, 1, 2]⟩) : Except Fault (Outcome Nat)) := by decide +kernel
  obtain ⟨s₁, h₁, hrun⟩ := bind_eq_ok.mp hrun
  obtain ⟨⟨_, s₂⟩, h₂, hrun⟩ := bind_eq_ok.mp hrun
  obtain ⟨⟨_, s₃⟩, h₃, hrun⟩ := bind_eq_ok.mp hrun
  obtain ⟨⟨_, s₄⟩, h₄, hrun⟩ := bind_eq_ok.mp hrun
  obtain ⟨⟨o, _, t⟩, ht, ho⟩ := bind_eq_ok.mp hrun
  cases ho
  have hs : Reached .standard Anywhere [(2, [(0, 1), (1, 1)])] s₄ :=
    .call (.call (.call (.call .new (.addRow _ _ h₁)) (.assertBound _ _ _ _ h₂)) (.assertBound _ _ _ _ h₃))
      (.assertBound _ _ _ _ h₄)
  exact ⟨s₄, t, _, hs, ht, rfl, hs.sound_conflicts.2.2.1 _ _ _ _ _ _ _ ht⟩

/-! ### Searches -/

theorem Head.kept (hh : Head budget s b k c t) (h : s.Sound ds) : t.Sound ds ∧ (s.Settled → t.Settled) := by
  induction hh with
  | first _ ht =>
    obtain ⟨answer, t', ht', hpaused, hqueued, hsorted, -⟩ := beginRepair_ok h
    cases ht.symm.trans ht'
    exact ⟨⟨h.coherent.idle hpaused.idle, hqueued, hsorted⟩, hpaused.idle.settled⟩
  | next _ hp ih =>
    obtain ⟨o, d, u, hp', hsearched, -⟩ := pass_ok ih.1 budget _
    cases hp.symm.trans hp'
    exact ⟨hsearched.sound, hsearched.keeps.settled ∘ ih.2⟩

/-- Nonbasic variables stay within their bounds and violators stay queued, between calls and at the head of the loop of
    every search. So a search that succeeds leaves all variables within their bounds and all definitions satisfied. -/
theorem Reached.invariant (h : Reached settings WithinBounds ds s) :
    (∀ x, s.isRegistered x = true → s.isBasic x = false → s.Within x) ∧
    (∀ x, s.isBasic x = true → ¬s.Within x → x ∈ s.queue.order) ∧
    (∀ (β : Type) (budget : Budget β) b k c t, Head budget s b k c t →
      (∀ x, t.isRegistered x = true → t.isBasic x = false → t.Within x) ∧
      ∀ x, t.isBasic x = true → ¬t.Within x → x ∈ t.queue.order) ∧
    ∀ (β : Type) (budget : Budget β) b n b' t, s.repairUpTo n budget b = .ok (.sat, b', t) →
      (∀ x, t.isRegistered x = true → t.Within x) ∧ t.isConsistent = true ∧ SatisfiesDelta t.store.value ds := by
  have hs := h.sound
  have hset := h.settled
  refine ⟨fun x _ => hset x, hs.queued, fun β budget b k c t hh => ?_, fun β budget b n b' t ht => ?_⟩
  · obtain ⟨hsound, hsettled⟩ := hh.kept hs
    exact ⟨fun x _ => hsettled hset x, hsound.queued⟩
  · obtain ⟨hsearched, hsound⟩ := repairUpTo_searched hs ht
    have hwithin : ∀ x, t.Within x := by
      intro x
      cases hx : t.isBasic x with
      | true => exact hsearched.sat rfl x hx
      | false => exact hsearched.keeps.settled hset x hx
    exact ⟨fun x _ => hwithin x, isConsistent_of_within fun x _ => hwithin x,
      hsound.coherent.denotes.delta.mp hsound.coherent.solves⟩

/-- A sum may be two if only one of its variables is at most zero. -/
theorem Reached.invariant_of_sum : ∃ s t : Solver Nat, Reached .standard WithinBounds [(2, [(0, 1), (1, 1)])] s ∧
    s.isConsistent = false ∧ s.repairUpTo 9 .unlimited () = .ok (.sat, (), t) ∧ t.isConsistent = true ∧
      SatisfiesDelta t.store.value [(2, [(0, 1), (1, 1)])] := by
  have hrun : (do
      let s ← (Solver.new .standard).addRow 2 [(0, 1), (1, 1)]
      let (_, s) ← s.assertBound .lower 2 (.ofRat 2) 0
      let (_, s) ← s.assertBound .upper 0 (.ofRat 0) 1
      let (o, _, _) ← s.repairUpTo 9 .unlimited ()
      return (s.isConsistent, o)) = (.ok (false, .sat) : Except Fault (Bool × Outcome Nat)) := by decide +kernel
  obtain ⟨s₁, h₁, hrun⟩ := bind_eq_ok.mp hrun
  obtain ⟨⟨_, s₂⟩, h₂, hrun⟩ := bind_eq_ok.mp hrun
  obtain ⟨⟨_, s₃⟩, h₃, hrun⟩ := bind_eq_ok.mp hrun
  obtain ⟨⟨o, _, t⟩, ht, ho⟩ := bind_eq_ok.mp hrun
  obtain ⟨hconsistent, rfl⟩ := Prod.mk.inj (Except.ok.inj ho)
  have hs : Reached .standard WithinBounds [(2, [(0, 1), (1, 1)])] s₃ :=
    .call (.call (.call .new (.addRow _ _ h₁)) (.assertBound _ _ _ _ h₂)) (.assertBound _ _ _ _ h₃)
  exact ⟨s₃, t, hs, hconsistent, ht, (hs.invariant.2.2.2 _ _ _ _ _ _ ht).2⟩

/-! ### Values -/

/-- Wherever variables have been moved, an audit finds no defect; present and committed values satisfy every definition, and
    every basic variable has both the values of its row. -/
theorem Reached.audited (h : Reached settings Anywhere ds s) :
    s.audit = .ok none ∧ SatisfiesDelta s.store.value ds ∧ SatisfiesDelta s.store.safe ds ∧
    ∀ x, s.isBasic x = true → ∃ slot, s.store.slot x = .ok slot ∧ s.rowValue (·.value) x = .ok slot.value ∧
      s.rowValue (·.safe) x = .ok slot.safe := by
  have hcoh := h.sound.coherent
  refine ⟨audit_eq_none hcoh, hcoh.denotes.delta.mp hcoh.solves, hcoh.denotes.delta.mp hcoh.safe, fun x hx => ?_⟩
  obtain ⟨f, hf⟩ := hcoh.shaped.wellFormed.isBasic_iff.mp hx
  exact hcoh.rowValue_ok hf

/-- A variable is moved far outside, a search is interrupted after one pivot, a row is added in a scope, and its owner is moved
    to any value; the committed value of that owner is another one. -/
theorem Reached.audited_of_moves : ∃ s : Solver Nat,
    Reached .standard Anywhere [(3, [(2, 2), (1, -1)]), (2, [(0, 1), (1, 1)])] s ∧ s.store.value 3 = .ofRat 100 ∧
      s.store.safe 3 = 0 ∧ s.audit = .ok none ∧
      SatisfiesDelta s.store.value [(3, [(2, 2), (1, -1)]), (2, [(0, 1), (1, 1)])] ∧
      SatisfiesDelta s.store.safe [(3, [(2, 2), (1, -1)]), (2, [(0, 1), (1, 1)])] := by
  have hrun : (do
      let s ← (Solver.new .standard).addRow 2 [(0, 1), (1, 1)]
      let (_, s) ← s.assertBound .lower 2 (.ofRat 2) 0
      let s ← s.update 0 (.ofRat (-7))
      let (o, _, s) ← s.repairUpTo 9 .pivots 1
      let s ← s.push.addRow 3 [(2, 2), (1, -1)]
      let s ← s.pivot 3 1 (.ofRat 100)
      return (o, s.store.value 3, s.store.safe 3)) =
      (.ok (.interrupted, .ofRat 100, 0) : Except Fault (Outcome Nat × DeltaRat × DeltaRat)) := by decide +kernel
  obtain ⟨s₁, h₁, hrun⟩ := bind_eq_ok.mp hrun
  obtain ⟨⟨_, s₂⟩, h₂, hrun⟩ := bind_eq_ok.mp hrun
  obtain ⟨s₃, h₃, hrun⟩ := bind_eq_ok.mp hrun
  obtain ⟨⟨o, _, s₄⟩, h₄, hrun⟩ := bind_eq_ok.mp hrun
  obtain ⟨s₅, h₅, hrun⟩ := bind_eq_ok.mp hrun
  obtain ⟨s₆, h₆, hrun⟩ := bind_eq_ok.mp hrun
  obtain ⟨-, hvalues⟩ := Prod.mk.inj (Except.ok.inj hrun)
  obtain ⟨hvalue, hsafe⟩ := Prod.mk.inj hvalues
  have hs : Reached .standard Anywhere [(3, [(2, 2), (1, -1)]), (2, [(0, 1), (1, 1)])] s₆ :=
    .call (.call (.call (.call (.call (.call (.call .new (.addRow _ _ h₁)) (.assertBound _ _ _ _ h₂))
      (.update _ _ trivial h₃)) (.search _ _ _ h₄)) .push) (.addRow _ _ h₅)) (.pivot _ _ _ trivial h₆)
  obtain ⟨haudit, hpresent, hcommitted, -⟩ := hs.audited
  exact ⟨s₆, hs, hvalue, hsafe, haudit, hpresent, hcommitted⟩

end LinReal.Solver
