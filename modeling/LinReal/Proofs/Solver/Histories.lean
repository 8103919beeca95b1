import LinReal.Proofs.Solver.Passes
import LinReal.Proofs.Solver.Reached

/-! Histories of a solver: the calls that have led to a state, with what each of them said. Whatever was called in between, every
    bound of every level is what some assertion of the history said, under the token of that assertion. -/

namespace LinReal

/-- What can be asserted of a variable: a bound on a side, or a value. Conflicts name it by its token. -/
inductive Assertion (τ : Type) where
  | bound (side : Side) (x : Var) (v : DeltaRat) (token : τ)
  | equal (x : Var) (v : DeltaRat) (token : τ)
deriving DecidableEq, Repr

namespace Assertion

variable {τ : Type}

def var : Assertion τ → Var
  | bound _ x _ _ | equal x _ _ => x

def value : Assertion τ → DeltaRat
  | bound _ _ v _ | equal _ v _ => v

def token : Assertion τ → τ
  | bound _ _ _ token | equal _ _ token => token

/-- The sides on which the variable is limited. -/
def Limits : Assertion τ → Side → Prop
  | bound side _ _ _, side' => side' = side
  | equal _ _ _, _ => True

/-- Some values are as asserted. -/
def Holds (w : Var → DeltaRat) : Assertion τ → Prop
  | bound side x v _ => side.outside (w x) v = false
  | equal x v _ => w x = v

/-- The bound `l` on a side of `x` is as asserted. -/
structure Sets (a : Assertion τ) (side : Side) (x : Var) (l : Bound τ) : Prop where
  limits : a.Limits side
  var : a.var = x
  bound : l = ⟨a.value, a.token⟩

/-- The sides on which bounds are set, in turn. -/
def sides : Assertion τ → List Side
  | bound side _ _ _ => [side]
  | equal _ _ _ => [.lower, .upper]

/-- What a refusal is noted as. -/
def refusal : Assertion τ → Event
  | bound .lower _ _ _ => .lowerConflict
  | bound .upper _ _ _ => .upperConflict
  | equal _ _ _ => .equalityConflict

def apply [DecidableEq τ] (s : Solver τ) : Assertion τ → Except Fault (Option (Conflict τ) × Solver τ)
  | bound side x v token => s.assertBound side x v token
  | equal x v token => s.assertEqual x v token

variable {a : Assertion τ} {w : Var → DeltaRat} {s : Solver τ} {ds : List (Var × LinearForm)}

/-- An asserted value is asserted on both sides. -/
theorem holds_iff : a.Holds w ↔ ∀ side, a.Limits side → side.outside (w a.var) a.value = false := by
  cases a with
  | bound side x v token =>
    constructor
    · rintro h side' rfl
      exact h
    · exact fun h => h side rfl
  | equal x v token =>
    constructor
    · rintro h side -
      exact (show w x = v from h) ▸ Side.outside_self side _
    · intro h
      have hle : w x ≤ v := not_lt.mp (of_decide_eq_false (h .upper trivial))
      have hge : v ≤ w x := not_lt.mp (of_decide_eq_false (h .lower trivial))
      exact le_antisymm hle hge

theorem holds_of_eq (h : w a.var = a.value) : a.Holds w :=
  holds_iff.mpr fun side _ => h ▸ Side.outside_self side _

theorem apply_ok [DecidableEq τ] (h : s.Sound ds) (a : Assertion τ) :
    ∃ answer t, a.apply s = .ok (answer, t) ∧ Solver.Asserted ds s t answer a.Limits a.var a.value a.token := by
  cases a with
  | bound side x v token => exact Solver.assertBound_ok h side x v token
  | equal x v token => exact Solver.assertEqual_ok h x v token

/-- The ways of an assertion: it adds nothing to the bounds of its variable, it is refused for a bound on the other side, or it sets
    its bounds. -/
inductive Step [DecidableEq τ] (s : Solver τ) (a : Assertion τ) : Option (Conflict τ) → Solver τ → Prop where
  | redundant {slot : Slot τ} (hslot : (s.register a.var).store.slot a.var = .ok slot)
      (hreached : ∀ side, a.Limits side → slot.reached side a.value = true) : Step s a none (s.register a.var)
  | refused {slot : Slot τ} {side : Side} {c : Conflict τ}
      (hslot : (s.register a.var).store.slot a.var = .ok slot) (hc : Solver.clash slot side a.value a.token = some c)
      (hlimits : a.Limits side.opposite) :
      Step s a (some c) (((s.register a.var).note a.refusal).report c)
  | narrowed {slot : Slot τ} {store : Store τ} {t : Solver τ} {move : DeltaRat → Bool}
      (hslot : (s.register a.var).store.slot a.var = .ok slot)
      (htighter : ∃ side, a.Limits side ∧ slot.reached side a.value = false)
      (hopen : ∀ side, a.Limits side.opposite → Solver.clash slot side a.value a.token = none)
      (hstore : a.sides.foldlM (fun store side => store.setBound side a.var ⟨a.value, a.token⟩) (s.register a.var).store = .ok store)
      (ht : ({ s.register a.var with store := store } : Solver τ).settleBound a.var a.value move = .ok t) : Step s a none t

theorem apply_inv [DecidableEq τ] {answer : Option (Conflict τ)} {t : Solver τ} (h : a.apply s = .ok (answer, t)) :
    Step s a answer t := by
  cases a with
  | bound side x v token =>
    obtain ⟨slot, hslot, h⟩ := bind_eq_ok.mp h
    split at h
    · rename_i hreached
      cases h
      refine .redundant hslot ?_
      rintro side' rfl
      exact hreached
    · rename_i hreached
      split at h
      · rename_i hc
        cases h
        cases side with
        | lower => exact .refused hslot hc rfl
        | upper => exact .refused hslot hc rfl
      · rename_i hc
        obtain ⟨store, hstore, h⟩ := bind_eq_ok.mp h
        obtain ⟨u, hu, h⟩ := bind_eq_ok.mp h
        cases h
        refine .narrowed hslot ⟨side, rfl, Bool.eq_false_iff.mpr hreached⟩ ?_ (bind_eq_ok.mpr ⟨store, hstore, rfl⟩) hu
        rintro side' rfl
        cases side' <;> exact hc
  | equal x v token =>
    obtain ⟨slot, hslot, h⟩ := bind_eq_ok.mp h
    split at h
    · rename_i hreached
      cases h
      obtain ⟨hlower, hupper⟩ := (Bool.and_eq_true _ _).mp hreached
      exact .redundant hslot fun side _ => by cases side <;> assumption
    · rename_i hreached
      split at h
      · rename_i hc
        cases h
        rcases Option.or_eq_some_iff.mp hc with hc | ⟨-, hc⟩
        · exact .refused hslot hc trivial
        · exact .refused hslot hc trivial
      · rename_i hc
        obtain ⟨hupper, hlower⟩ := Option.or_eq_none_iff.mp hc
        have htighter : ∃ side, slot.reached side v = false := by
          rcases Bool.and_eq_false_iff.mp (Bool.eq_false_iff.mpr hreached) with h | h
          · exact ⟨.lower, h⟩
          · exact ⟨.upper, h⟩
        have hopen : ∀ side, Solver.clash slot side v token = none := fun side => by cases side <;> assumption
        obtain ⟨lower, hlower, h⟩ := bind_eq_ok.mp h
        obtain ⟨store, hstore, h⟩ := bind_eq_ok.mp h
        obtain ⟨u, hu, h⟩ := bind_eq_ok.mp h
        cases h
        exact .narrowed hslot (htighter.imp fun _ hr => ⟨trivial, hr⟩) (fun side _ => hopen side) (bind_eq_ok.mpr ⟨lower, hlower, bind_eq_ok.mpr ⟨store, hstore, rfl⟩⟩) hu

end Assertion

theorem Store.levels_pop_subset {τ : Type} {s : Store τ} (hr : s.InRange) {level : Bounds τ} (h : level ∈ s.pop.2.levels) :
    level ∈ s.levels := by
  obtain ⟨-, -, -, -, -, -, hempty, hlevels⟩ := Store.pop_view hr
  by_cases hs : s.scopes = []
  · rwa [hempty hs] at h
  · rw [hlevels hs] at h
    exact List.mem_of_mem_tail h

namespace Solver

variable {τ : Type} {s t : Solver τ} {answer : Option (Conflict τ)} {ds es : List (Var × LinearForm)} {side : Side} {x : Var}
  {l : Bound τ}

theorem Asserted.origin {c : DeltaRat} {token : τ} {sides : Side → Prop} {y : Var}
    (h : Asserted ds s t answer sides y c token) {level : Bounds τ} (hlevel : level ∈ t.store.levels)
    (hl : level side x = some l) :
    (∃ old ∈ s.store.levels, old side x = some l) ∨ (sides side ∧ x = y ∧ l = ⟨c, token⟩) := by
  rw [Store.levels_eq_cons, h.outer] at hlevel
  rcases List.mem_cons.mp hlevel with rfl | hlevel
  · cases answer with
    | none =>
      rcases (h.imposed rfl).origin side x l hl with hl | hl
      · exact Or.inl ⟨_, Store.bounds_mem_levels s.store, hl⟩
      · exact Or.inr hl
    | some conflict =>
      rw [(h.refused conflict rfl).1] at hl
      exact Or.inl ⟨_, Store.bounds_mem_levels s.store, hl⟩
  · exact Or.inl ⟨level, List.mem_of_mem_tail hlevel, hl⟩

theorem levels_pop (h : s.Coherent ds) (ht : s.pop = .ok t) {level : Bounds τ} (hlevel : level ∈ t.store.levels) :
    level ∈ s.store.levels := by
  rw [(idle_inspectAll ht).store] at hlevel
  exact Store.levels_pop_subset h.disciplined.inRange hlevel

variable [DecidableEq τ]

/-- A call of a solver, with what it is called with. -/
inductive Action (τ : Type) where
  | register (x : Var)
  | addRow (x : Var) (d : LinearForm)
  | assert (a : Assertion τ)
  | update (x : Var) (v : DeltaRat)
  | pivot (l e : Var) (v : DeltaRat)
  | search {β : Type} (budget : Budget β) (b : β) (n : Nat)
  | commit
  | revert
  | push
  | pop

namespace Action

/-- Answers the conflict that the call reports, if it reports one. -/
def apply (s : Solver τ) : Action τ → Except Fault (Option (Conflict τ) × Solver τ)
  | register x => .ok (none, s.register x)
  | addRow x d => do return (none, ← s.addRow x d)
  | assert a => a.apply s
  | update x v => do return (none, ← s.update x v)
  | pivot l e v => do return (none, ← s.pivot l e v)
  | search budget b n => do
    let (o, _, s) ← s.repairUpTo n budget b
    return (o.conflict?, s)
  | commit => .ok (none, s.commit)
  | revert => do return (none, ← s.revert)
  | push => .ok (none, s.push)
  | pop => do return (none, ← s.pop)

/-- The value to which the call moves a variable, if it does, is one that `admits` allows. -/
def Admitted (admits : Solver τ → Var → DeltaRat → Prop) (s : Solver τ) : Action τ → Prop
  | update x v => admits s x v
  | pivot l _ v => admits s l v
  | _ => True

def definitions : Action τ → List (Var × LinearForm)
  | addRow x d => [(x, d)]
  | _ => []

def assertion? : Action τ → Option (Assertion τ)
  | assert a => some a
  | _ => none

end Action

/-- The definitions that were given in the calls `as`. -/
def definitions (as : List (Action τ)) : List (Var × LinearForm) := as.flatMap (·.definitions)

/-- What was asserted in the calls `as`. -/
def assertions (as : List (Action τ)) : List (Assertion τ) := as.filterMap (·.assertion?)

/-- The states that calls lead to from a solver without variables, with these calls, the latest first. -/
inductive History (settings : Settings) (admits : Solver τ → Var → DeltaRat → Prop) :
    List (Action τ) → Solver τ → Prop where
  | new : History settings admits [] (new settings)
  | act {as : List (Action τ)} {s t : Solver τ} {answer : Option (Conflict τ)} (h : History settings admits as s)
      (a : Action τ) (ht : a.apply s = .ok (answer, t)) (ha : a.Admitted admits s) : History settings admits (a :: as) t

variable {settings : Settings} {admits : Solver τ → Var → DeltaRat → Prop} {as : List (Action τ)} {a : Action τ}

/-! ### Histories and reached states -/

theorem Action.call (ha : a.Admitted admits s) (h : a.apply s = .ok (answer, t)) (ds : List (Var × LinearForm)) :
    Call admits ds s (a.definitions ++ ds) t := by
  cases a with
  | register x =>
    cases h
    exact .register x
  | addRow x d =>
    obtain ⟨u, hu, h⟩ := bind_eq_ok.mp h
    cases h
    exact .addRow x d hu
  | assert a =>
    cases a with
    | bound side x v token => exact .assertBound side x v token h
    | equal x v token => exact .assertEqual x v token h
  | update x v =>
    obtain ⟨u, hu, h⟩ := bind_eq_ok.mp h
    cases h
    exact .update x v ha hu
  | pivot l e v =>
    obtain ⟨u, hu, h⟩ := bind_eq_ok.mp h
    cases h
    exact .pivot l e v ha hu
  | search budget b n =>
    obtain ⟨⟨o, b', u⟩, hu, h⟩ := bind_eq_ok.mp h
    cases h
    exact .search budget b n hu
  | commit =>
    cases h
    exact .commit
  | revert =>
    obtain ⟨u, hu, h⟩ := bind_eq_ok.mp h
    cases h
    exact .revert hu
  | push =>
    cases h
    exact .push
  | pop =>
    obtain ⟨u, hu, h⟩ := bind_eq_ok.mp h
    cases h
    exact .pop hu

theorem Call.exists_action (h : Call admits ds s es t) :
    ∃ (a : Action τ) (answer : Option (Conflict τ)), a.Admitted admits s ∧ a.apply s = .ok (answer, t) ∧
      es = a.definitions ++ ds := by
  cases h with
  | register x => exact ⟨.register x, none, trivial, rfl, rfl⟩
  | addRow x d h => exact ⟨.addRow x d, none, trivial, by simp only [Action.apply, h]; rfl, rfl⟩
  | assertBound side x v token h => exact ⟨.assert (.bound side x v token), _, trivial, h, rfl⟩
  | assertEqual x v token h => exact ⟨.assert (.equal x v token), _, trivial, h, rfl⟩
  | update x v hv h => exact ⟨.update x v, none, hv, by simp only [Action.apply, h]; rfl, rfl⟩
  | pivot l e v hv h => exact ⟨.pivot l e v, none, hv, by simp only [Action.apply, h]; rfl, rfl⟩
  | search budget b n h => exact ⟨.search budget b n, _, trivial, by simp only [Action.apply, h]; rfl, rfl⟩
  | commit => exact ⟨.commit, none, trivial, rfl, rfl⟩
  | revert h => exact ⟨.revert, none, trivial, by simp only [Action.apply, h]; rfl, rfl⟩
  | push => exact ⟨.push, none, trivial, rfl, rfl⟩
  | pop h => exact ⟨.pop, none, trivial, by simp only [Action.apply, h]; rfl, rfl⟩

theorem History.reached (h : History settings admits as s) : Reached settings admits (definitions as) s := by
  induction h with
  | new => exact .new
  | act _ a ht ha ih => exact ih.call (a.call ha ht _)

/-- The reached states are those with a history. -/
theorem reached_iff_history : Reached settings admits ds s ↔ ∃ as, History settings admits as s ∧ definitions as = ds := by
  constructor
  · intro h
    induction h with
    | new => exact ⟨[], .new, rfl⟩
    | call _ hc ih =>
      obtain ⟨as, has, rfl⟩ := ih
      obtain ⟨a, answer, ha, ht, rfl⟩ := hc.exists_action
      exact ⟨a :: as, has.act a ht ha, rfl⟩
  · rintro ⟨as, has, rfl⟩
    exact has.reached

/-! ### Where the bounds come from -/

/-- Calls that neither assert nor change scopes leave the bounds of every level alone. -/
theorem Action.carries (h : s.Sound ds) (ht : a.apply s = .ok (answer, t)) :
    (∃ b, a = .assert b) ∨ a = .push ∨ a = .pop ∨ Carries s t := by
  have carried : Carries s t → (∃ b, a = .assert b) ∨ a = .push ∨ a = .pop ∨ Carries s t :=
    fun hc => Or.inr (Or.inr (Or.inr hc))
  cases a with
  | assert b => exact Or.inl ⟨b, rfl⟩
  | push => exact Or.inr (Or.inl rfl)
  | pop => exact Or.inr (Or.inr (Or.inl rfl))
  | register x =>
    cases ht
    exact carried (h.coherent.announced_register x).carries
  | addRow x d =>
    obtain ⟨u, hu, ht⟩ := bind_eq_ok.mp ht
    cases ht
    obtain ⟨hnb, hocc, hself⟩ := addRow_requires h.coherent hu
    obtain ⟨u', hu', -, hcarries, -⟩ := addRow_ok h hnb hocc hself
    cases hu.symm.trans hu'
    exact carried hcarries
  | update x v =>
    obtain ⟨u, hu, ht⟩ := bind_eq_ok.mp ht
    cases ht
    obtain ⟨hnb, hlt⟩ := update_requires h.coherent.shaped hu
    obtain ⟨u', hu', hmoved⟩ := update_ok h.coherent.shaped hnb hlt v
    cases hu.symm.trans hu'
    exact carried hmoved.frame.carries
  | pivot l e v =>
    obtain ⟨u, hu, ht⟩ := bind_eq_ok.mp ht
    cases ht
    exact carried ((Walk.start.pivot hu).kept h.coherent).2.1
  | search budget b n =>
    obtain ⟨⟨o, b', u⟩, hu, ht⟩ := bind_eq_ok.mp ht
    cases ht
    exact carried ((repairUpTo_traced hu).walk.kept h.coherent).2.1
  | commit =>
    cases ht
    exact carried h.commit.2.1
  | revert =>
    obtain ⟨u, hu, ht⟩ := bind_eq_ok.mp ht
    cases ht
    obtain ⟨u', hu', -, hcarries, -⟩ := revert_ok h
    cases hu.symm.trans hu'
    exact carried hcarries

/-- A bound that stands at some level after a call stood at some level before, or it is what the call asserted. -/
theorem Action.origin (h : s.Sound ds) (ht : a.apply s = .ok (answer, t)) {level : Bounds τ}
    (hlevel : level ∈ t.store.levels) (hl : level side x = some l) :
    (∃ old ∈ s.store.levels, old side x = some l) ∨ ∃ b, a.assertion? = some b ∧ b.Sets side x l := by
  rcases a.carries h ht with ⟨b, rfl⟩ | rfl | rfl | hc
  · obtain ⟨answer', t', ht', hasserted⟩ := b.apply_ok h
    cases ht.symm.trans ht'
    exact (hasserted.origin hlevel hl).imp id fun ⟨hside, hx, hb⟩ => ⟨b, rfl, hside, hx.symm, hb⟩
  · cases ht
    rw [h.push.2.1] at hlevel
    rcases List.mem_cons.mp hlevel with rfl | hlevel
    · exact Or.inl ⟨_, Store.bounds_mem_levels s.store, hl⟩
    · exact Or.inl ⟨level, hlevel, hl⟩
  · obtain ⟨u, hu, ht⟩ := bind_eq_ok.mp ht
    cases ht
    exact Or.inl ⟨level, levels_pop h.coherent hu hlevel, hl⟩
  · exact Or.inl ⟨level, hc.levels ▸ hlevel, hl⟩

/-- Every bound of every level is what some assertion of the history says. -/
theorem History.origin (h : History settings admits as s) {level : Bounds τ} (hlevel : level ∈ s.store.levels)
    (hl : level side x = some l) : ∃ b ∈ assertions as, b.Sets side x l := by
  induction h generalizing level with
  | new =>
    have hempty : level ∈ (Store.empty : Store τ).levels := hlevel
    rw [Store.levels_empty, List.mem_singleton] at hempty
    rw [hempty] at hl
    cases hl
  | act h a ht ha ih =>
    rcases a.origin h.reached.sound ht hlevel hl with ⟨old, hold, hl⟩ | ⟨b, hb, hsets⟩
    · obtain ⟨b, hb, hsets⟩ := ih hold hl
      refine ⟨b, ?_, hsets⟩
      rw [assertions, List.filterMap_cons]
      split
      · exact hb
      · exact List.mem_cons_of_mem _ hb
    · exact ⟨b, List.mem_filterMap.mpr ⟨a, List.mem_cons_self, hb⟩, hsets⟩

end Solver

end LinReal
