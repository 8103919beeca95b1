import LinReal.Proofs.Script.Names
import Mathlib.Data.List.Induction

/-! Definitions of scripts. Each row of a script that was read defines a variable that no row before it and not the row itself has
    mentioned. So the rows can be worked off one after the other: whatever values the other variables have, there is exactly one
    way to give values to those that are defined. -/

namespace LinReal

variable {ds : List (Var × LinearForm)} {d : Var × LinearForm} {v w : Var → Rat} {x : Var}

/-- Each definition is of a variable that no definition before it mentions, nor its own. -/
structure Triangular (ds : List (Var × LinearForm)) : Prop where
  irreflexive : ∀ p ∈ ds, p.1 ∉ p.2.vars
  fresh : ds.Pairwise fun p q => q.1 ≠ p.1 ∧ q.1 ∉ p.2.vars

theorem Triangular.of_concat (h : Triangular (ds ++ [d])) :
    Triangular ds ∧ d.1 ∉ d.2.vars ∧ ∀ p ∈ ds, d.1 ≠ p.1 ∧ d.1 ∉ p.2.vars := by
  obtain ⟨hds, hd⟩ := List.forall_mem_append.mp h.irreflexive
  obtain ⟨hfresh, -, hnew⟩ := List.pairwise_append.mp h.fresh
  exact ⟨⟨hds, hfresh⟩, hd d List.mem_cons_self, fun p hp => hnew p hp d List.mem_cons_self⟩

theorem satisfies_concat : Satisfies v (ds ++ [d]) ↔ Satisfies v ds ∧ v d.1 = d.2.eval v := by
  rw [Satisfies, List.forall_mem_append, List.forall_mem_singleton]
  exact Iff.rfl

/-- The value of a variable that is not mentioned is of no account. -/
theorem satisfies_update (h : ∀ p ∈ ds, x ≠ p.1 ∧ x ∉ p.2.vars) (v : Var → Rat) (r : Rat) :
    Satisfies (Function.update v x r) ds ↔ Satisfies v ds := by
  refine forall₂_congr fun p hp => ?_
  obtain ⟨hne, hnot⟩ := h p hp
  rw [LinearForm.eval_update_of_not_mem hnot, Function.update_of_ne hne.symm]

/-- Whatever values the other variables have, there is exactly one way to give values to the defined ones. -/
theorem Triangular.existsUnique (h : Triangular ds) (v : Var → Rat) :
    ∃! w : Var → Rat, (∀ x, x ∉ ds.map (·.1) → w x = v x) ∧ Satisfies w ds := by
  -- The last definition is of a variable that nothing mentions, so it can be taken off from a solution and put back.
  induction ds using List.reverseRecOn with
  | nil => exact ⟨v, ⟨fun _ _ => rfl, fun p hp => by cases hp⟩, fun w hw => funext fun x => hw.1 x List.not_mem_nil⟩
  | append_singleton ds d ih =>
    obtain ⟨hds, hself, hnew⟩ := h.of_concat
    obtain ⟨w, ⟨hkept, hsat⟩, honly⟩ := ih hds
    have hother : ∀ x, x ∉ (ds ++ [d]).map (·.1) ↔ x ∉ ds.map (·.1) ∧ x ≠ d.1 := fun x => by
      rw [List.map_append, List.mem_append, not_or, List.map_singleton, List.mem_singleton]
    refine ⟨Function.update w d.1 (d.2.eval w), ⟨fun x hx => ?_, satisfies_concat.mpr ⟨?_, ?_⟩⟩, fun u ⟨hu, husat⟩ => ?_⟩
    · obtain ⟨hx, hne⟩ := (hother x).mp hx
      rw [Function.update_of_ne hne, hkept x hx]
    · exact (satisfies_update hnew _ _).mpr hsat
    · rw [Function.update_self, LinearForm.eval_update_of_not_mem hself]
    · obtain ⟨hinit, hlast⟩ := satisfies_concat.mp husat
      have htaken : Function.update u d.1 (v d.1) = w := by
        refine honly _ ⟨fun x hx => ?_, (satisfies_update hnew _ _).mpr hinit⟩
        by_cases hne : x = d.1
        · rw [hne, Function.update_self]
        · rw [Function.update_of_ne hne, hu x ((hother x).mpr ⟨hx, hne⟩)]
      rw [← htaken, LinearForm.eval_update_of_not_mem hself, ← hlast, Function.update_idem, Function.update_eq_self]

/-! ### Scopes -/

namespace Command

variable {cs pre : List Command}

theorem count_pop_le (cs : List Command) : cs.count .pop ≤ cs.count .push + closed cs := by
  induction cs with
  | nil => exact Nat.le_refl 0
  | cons c cs ih =>
    cases c with
    | push =>
      rw [List.count_cons_of_ne (by decide), List.count_cons_self, closed]
      omega
    | pop =>
      rw [List.count_cons_self, List.count_cons_of_ne (by decide), closed]
      omega
    | row x d => simpa [closed] using ih
    | bound i => simpa [closed] using ih
    | check => simpa [closed] using ih

/-- The commands up to any point close no more scopes than they open. -/
theorem Matched.count_pop_le (h : Matched cs) (hpre : pre <+: cs) : pre.count .pop ≤ pre.count .push := by
  obtain ⟨post, rfl⟩ := hpre
  have hle := Command.count_pop_le pre
  rwa [h.left] at hle

/-- The variables that a command mentions itself. -/
def vars : Command → List Var
  | row x d => x :: d.vars
  | bound _ | push | pop | check => []

end Command

/-! ### Scripts -/

namespace Script

variable {s : Script}

theorem WellFormed.triangular (h : s.WellFormed) : Triangular s.rows := ⟨h.irreflexive, h.fresh⟩

theorem WellFormed.vars_lt (h : s.WellFormed) {c : Command} (hc : c ∈ s.commands.toList) (hx : x ∈ c.vars) :
    x < s.variableCount := by
  cases c with
  | row y d =>
    obtain ⟨hy, hd⟩ := h.declared (y, d) (List.mem_filterMap.mpr ⟨_, hc, rfl⟩)
    rcases List.mem_cons.mp hx with rfl | hx
    · exact hy
    · exact hd x hx
  | bound _ | push | pop | check => cases hx

/-- What is in order in a script. Names and variables belong together, and the index has nothing else; only declared variables are
    mentioned; the ordinals of bounds count up; scopes are opened before they are closed; and a row defines a variable that no
    other row defines, and neither its own definition nor one before it mentions, so that the variables without a row determine
    all others. -/
structure Orderly (s : Script) : Prop where
  distinct : s.names.toList.Nodup
  named : ∀ x < s.variableCount, ∃ name, s.names[x]? = some name ∧ s.varNamed? name = some x
  indexed : ∀ (name : String) (x : Var), s.index[name]? = some x ↔ s.names[x]? = some name
  declared : ∀ c ∈ s.commands.toList, ∀ x ∈ c.vars, x < s.variableCount
  bounded : ∀ l ∈ s.literals.toList, l.var < s.variableCount
  ordinals : Command.ordinalsOf s.commands.toList = List.range s.literals.size
  scopes : ∀ pre, pre <+: s.commands.toList → pre.count .pop ≤ pre.count .push
  defined : (s.rows.map (·.1)).Nodup
  irreflexive : ∀ p ∈ s.rows, p.1 ∉ p.2.vars
  fresh : s.rows.Pairwise fun p q => q.1 ∉ p.2.vars
  determined : ∀ v : Var → Rat, ∃! w : Var → Rat, (∀ x, x ∉ s.rows.map (·.1) → w x = v x) ∧ Satisfies w s.rows

/-- A script that was read is in order. -/
theorem orderly_of_ofLines {lines : List (Option String)} (h : Script.ofLines lines = .ok s) : s.Orderly := by
  have hs := wellFormed_of_ofLines h
  have hindexed := indexed_of_ofLines h
  exact {
    distinct := hindexed.nodup
    named := fun x hx => ⟨s.names[x], Array.getElem?_eq_getElem hx, (hindexed _ x).mpr (Array.getElem?_eq_getElem hx)⟩
    indexed := hindexed
    declared := fun c hc x hx => hs.vars_lt hc hx
    bounded := hs.literals
    ordinals := hs.ordinals
    scopes := fun pre hpre => hs.matched.count_pop_le hpre
    defined := List.pairwise_map.mpr (hs.fresh.imp fun h => h.1.symm)
    irreflexive := hs.irreflexive
    fresh := hs.fresh.imp fun h => h.2
    determined := hs.triangular.existsUnique }

/-- The second row refers to the variable that the first one defines, and each of them mentions a variable twice. -/
theorem orderly_of_chain : ∃ s,
    Script.ofLines [some "v x y s t", some "r s x 1 y -1/2 x 1", some "push", some "r t s 2 y 0.5 s -1", some "b t >= 3",
      some "pop", some "b s = 1"] = .ok s ∧
      s.rows = [(2, [(0, 1), (1, -1 / 2), (0, 1)]), (3, [(2, 2), (1, 1 / 2), (2, -1)])] ∧ s.Orderly := by
  have hread : Script.ofLines [some "v x y s t", some "r s x 1 y -1/2 x 1", some "push", some "r t s 2 y 0.5 s -1",
      some "b t >= 3", some "pop", some "b s = 1"] =
      .ok ⟨#["x", "y", "s", "t"], .ofList [("x", 0), ("y", 1), ("s", 2), ("t", 3)], #[⟨3, .ge, 3⟩, ⟨2, .eq, 1⟩],
        #[.row 2 [(0, 1), (1, -1 / 2), (0, 1)], .push, .row 3 [(2, 2), (1, 1 / 2), (2, -1)], .bound 0, .pop, .bound 1]⟩ := by
    decide +kernel
  exact ⟨_, hread, rfl, orderly_of_ofLines hread⟩

end Script

end LinReal
