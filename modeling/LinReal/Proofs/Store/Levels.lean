import LinReal.Proofs.Store.Values

/-! The bounds of every open scope. A store keeps the bounds in force and, for each scope, the changes made in it; undoing
    the changes gives the bounds in force when the scope was opened. So the scopes stand for a list of levels, the bounds
    in force first, and an operation is said by what it does to that list: a new bound replaces the first level, a new scope
    doubles it, and closing a scope drops it. -/

namespace LinReal

namespace Bounds

variable {τ : Type} {b c d : Bounds τ} {side side' : Side} {x y : Var} {v : DeltaRat}

def set (b : Bounds τ) (side : Side) (x : Var) (new : Option (Bound τ)) : Bounds τ := fun side' y =>
  if side' = side ∧ y = x then new else b side' y

/-- The value lies within the bounds of `x`. -/
def Admits (b : Bounds τ) (x : Var) (v : DeltaRat) : Prop :=
  ∀ side l, b side x = some l → side.outside v l.value = false

/-- No lower bound exceeds the upper bound of the same variable. -/
def Ordered (b : Bounds τ) : Prop := ∀ x l u, b .lower x = some l → b .upper x = some u → l.value ≤ u.value

/-- Wherever `c` has a bound, `b` has one that is at least as tight. -/
def Tightens (b c : Bounds τ) : Prop :=
  ∀ side x l, c side x = some l → ∃ l', b side x = some l' ∧ side.reached l.value l'.value = true

theorem set_set (b : Bounds τ) (side : Side) (x : Var) (n m : Option (Bound τ)) :
    (b.set side x n).set side x m = b.set side x m := by
  funext side' y
  by_cases h : side' = side ∧ y = x <;> simp [set, h]

theorem set_self (b : Bounds τ) (side : Side) (x : Var) : b.set side x (b side x) = b := by
  funext side' y
  by_cases h : side' = side ∧ y = x
  · rw [set, if_pos h, h.1, h.2]
  · rw [set, if_neg h]

theorem Tightens.refl (b : Bounds τ) : Tightens b b := fun _ _ l h => ⟨l, h, Side.reached_self _ _⟩

theorem Tightens.trans (h₁ : Tightens b c) (h₂ : Tightens c d) : Tightens b d := by
  intro side x l h
  obtain ⟨l', hl', hr'⟩ := h₂ side x l h
  obtain ⟨l'', hl'', hr''⟩ := h₁ side x l' hl'
  exact ⟨l'', hl'', Side.reached_trans hr' hr''⟩

theorem tightens_set {new : Bound τ} (h : ∀ {l}, b side x = some l → side.reached l.value new.value = true) :
    Tightens (b.set side x (some new)) b := fun side' y l hl => by
  by_cases hs : side' = side ∧ y = x
  · obtain ⟨rfl, rfl⟩ := hs
    exact ⟨new, by simp [set], h hl⟩
  · exact ⟨l, by rw [set, if_neg hs, hl], Side.reached_self _ _⟩

theorem Tightens.ordered (h : Tightens b c) (hb : b.Ordered) : c.Ordered := by
  intro x l u hl hu
  obtain ⟨l', hl', hr⟩ := h .lower x l hl
  obtain ⟨u', hu', hr'⟩ := h .upper x u hu
  simp only [Side.reached, decide_eq_true_eq] at hr hr'
  exact (hr.trans (hb x l' u' hl' hu')).trans hr'

theorem Tightens.admits (h : Tightens b c) (hv : b.Admits x v) : c.Admits x v := by
  intro side l hl
  obtain ⟨l', hl', hr⟩ := h side x l hl
  rw [Side.outside_eq_false_iff]
  exact Side.reached_trans (Side.outside_eq_false_iff.mp (hv side l' hl')) (by rwa [Side.reached_opposite])

end Bounds

namespace Store

variable {τ : Type} {s t : Store τ} {x y : Var} {side : Side} {b : Bounds τ} {c : BoundChange τ}

/-- The bounds before some changes, the latest of which stands first. -/
def undo (changes : List (BoundChange τ)) (b : Bounds τ) : Bounds τ :=
  changes.foldl (fun b c => b.set c.side c.var c.previous) b

/-- The bounds at each level, given those in force and the changes in each scope. -/
def levelsFrom (b : Bounds τ) : List (List (BoundChange τ)) → List (Bounds τ)
  | [] => [b]
  | scope :: outer => b :: levelsFrom (undo scope b) outer

/-- The bounds in force, and then those in force when each of the open scopes was opened, innermost scope first. -/
def levels (s : Store τ) : List (Bounds τ) := levelsFrom s.bounds s.scopes

/-- Every change that a scope remembers is about a variable with a slot. -/
def InRange (s : Store τ) : Prop := ∀ scope ∈ s.scopes, ∀ c ∈ scope, c.var < s.size

theorem length_levelsFrom (b : Bounds τ) (scopes : List (List (BoundChange τ))) :
    (levelsFrom b scopes).length = scopes.length + 1 := by
  induction scopes generalizing b with
  | nil => rfl
  | cons scope outer ih => simp [levelsFrom, ih]

theorem levels_eq_cons (s : Store τ) : s.levels = s.bounds :: s.levels.tail := by
  unfold levels
  cases s.scopes <;> rfl

theorem bounds_mem_levels (s : Store τ) : s.bounds ∈ s.levels := by
  rw [levels_eq_cons]
  exact List.mem_cons_self

theorem levels_congr (h : SameBounds s t) : t.levels = s.levels := by
  rw [levels, levels, h.bounds, h.scopes]

theorem SameBounds.inRange (h : SameBounds s t) (hs : s.InRange) : t.InRange := by
  intro scope hscope c hc
  rw [h.size]
  exact hs scope (h.scopes ▸ hscope) c hc

/-! ### One bound -/

theorem boundsIn_withBound {t : Table (Slot τ)} {a : Slot τ} (hx : t.get? x = some a) (side : Side)
    (new : Option (Bound τ)) : boundsIn (t.set x (a.withBound side new)) = (boundsIn t).set side x new := by
  have hlt : x < t.size := Table.lt_size_of_get? hx
  funext side' y
  simp only [boundsIn, Bounds.set, Table.get?_set, hlt, and_true, eq_comm (a := x)]
  by_cases hy : y = x
  · subst hy
    simp [hx, eq_comm (a := side)]
  · simp [hy]

theorem setBound_ok (hx : x < s.size) (side : Side) (new : Bound τ) :
    ∃ t, s.setBound side x new = .ok t ∧ t.size = s.size ∧ t.value = s.value ∧ t.safe = s.safe ∧
      t.bounds = s.bounds.set side x (some new) ∧ t.levels = t.bounds :: s.levels.tail ∧
      (s.Tracks → t.Tracks) ∧ (s.InRange → t.InRange) ∧
      t.scopes = s.scopes.modifyHead (⟨x, side, s.bounds side x⟩ :: ·) := by
  obtain ⟨a, hslot, ha⟩ := slot_ok hx
  obtain ⟨t, ht⟩ : ∃ t : Store τ, t = { s with
      slots := s.slots.set x (a.withBound side (some new))
      trail := s.trail.record ⟨x, side, a.bound? side⟩ } := ⟨_, rfl⟩
  have hok : s.setBound side x new = .ok t := by
    rw [ht]
    simp only [setBound, hslot, ok_bind]
    rfl
  have hsize : t.size = s.size := by
    rw [ht]
    exact Table.size_set _ _ _
  have hpart : ∀ {α : Type} (p : Slot τ → α) (d : α), p (a.withBound side (some new)) = p a →
      (fun y => ((t.slots.get? y).map p).getD d) = fun y => ((s.slots.get? y).map p).getD d := by
    intro α p d hp
    have hxa : p a = ((s.slots.get? x).map p).getD d := by simp [ha]
    rw [ht]
    refine (part_set s.slots hx _ p d).trans ?_
    rw [hp, hxa, Function.update_eq_self]
  have hbounds : t.bounds = s.bounds.set side x (some new) := by
    rw [ht]
    exact boundsIn_withBound ha side (some new)
  have hscopes : t.scopes = s.scopes.modifyHead (⟨x, side, s.bounds side x⟩ :: ·) := by
    rw [ht, bounds_of_get? ha]
    exact Trail.scopes_record _ _
  have hlevels : t.levels = t.bounds :: s.levels.tail := by
    rw [levels, levels, hbounds, hscopes]
    cases s.scopes with
    | nil => rfl
    | cons scope outer =>
      simp only [List.modifyHead_cons, levelsFrom, undo, List.foldl_cons, List.tail_cons, Bounds.set_set,
        Bounds.set_self]
  refine ⟨t, hok, hsize, hpart (·.value) 0 (by cases side <;> rfl), hpart (·.safe) 0 (by cases side <;> rfl), hbounds,
    hlevels, fun h {y d} hy hsaved => ?_, fun h scope hscope c hc => ?_, hscopes⟩
  · rw [ht] at hy ⊢
    rw [Table.get?_set] at hy
    split at hy
    · rename_i hxy
      obtain rfl := Option.some.inj hy
      exact hxy.1 ▸ h ha (by cases side <;> exact hsaved)
    · exact h hy hsaved
  · rw [hsize]
    rw [hscopes] at hscope
    cases hs : s.scopes with
    | nil =>
      rw [hs] at hscope
      cases hscope
    | cons first outer =>
      rw [hs, List.modifyHead_cons] at hscope
      rcases List.mem_cons.mp hscope with rfl | hscope
      · rcases List.mem_cons.mp hc with rfl | hc
        · exact hx
        · exact h first (hs ▸ List.mem_cons_self) c hc
      · exact h scope (hs ▸ List.mem_cons_of_mem _ hscope) c hc

/-! ### Scopes -/

theorem scopes_push (s : Store τ) : s.push.scopes = [] :: s.scopes := Trail.scopes_push _

theorem levels_push (s : Store τ) : s.push.levels = s.bounds :: s.levels := by
  rw [levels, scopes_push]
  rfl

theorem inRange_push (h : s.InRange) : s.push.InRange := by
  intro scope hscope c hc
  rw [scopes_push] at hscope
  rcases List.mem_cons.mp hscope with rfl | hscope
  · cases hc
  · exact h scope hscope c hc

/-- Putting replaced bounds back changes bounds only. -/
theorem restore_view (changes : List (BoundChange τ)) (t : Table (Slot τ)) (h : ∀ c ∈ changes, c.var < t.size) :
    (restore t changes).size = t.size ∧ boundsIn (restore t changes) = undo changes (boundsIn t) ∧
      ∀ {α : Type} (p : Slot τ → α), (∀ a side new, p (a.withBound side new) = p a) →
        ∀ y, ((restore t changes).get? y).map p = (t.get? y).map p := by
  induction changes generalizing t with
  | nil => exact ⟨rfl, rfl, fun _ _ _ => rfl⟩
  | cons c changes ih =>
    obtain ⟨a, ha⟩ := Option.isSome_iff_exists.mp (Table.isSome_get?_iff.mpr (h c List.mem_cons_self))
    have hset : t.modify c.var (fun slot => slot.withBound c.side c.previous) =
        t.set c.var (a.withBound c.side c.previous) := by
      refine Table.ext fun y => ?_
      have hlt := h c List.mem_cons_self
      rw [Table.get?_modify, Table.get?_set]
      by_cases hy : c.var = y
      · rw [if_pos hy, if_pos ⟨hy, hlt⟩, ← hy, ha, Option.map_some]
      · rw [if_neg hy, if_neg fun hc => hy hc.1]
    have hsize : (t.modify c.var fun slot => slot.withBound c.side c.previous).size = t.size := Table.size_modify _ _ _
    obtain ⟨h1, h2, h3⟩ := ih (t.modify c.var fun slot => slot.withBound c.side c.previous) fun d hd => by
      rw [hsize]
      exact h d (List.mem_cons_of_mem _ hd)
    refine ⟨h1.trans hsize, h2.trans ?_, fun p hp y => (h3 p hp y).trans ?_⟩
    · rw [hset, boundsIn_withBound ha]
      rfl
    · rw [Table.get?_modify]
      split
      · cases t.get? y <;> simp [hp]
      · rfl

theorem pop_of_scopes_nil (h : s.scopes = []) : s.pop = ([], s) := by
  unfold pop
  cases hp : s.trail.pop? with
  | none => rfl
  | some p => cases h.symm.trans (Trail.scopes_of_pop? hp)

/-- Closing a scope answers the variables of its changes and undoes these; values and outer scopes stay. -/
theorem pop_of_scopes {scope : List (BoundChange τ)} {outer : List (List (BoundChange τ))} (hs : s.scopes = scope :: outer)
    (hr : ∀ c ∈ scope, c.var < s.size) :
    s.pop.1 = scope.map (·.var) ∧ s.pop.2.size = s.size ∧ s.pop.2.value = s.value ∧ s.pop.2.safe = s.safe ∧
      (s.Tracks → s.pop.2.Tracks) ∧ s.pop.2.scopes = outer ∧ s.pop.2.bounds = undo scope s.bounds := by
  obtain ⟨rest, hrest, hpop⟩ : ∃ rest : Trail τ, rest.scopes = outer ∧
      s.pop = (scope.map (·.var), { s with slots := restore s.slots scope, trail := rest }) := by
    cases hp : s.trail.pop? with
    | none => cases hs.symm.trans (Trail.scopes_of_pop?_none hp)
    | some p =>
      obtain ⟨hscope, houter⟩ := List.cons.inj (hs.symm.trans (Trail.scopes_of_pop? hp))
      exact ⟨p.2, houter.symm, by rw [pop, hp, hscope]⟩
  obtain ⟨hsize, hbounds, hpart⟩ := restore_view scope s.slots hr
  rw [hpop]
  refine ⟨rfl, hsize, ?_, ?_, fun h {x a} hx hsaved => ?_, hrest, hbounds⟩
  · funext y
    simp only [value, hpart (·.value) (fun a side _ => by cases side <;> rfl)]
  · funext y
    simp only [safe, hpart (·.safe) (fun a side _ => by cases side <;> rfl)]
  · have hmap := hpart (·.saved) (fun a side _ => by cases side <;> rfl) x
    rw [hx, Option.map_some] at hmap
    obtain ⟨a', ha', heq⟩ := Option.map_eq_some_iff.mp hmap.symm
    exact h ha' (heq ▸ hsaved)

theorem pop_view (hr : s.InRange) : s.pop.2.size = s.size ∧ s.pop.2.value = s.value ∧ s.pop.2.safe = s.safe ∧
    (s.Tracks → s.pop.2.Tracks) ∧ s.pop.2.InRange ∧ s.pop.2.scopes = s.scopes.tail ∧
    (s.scopes = [] → s.pop.2 = s) ∧ (s.scopes ≠ [] → s.pop.2.levels = s.levels.tail) := by
  cases hs : s.scopes with
  | nil =>
    rw [pop_of_scopes_nil hs]
    exact ⟨rfl, rfl, rfl, id, hr, hs, fun _ => rfl, fun h => absurd rfl h⟩
  | cons scope outer =>
    obtain ⟨-, hsize, hvalue, hsafe, htracks, hscopes, hbounds⟩ := pop_of_scopes hs (hr scope (hs ▸ List.mem_cons_self))
    refine ⟨hsize, hvalue, hsafe, htracks, fun inner hinner c hc => ?_, hscopes, fun h => (by cases h), fun _ => ?_⟩
    · rw [hscopes] at hinner
      exact Nat.lt_of_lt_of_eq (hr inner (hs ▸ List.mem_cons_of_mem _ hinner) c hc) hsize.symm
    · rw [levels, levels, hscopes, hs, hbounds]
      rfl

end Store

end LinReal
