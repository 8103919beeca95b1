import LinReal.Proofs.Solver.Invariant

/-! Assertions. An assertion either is refused, with a sound conflict and no change of bounds, or imposes its value: the
    bounds become at least as tight as asserted, and a bound that was not there before carries the token of the
    assertion. -/

namespace LinReal

namespace Bounds

variable {τ : Type} {b c : Bounds τ} {x : Var} {side : Side} {sides : Side → Prop} {v value : DeltaRat} {token : τ}

/-- `c` differs from `b` by what an assertion imposes: on the given sides, `x` has a bound that is at least as tight as the
    asserted value, and every new bound is the asserted one. -/
structure Imposed (b c : Bounds τ) (sides : Side → Prop) (x : Var) (v : DeltaRat) (token : τ) : Prop where
  origin : ∀ side y l, c side y = some l → b side y = some l ∨ (sides side ∧ y = x ∧ l = ⟨v, token⟩)
  tightens : c.Tightens b
  holds : ∀ side, sides side → ∃ l, c side x = some l ∧ side.reached v l.value = true

/-- Elsewhere the bounds are as before. -/
theorem Imposed.other (h : b.Imposed c sides x v token) {y : Var} (hn : ¬(sides side ∧ y = x)) : c side y = b side y := by
  have hold : ∀ l, c side y = some l → b side y = some l := fun l hl =>
    (h.origin side y l hl).resolve_right fun hnew => hn ⟨hnew.1, hnew.2.1⟩
  cases hb : b side y with
  | some l =>
    obtain ⟨l', hl', -⟩ := h.tightens side y l hb
    exact hl'.trans ((hold l' hl').symm.trans hb)
  | none =>
    cases hc : c side y with
    | none => rfl
    | some l => exact (hold l hc).symm.trans hb

/-- What is imposed on `x` is intersected with what its bounds have left it. -/
theorem Imposed.admits_iff (h : b.Imposed c sides x value token) :
    c.Admits x v ↔ b.Admits x v ∧ ∀ side, sides side → side.outside v value = false := by
  constructor
  · intro hv
    refine ⟨h.tightens.admits hv, fun side hside => ?_⟩
    obtain ⟨l, hl, hreached⟩ := h.holds side hside
    have hin := Side.outside_eq_false_iff.mp (hv side l hl)
    rw [← Side.reached_opposite] at hreached
    exact Side.outside_eq_false_iff.mpr (Side.reached_trans hin hreached)
  · rintro ⟨hv, hasserted⟩ side l hl
    rcases h.origin side x l hl with hl | ⟨hside, -, rfl⟩
    · exact hv side l hl
    · exact hasserted side hside

theorem origin_set {new : Bound τ} {side' : Side} {y : Var} {l : Bound τ} (hl : b.set side x (some new) side' y = some l) :
    b side' y = some l ∨ (side' = side ∧ y = x ∧ l = new) := by
  by_cases hy : side' = side ∧ y = x
  · rw [set, if_pos hy, Option.some.injEq] at hl
    exact Or.inr ⟨hy.1, hy.2, hl.symm⟩
  · rw [set, if_neg hy] at hl
    exact Or.inl hl

theorem set_self_apply (b : Bounds τ) (side : Side) (x : Var) (new : Option (Bound τ)) : b.set side x new side x = new :=
  if_pos ⟨rfl, rfl⟩

end Bounds

namespace Store

variable {τ : Type} {s t u : Store τ} {xs : VarSet} {x : Var} {side : Side} {sides : Side → Prop} {c : DeltaRat} {token : τ}

/-- The asserted value has become the bound on the given sides of `x`, and loosened none; values and outer levels are as before. -/
structure Enforced (s t : Store τ) (sides : Side → Prop) (x : Var) (c : DeltaRat) (token : τ) : Prop where
  size : t.size = s.size
  value : t.value = s.value
  safe : t.safe = s.safe
  tracks : s.Tracks → t.Tracks
  outer : t.levels.tail = s.levels.tail
  own : ∀ side, sides side → t.bounds side x = some ⟨c, token⟩
  origin : ∀ side y l, t.bounds side y = some l → s.bounds side y = some l ∨ (sides side ∧ y = x ∧ l = ⟨c, token⟩)
  tightens : t.bounds.Tightens s.bounds

theorem Enforced.imposed (h : s.Enforced t sides x c token) : s.bounds.Imposed t.bounds sides x c token :=
  ⟨h.origin, h.tightens, fun side hs => ⟨_, h.own side hs, Side.reached_self _ _⟩⟩

/-- A bound that is no tighter than the value is replaced by it, if the opposite bound admits the value. -/
theorem Disciplined.enforce (h : s.Disciplined xs) (hx : x ∈ xs) (hlt : x < s.size) (side : Side) (token : τ)
    (htight : ∀ {l}, s.bounds side x = some l → side.reached l.value c = true)
    (hcross : ∀ l, s.bounds side.opposite x = some l → side.opposite.outside c l.value = false) :
    ∃ t, s.setBound side x ⟨c, token⟩ = .ok t ∧ t.Disciplined xs ∧ s.Enforced t (· = side) x c token := by
  obtain ⟨t, ht, hsize, hvalue, hsafe, hset, hlevels, htracks, hrange, -⟩ := setBound_ok hlt side ⟨c, token⟩
  refine ⟨t, ht, h.setBound hx htight hcross hset hlevels (hrange h.inRange), hsize, hvalue, hsafe, htracks, ?_, ?_,
    fun _ _ _ hl => Bounds.origin_set (hset ▸ hl), hset ▸ Bounds.tightens_set htight⟩
  · rw [hlevels, List.tail_cons]
  · rintro side' rfl
    rw [hset, Bounds.set_self_apply]

/-- Both sides, one after the other. -/
theorem Enforced.both (h : s.Enforced t (· = .lower) x c token) (h' : t.Enforced u (· = .upper) x c token) :
    s.Enforced u (fun _ => True) x c token where
  size := h'.size.trans h.size
  value := h'.value.trans h.value
  safe := h'.safe.trans h.safe
  tracks := h'.tracks ∘ h.tracks
  outer := h'.outer.trans h.outer
  own side _ := by
    cases side with
    | lower => rw [h'.imposed.other (fun hn => by cases hn.1), h.own .lower rfl]
    | upper => exact h'.own .upper rfl
  origin side y l hl := by
    rcases h'.origin side y l hl with hl | ⟨-, hy, hl⟩
    · exact (h.origin side y l hl).imp_right fun hn => ⟨trivial, hn.2⟩
    · exact Or.inr ⟨trivial, hy, hl⟩
  tightens := h'.tightens.trans h.tightens

end Store

theorem Conflict.Sound.mono {τ : Type} {c : Conflict τ} {ds : List (Var × LinearForm)} {b : Bounds τ} {own : List τ}
    {p q : (Var → DeltaRat) → Prop} (h : c.Sound ds b own p) (hpq : ∀ w, q w → p w) : c.Sound ds b own q :=
  ⟨h.nonempty, h.nodup, h.includes, h.inForce, fun ⟨w, hw, hq, hb⟩ => h.refuted ⟨w, hw, hpq w hq, hb⟩⟩

namespace Solver

variable {τ : Type} {s t u : Solver τ} {ds : List (Var × LinearForm)} {x y : Var} {side : Side} {sides : Side → Prop}
  {c : DeltaRat} {token : τ} {slot : Slot τ}

theorem reached_iff (h : s.store.slots.get? x = some slot) :
    slot.reached side c = true ↔ ∃ l, s.store.bounds side x = some l ∧ side.reached c l.value = true := by
  rw [Store.bounds_of_get? h, Slot.reached]
  cases slot.bound? side <;> simp

/-- A bound that has not been reached is not tighter than the value. -/
theorem reached_of_not_reached (h : s.store.slots.get? x = some slot) (hn : slot.reached side c = false) {l : Bound τ}
    (hl : s.store.bounds side x = some l) : side.reached l.value c = true := by
  have hc : side.reached c l.value = false := by
    by_contra hc
    rw [(reached_iff h).mpr ⟨l, hl, by simpa using hc⟩] at hn
    cases hn
  have hout := Side.reached_eq_false_iff.mp hc
  rw [Side.outside_opposite] at hout
  exact Side.reached_of_outside hout

/-- What an assertion of `c` on some sides of `x` does, given its answer. -/
structure Asserted (ds : List (Var × LinearForm)) (s t : Solver τ) (answer : Option (Conflict τ)) (sides : Side → Prop)
    (x : Var) (c : DeltaRat) (token : τ) : Prop where
  sound : t.Sound ds
  settled : s.Settled → t.Settled
  registered : ∀ {y}, s.isRegistered y = true → t.isRegistered y = true
  outer : t.store.levels.tail = s.store.levels.tail
  imposed : answer = none → s.store.bounds.Imposed t.store.bounds sides x c token
  refused : ∀ conflict, answer = some conflict → t.store.bounds = s.store.bounds ∧
    conflict.Sound ds t.store.bounds [token] fun w => ∀ side, sides side → side.outside (w x) c = false

/-! ### The three ways of an assertion -/

theorem Announced.pass (hann : Announced s u) (hu : u.Sound ds)
    (h : ∀ side, sides side → ∃ l, u.store.bounds side x = some l ∧ side.reached c l.value = true) :
    Asserted ds s u none sides x c token where
  sound := hu
  settled := hann.settled
  registered := hann.carries.registered
  outer := congrArg List.tail hann.carries.levels
  imposed _ := by
    rw [← hann.carries.bounds]
    exact ⟨fun _ _ _ hl => Or.inl hl, .refl _, h⟩
  refused _ hc := by cases hc

theorem Sound.report (h : u.Sound ds) (e : Event) (conflict : Conflict τ) : ((u.note e).report conflict).Sound ds where
  coherent := h.coherent.idle ⟨rfl, rfl, rfl, rfl⟩
  queued := h.queued
  sorted := h.sorted

theorem Announced.refuse (hann : Announced s u) (hu : u.Sound ds) (e : Event) {conflict : Conflict τ}
    (hc : conflict.Sound ds u.store.bounds [token] fun w => ∀ side, sides side → side.outside (w x) c = false) :
    Asserted ds s ((u.note e).report conflict) (some conflict) sides x c token where
  sound := hu.report e conflict
  settled := hann.settled
  registered := hann.carries.registered
  outer := congrArg List.tail hann.carries.levels
  imposed hn := by cases hn
  refused conflict' h := by
    obtain rfl := Option.some.inj h
    exact ⟨hann.carries.bounds, hc⟩

/-- The state after the bounds were changed to disciplined ones. -/
theorem Coherent.withStore (h : s.Coherent ds) {st : Store τ} (hsize : st.size = s.store.size)
    (hvalue : st.value = s.store.value) (hsafe : st.safe = s.store.safe) (htracks : s.store.Tracks → st.Tracks)
    (hd : st.Disciplined s.registered) : ({ s with store := st } : Solver τ).Coherent ds :=
  ⟨⟨h.shaped.wellFormed, hsize.trans h.shaped.size⟩, h.room, h.announced, h.mentioned, h.denotes, hvalue ▸ h.solves,
    hsafe ▸ h.safe, htracks h.tracks, hd⟩

/-- After the bounds of `x` were set, `x` is queued if it is basic and moved if it is nonbasic. -/
theorem settleBound_ok (h : s.Coherent ds) (hsorted : s.queue.Sorted) (hx : s.isRegistered x = true)
    (hq : ∀ y, y ≠ x → s.isBasic y = true → ¬s.Within y → y ∈ s.queue.order) (c : DeltaRat) (move : DeltaRat → Bool) :
    ∃ t, s.settleBound x c move = .ok t ∧ t.Sound ds ∧ Carries s t ∧
      (s.store.bounds.Admits x c → (s.isBasic x = false → move (s.store.value x) = false → s.Within x) →
        (∀ y, y ≠ x → s.isBasic y = false → s.Within y) → t.Settled) := by
  obtain ⟨slot, hslot, hget⟩ := h.shaped.slot_ok (h.room hx)
  cases hb : s.isBasic x with
  | true =>
    obtain ⟨q, hok, hgrows, hin, -⟩ := inspect_ok h.shaped hb
    refine ⟨{ s with queue := q }, by simp only [settleBound, hb, if_true, hok],
      ⟨h.withQueue q, fun y hy hn => ?_, hgrows.sorted hsorted⟩, ⟨rfl, id⟩, fun _ _ hset y hy => hset y ?_ hy⟩
    · by_cases hyx : y = x
      · exact hyx ▸ hin (hyx ▸ hn)
      · exact hgrows.mem (hq y hyx hy hn)
    · rintro rfl
      exact Bool.noConfusion (hb.symm.trans hy)
  | false =>
    have hne : ∀ {y}, s.isBasic y = true → y ≠ x := by
      rintro y hy rfl
      exact Bool.noConfusion (hb.symm.trans hy)
    have hqueued : s.Queued := fun y hy hn => hq y (hne hy) hy hn
    simp only [settleBound, hb, Bool.false_eq_true, if_false, hslot, ok_bind]
    rw [← Store.value_of_get? hget]
    cases hm : move (s.store.value x) with
    | false =>
      refine ⟨s, rfl, ⟨h, hqueued, hsorted⟩, .refl s, fun _ hstay hset y hy => ?_⟩
      by_cases hyx : y = x
      · exact hyx ▸ hstay trivial rfl
      · exact hset y hyx hy
    | true =>
      obtain ⟨t, ht, hmoved⟩ := update_ok h.shaped hb (h.room hx) c
      refine ⟨t, ht, hmoved.sound ⟨h, hqueued, hsorted⟩, hmoved.frame.carries, fun hc _ hset y hy => ?_⟩
      have hys : s.isBasic y = false := by rwa [isBasic, hmoved.tableau] at hy
      exact hmoved.within hc hys fun hyx => hset y hyx hys

theorem Announced.impose (hann : Announced s u) (hu : u.Sound ds) (hx : u.isRegistered x = true) {st : Store τ}
    (he : u.store.Enforced st sides x c token) (hd : st.Disciplined u.registered) (hadmits : st.bounds.Admits x c)
    {move : DeltaRat → Bool} (hstay : ∀ v, move v = false → ∀ side, sides side → side.outside v c = false) :
    ∃ t, ({ u with store := st } : Solver τ).settleBound x c move = .ok t ∧ Asserted ds s t none sides x c token := by
  have hwithin : ∀ y, y ≠ x → (({ u with store := st } : Solver τ).Within y ↔ u.Within y) := by
    intro y hy
    simp only [Within, Bounds.Admits, he.value, he.imposed.other fun hn => hy hn.2]
  obtain ⟨t, ht, hsound, hcarries, hsettled⟩ := settleBound_ok (hu.coherent.withStore he.size he.value he.safe he.tracks hd)
    hu.sorted hx (fun y hy hb hn => hu.queued y hb ((hwithin y hy).not.mp hn)) c move
  refine ⟨t, ht, hsound, fun hset => hsettled hadmits (fun hb hm => ?_) fun y hy hb => ?_,
    fun hy => hcarries.registered (hann.carries.registered hy), ?_, fun _ => ?_, fun _ hc => by cases hc⟩
  · show st.bounds.Admits x (st.value x)
    rw [he.value]
    exact he.imposed.admits_iff.mpr ⟨hann.settled hset x hb, hstay _ (by rwa [he.value] at hm)⟩
  · exact (hwithin y hy).mpr (hann.settled hset y hb)
  · rw [congrArg List.tail hcarries.levels, he.outer, hann.carries.levels]
  · rw [hcarries.bounds, ← hann.carries.bounds]
    exact he.imposed

/-! ### Assertions -/

variable [DecidableEq τ]

theorem clash_eq_none_iff :
    clash slot side c token = none ↔ ∀ l, slot.bound? side = some l → side.outside c l.value = false := by
  simp [clash]

theorem assertBound_ok (h : s.Sound ds) (side : Side) (x : Var) (c : DeltaRat) (token : τ) :
    ∃ answer t, s.assertBound side x c token = .ok (answer, t) ∧ Asserted ds s t answer (· = side) x c token := by
  have hann := h.coherent.announced_register x
  have hreg : (s.register x).isRegistered x = true := (isRegistered_register s x).mpr (Or.inl rfl)
  have hu := h.register x
  have hlt := hu.coherent.room hreg
  obtain ⟨slot, hslot, hget⟩ := hu.coherent.shaped.slot_ok hlt
  simp only [assertBound, hslot, ok_bind]
  cases hr : slot.reached side c with
  | true =>
    refine ⟨none, s.register x, rfl, hann.pass hu fun side' hs => ?_⟩
    subst hs
    exact (reached_iff hget).mp hr
  | false =>
    cases hc : clash slot side.opposite c token with
    | some conflict =>
      refine ⟨some conflict, _, rfl, hann.refuse hu _ (sound_clash hget hc fun w hw => ?_)⟩
      exact Side.outside_eq_false_iff.mp (hw side rfl)
    | none =>
      have hnew : ∀ l, (s.register x).store.bounds side.opposite x = some l → side.opposite.outside c l.value = false :=
        fun l hl => clash_eq_none_iff.mp hc l (by rwa [← Store.bounds_of_get? hget])
      obtain ⟨st, hst, hd, he⟩ := hu.coherent.disciplined.enforce hreg (hu.coherent.shaped.size ▸ hlt) side token
        (reached_of_not_reached hget hr) hnew
      obtain ⟨t, ht, hasserted⟩ := hann.impose hu hreg he hd (hd.ordered.admits (he.own side rfl)) fun v hm side' hs => hs ▸ hm
      refine ⟨none, t, ?_, hasserted⟩
      simp only [Bool.false_eq_true, if_false, hst, ok_bind, ht, pure, Except.pure]

theorem assertEqual_ok (h : s.Sound ds) (x : Var) (c : DeltaRat) (token : τ) :
    ∃ answer t, s.assertEqual x c token = .ok (answer, t) ∧ Asserted ds s t answer (fun _ => True) x c token := by
  have hann := h.coherent.announced_register x
  have hreg : (s.register x).isRegistered x = true := (isRegistered_register s x).mpr (Or.inl rfl)
  have hu := h.register x
  have hlt := hu.coherent.room hreg
  obtain ⟨slot, hslot, hget⟩ := hu.coherent.shaped.slot_ok hlt
  simp only [assertEqual, hslot, ok_bind]
  cases hr : slot.reached .lower c && slot.reached .upper c with
  | true =>
    rw [Bool.and_eq_true] at hr
    refine ⟨none, s.register x, rfl, hann.pass hu fun side _ => ?_⟩
    cases side
    · exact (reached_iff hget).mp hr.1
    · exact (reached_iff hget).mp hr.2
  | false =>
    cases hc : (clash slot .upper c token).or (clash slot .lower c token) with
    | some conflict =>
      refine ⟨some conflict, _, rfl, hann.refuse hu _ ?_⟩
      rcases Option.or_eq_some_iff.mp hc with hc | ⟨-, hc⟩
      · exact sound_clash hget hc fun w hw => Side.outside_eq_false_iff.mp (hw .lower trivial)
      · exact sound_clash hget hc fun w hw => Side.outside_eq_false_iff.mp (hw .upper trivial)
    | none =>
      obtain ⟨hcu, hcl⟩ := Option.or_eq_none_iff.mp hc
      -- The value lies within both old bounds, so it is at least as tight as each of them.
      have hnew : ∀ side l, (s.register x).store.bounds side x = some l → side.outside c l.value = false :=
        fun side l hl => by
          rw [Store.bounds_of_get? hget] at hl
          cases side
          · exact clash_eq_none_iff.mp hcl l hl
          · exact clash_eq_none_iff.mp hcu l hl
      have htight : ∀ {side l}, (s.register x).store.bounds side x = some l → side.reached l.value c = true := fun hl => by
        have hin := Side.outside_eq_false_iff.mp (hnew _ _ hl)
        rwa [Side.reached_opposite] at hin
      obtain ⟨st, hst, hd, he⟩ := hu.coherent.disciplined.enforce hreg (hu.coherent.shaped.size ▸ hlt) .lower token htight
        (hnew .upper)
      have hupper : ∀ {l}, st.bounds .upper x = some l → Side.upper.reached l.value c = true := fun hl =>
        htight ((he.origin _ _ _ hl).resolve_right fun h => by cases h.1)
      have hlower : ∀ l, st.bounds .lower x = some l → Side.lower.outside c l.value = false := by
        intro l hl
        obtain rfl := Option.some.inj ((he.own .lower rfl).symm.trans hl)
        exact Side.outside_self _ _
      obtain ⟨st', hst', hd', he'⟩ := hd.enforce hreg (by rwa [he.size, hu.coherent.shaped.size]) .upper token hupper
        hlower
      have hstay : ∀ v, decide (v ≠ c) = false → ∀ side : Side, True → side.outside v c = false := by
        intro v hm side _
        obtain rfl : v = c := by simpa using hm
        exact Side.outside_self _ _
      obtain ⟨t, ht, hasserted⟩ := hann.impose hu hreg (he.both he') hd' (hd'.ordered.admits (he'.own .upper rfl)) hstay
      refine ⟨none, t, ?_, hasserted⟩
      simp only [Bool.false_eq_true, if_false, hst, hst', ok_bind, ht, pure, Except.pure]

end Solver

end LinReal
