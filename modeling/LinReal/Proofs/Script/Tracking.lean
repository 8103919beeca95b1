import LinReal.Proofs.Script.Commands
import LinReal.Proofs.Script.Limits

/-! The scopes of a run and the levels of its solver. While no conflict is pending, the bounds of every level fit the bounds
    asserted in the scopes up to it. A pending conflict stands until the innermost scope with one of its bounds is closed;
    bounds recorded meanwhile are dropped with that scope, so the levels outside it still fit. -/

namespace LinReal.Script

open Command

variable {s : Script} {levels : List (Bounds Nat)} {b c : Bounds Nat} {scopes outer : List (List Nat)} {is tokens : List Nat}
  {rows : List (Var × LinearForm)} {conflict : Conflict Nat} {i : Nat}

/-- Every level fits the ordinals of its scope and of those around it. -/
inductive Tracked (s : Script) : List (Bounds Nat) → List (List Nat) → Prop where
  | nil : Tracked s [] []
  | cons {b : Bounds Nat} {levels : List (Bounds Nat)} {is : List Nat} {outer : List (List Nat)}
    (h : s.Fits b (is :: outer).flatten) (ht : Tracked s levels outer) : Tracked s (b :: levels) (is :: outer)

theorem Tracked.fits (h : s.Tracked (b :: levels) scopes) : s.Fits b scopes.flatten := by
  cases h
  assumption

theorem Tracked.tail (h : s.Tracked levels scopes) : s.Tracked levels.tail scopes.tail := by
  cases h with
  | nil => exact .nil
  | cons _ ht => exact ht

theorem Tracked.push (h : s.Tracked (b :: levels) scopes) : s.Tracked (b :: b :: levels) ([] :: scopes) := .cons h.fits h

theorem Tracked.impose {l : Literal} (h : s.Tracked (b :: levels) (is :: outer)) (hl : s.literals[i]? = some l)
    (hi : b.Imposed c l.sides l.var l.limit i) : s.Tracked (c :: levels) ((i :: is) :: outer) :=
  .cons (h.fits.impose hl hi) h.tail

/-! ### Pending conflicts -/

/-- Some scope has one of the tokens, and the levels around the innermost such scope are tracked. -/
inductive Anchored (s : Script) (tokens : List Nat) : List (Bounds Nat) → List (List Nat) → Prop where
  | here {levels : List (Bounds Nat)} {is : List Nat} {outer : List (List Nat)} (hin : ∃ t ∈ tokens, t ∈ is)
    (ht : Tracked s levels.tail outer) : Anchored s tokens levels (is :: outer)
  | deeper {levels : List (Bounds Nat)} {is : List Nat} {outer : List (List Nat)} (hout : ∀ t ∈ tokens, t ∉ is)
    (ha : Anchored s tokens levels.tail outer) : Anchored s tokens levels (is :: outer)

theorem Tracked.anchored (h : s.Tracked levels scopes) (hin : ∃ t ∈ tokens, t ∈ scopes.flatten) :
    s.Anchored tokens levels scopes := by
  induction h with
  | nil =>
    obtain ⟨t, -, ht⟩ := hin
    cases ht
  | @cons b levels is outer _ ht ih =>
    by_cases hhere : ∃ t ∈ tokens, t ∈ is
    · exact .here hhere ht
    · refine .deeper (fun t ht hin => hhere ⟨t, ht, hin⟩) (ih ?_)
      obtain ⟨t, htokens, hin⟩ := hin
      rw [List.flatten_cons, List.mem_append] at hin
      exact ⟨t, htokens, hin.resolve_left fun hin => hhere ⟨t, htokens, hin⟩⟩

theorem Anchored.record (h : s.Anchored tokens levels (is :: outer)) (hi : i ∉ tokens) :
    s.Anchored tokens levels ((i :: is) :: outer) := by
  cases h with
  | here hin ht =>
    obtain ⟨t, htokens, hin⟩ := hin
    exact .here ⟨t, htokens, List.mem_cons_of_mem _ hin⟩ ht
  | deeper hout ha =>
    refine .deeper (fun t ht hin => ?_) ha
    rcases List.mem_cons.mp hin with rfl | hin
    · exact hi ht
    · exact hout t ht hin

/-- What a pending conflict says of the rows and of the bounds in force. -/
structure Blocked (s : Script) (rows : List (Var × LinearForm)) (levels : List (Bounds Nat)) (scopes : List (List Nat))
    (conflict : Conflict Nat) : Prop where
  nonempty : conflict.tokens ≠ []
  nodup : conflict.tokens.Nodup
  inForce : ∀ t ∈ conflict.tokens, t ∈ scopes.flatten
  refuted : ¬∃ v, s.Solves rows conflict.tokens v
  anchored : s.Anchored conflict.tokens levels scopes

theorem satisfies_reverse {v : Var → Rat} : Satisfies v rows.reverse ↔ Satisfies v rows := by
  simp only [Satisfies, List.mem_reverse]

theorem Tracked.blocked (h : s.Tracked (b :: levels) scopes)
    (hc : conflict.Sound rows.reverse b [] fun _ => True) : s.Blocked rows (b :: levels) scopes conflict := by
  obtain ⟨hin, hno⟩ := h.fits.contradiction hc fun _ _ => trivial
  have hforce : ∀ t ∈ conflict.tokens, t ∈ scopes.flatten := fun t ht => (hin t ht).resolve_left fun hin => by cases hin
  obtain ⟨t, ht⟩ := List.exists_mem_of_ne_nil _ hc.nonempty
  exact ⟨hc.nonempty, hc.nodup, hforce, fun ⟨v, hv⟩ => hno ⟨v, satisfies_reverse.mpr hv.1, hv.2⟩,
    h.anchored ⟨t, ht, hforce t ht⟩⟩

/-- A refused bound blocks the run from its scope on. -/
theorem Tracked.refused {l : Literal} (h : s.Tracked (b :: levels) (is :: outer)) (hl : s.literals[i]? = some l)
    (hc : conflict.Sound rows.reverse b [i] fun w => ∀ side, l.sides side → side.outside (w l.var) l.limit = false) :
    s.Blocked rows (b :: levels) ((i :: is) :: outer) conflict := by
  have hi : i ∈ conflict.tokens := hc.includes i List.mem_cons_self
  obtain ⟨hin, hno⟩ := h.fits.contradiction hc fun v hv => Literal.holds_iff.mp (hv i hi l hl)
  refine ⟨hc.nonempty, hc.nodup, fun t ht => ?_, fun ⟨v, hv⟩ => hno ⟨v, satisfies_reverse.mpr hv.1, hv.2⟩,
    .here ⟨i, hi, List.mem_cons_self⟩ h.tail⟩
  rcases hin t ht with hown | hin
  · exact List.mem_cons.mpr (Or.inl (List.mem_singleton.mp hown))
  · exact List.mem_cons_of_mem _ hin

theorem Blocked.append (h : s.Blocked rows levels scopes conflict) (more : List (Var × LinearForm)) :
    s.Blocked (rows ++ more) levels scopes conflict :=
  ⟨h.nonempty, h.nodup, h.inForce, fun ⟨v, hv⟩ => h.refuted ⟨v, fun d hd => hv.1 d (List.mem_append_left _ hd), hv.2⟩,
    h.anchored⟩

theorem Blocked.record (h : s.Blocked rows levels (is :: outer) conflict) (hi : i ∉ (is :: outer).flatten) :
    s.Blocked rows levels ((i :: is) :: outer) conflict :=
  ⟨h.nonempty, h.nodup, fun t ht => List.mem_cons_of_mem _ (h.inForce t ht), h.refuted,
    h.anchored.record fun hin => hi (h.inForce i hin)⟩

theorem Blocked.push (h : s.Blocked rows levels scopes conflict) (b : Bounds Nat) :
    s.Blocked rows (b :: levels) ([] :: scopes) conflict :=
  ⟨h.nonempty, h.nodup, h.inForce, h.refuted, .deeper (fun _ _ hin => by cases hin) h.anchored⟩

/-- Closing a scope takes the conflict back exactly if the scope has one of its bounds; then the levels left are
    tracked. -/
theorem Blocked.pop (h : s.Blocked rows levels (is :: outer) conflict) :
    ((∃ t ∈ conflict.tokens, t ∈ is) → s.Tracked levels.tail outer) ∧
      ((∀ t ∈ conflict.tokens, t ∉ is) → s.Blocked rows levels.tail outer conflict) := by
  cases h.anchored with
  | here hin ht =>
    obtain ⟨t, htokens, hin⟩ := hin
    exact ⟨fun _ => ht, fun hout => absurd hin (hout t htokens)⟩
  | deeper hout ha =>
    refine ⟨fun ⟨t, ht, hin⟩ => absurd hin (hout t ht), fun _ => ⟨h.nonempty, h.nodup, fun t ht => ?_, h.refuted, ha⟩⟩
    have hin := h.inForce t ht
    rw [List.flatten_cons, List.mem_append] at hin
    exact hin.resolve_left (hout t ht)

end LinReal.Script
