import LinReal.Proofs.Script.Limits

/-! Models. The infinitesimal of a model is the greatest one, up to one, at which no bound in force has changed its truth. It is
    positive, so values that respect the limits of all bounds in force become values of which the bounds hold. -/

namespace LinReal.Runner

variable {script : Script} {r : Runner} {m : Model} {ls : List Rat} {best d : Rat} {x : Var}

theorem le_foldl_smaller_iff :
    d ≤ ls.foldl (fun best l => if l < best then l else best) best ↔ d ≤ best ∧ ∀ l ∈ ls, d ≤ l := by
  induction ls generalizing best with
  | nil => simp
  | cons l ls ih =>
    rw [List.foldl_cons, ih, ← min_def_lt, le_min_iff, List.forall_mem_cons]
    tauto

theorem lt_foldl_smaller_iff :
    d < ls.foldl (fun best l => if l < best then l else best) best ↔ d < best ∧ ∀ l ∈ ls, d < l := by
  induction ls generalizing best with
  | nil => simp
  | cons l ls ih =>
    rw [List.foldl_cons, ih, ← min_def_lt, lt_min_iff, List.forall_mem_cons]
    tauto

/-- `m` has the values of the solver, and its infinitesimal is the least of one and of the limits up to which the bounds in force
    keep their truth. -/
structure Modelled (script : Script) (r : Runner) (m : Model) : Prop where
  symbolic : m.symbolic = (List.range script.variableCount).map r.solver.store.value
  values : m.values = m.symbolic.map (·.substitute m.delta)
  pos : 0 < m.delta
  le_delta_iff : ∀ {d}, d ≤ m.delta ↔ d ≤ 1 ∧ ∀ i ∈ r.active, ∀ l, script.literals[i]? = some l →
    ∀ e, l.deltaLimit (r.solver.store.value l.var) = some e → d ≤ e

theorem Modelled.getD_symbolic (h : Modelled script r m) (hx : x < script.variableCount) :
    m.symbolic[x]?.getD 0 = r.solver.store.value x := by
  rw [h.symbolic, List.getElem?_map, List.getElem?_range hx]
  rfl

theorem Modelled.getD_values (h : Modelled script r m) (x : Var) :
    m.values[x]?.getD 0 = (m.symbolic[x]?.getD 0).substitute m.delta := by
  rw [h.values, List.getElem?_map]
  cases m.symbolic[x]? with
  | none => exact (DeltaRat.substitute_zero _).symm
  | some v => rfl

theorem model_ok (hroom : ∀ x < script.variableCount, x < r.solver.store.size)
    (hactive : ∀ i ∈ r.active, ∃ l, script.literals[i]? = some l ∧ l.var < script.variableCount) :
    ∃ m, r.model script = .ok m ∧ Modelled script r m := by
  obtain ⟨symbolic, hsymbolic⟩ : ∃ symbolic, symbolic = (List.range script.variableCount).map r.solver.store.value := ⟨_, rfl⟩
  have hvalues : (List.range script.variableCount).mapM (fun x => return (← r.solver.store.slot x).value) =
      (.ok symbolic : Except Fault (List DeltaRat)) := by
    rw [hsymbolic]
    refine mapM_eq_ok fun x hx => ?_
    obtain ⟨slot, hslot, hget⟩ := Store.slot_ok (hroom x (List.mem_range.mp hx))
    rw [hslot, Store.value_of_get? hget]
    rfl
  have hat : ∀ {x}, x < script.variableCount → symbolic[x]? = some (r.solver.store.value x) := fun hx => by
    rw [hsymbolic, List.getElem?_map, List.getElem?_range hx, Option.map_some]
  obtain ⟨limits, hlimits⟩ : ∃ limits, limits = r.active.map fun i =>
    (script.literals[i]?).bind fun l => l.deltaLimit (r.solver.store.value l.var) := ⟨_, rfl⟩
  have hmem : ∀ e, e ∈ limits.filterMap id ↔
      ∃ i ∈ r.active, ∃ l, script.literals[i]? = some l ∧ l.deltaLimit (r.solver.store.value l.var) = some e := by
    intro e
    simp only [hlimits, List.mem_filterMap, List.mem_map, exists_exists_and_eq_and, id, Option.bind_eq_some_iff]
  refine ⟨⟨(limits.filterMap id).foldl (fun best l => if l < best then l else best) 1, symbolic, symbolic.map
    (·.substitute ((limits.filterMap id).foldl (fun best l => if l < best then l else best) 1))⟩, ?_, hsymbolic, rfl, ?_, ?_⟩
  · refine bind_eq_ok.mpr ⟨symbolic, hvalues, bind_eq_ok.mpr ⟨limits, hlimits ▸ mapM_eq_ok fun i hi => ?_, rfl⟩⟩
    obtain ⟨l, hl, hlt⟩ := hactive i hi
    simp only [Script.literal, hl, ok_bind, hat hlt]
    rfl
  · refine lt_foldl_smaller_iff.mpr ⟨one_pos, fun e he => ?_⟩
    obtain ⟨i, -, l, -, hlimit⟩ := (hmem e).mp he
    exact Literal.deltaLimit_pos hlimit
  · refine le_foldl_smaller_iff.trans (and_congr_right' ⟨fun h i hi l hl e he => h e ((hmem e).mpr ⟨i, hi, l, hl, he⟩),
      fun h e he => ?_⟩)
    obtain ⟨i, hi, l, hl, hlimit⟩ := (hmem e).mp he
    exact h i hi l hl e hlimit

/-- If the solver's values respect the bounds in force, the bounds hold for every infinitesimal up to that of the model. -/
theorem Modelled.holds (h : Modelled script r m) (hd : 0 < d) (hle : d ≤ m.delta)
    (hrespected : ∀ i ∈ r.active, ∀ l, script.literals[i]? = some l → l.Respected r.solver.store.value) :
    script.Holds r.active fun x => (r.solver.store.value x).substitute d := fun i hi l hl =>
  (hrespected i hi l hl).holds hd ((h.le_delta_iff.mp hle).2 i hi l hl)

end LinReal.Runner
