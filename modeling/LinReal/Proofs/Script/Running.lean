import LinReal.Proofs.Script.Models
import LinReal.Proofs.Script.Reading
import LinReal.Proofs.Script.Results
import LinReal.Proofs.Script.Tracking
import LinReal.Proofs.Solver.Termination

/-! Runs of scripts. After every command the state of a run follows the commands so far: its solver is sound for the rows, its
    scopes hold the bounds in force, and the solver's levels are tracked unless a conflict blocks the run. Hence every
    check answers, and its result is exact. -/

namespace LinReal

open Command

namespace Runner

variable {s : Script} {pre post : List Command} {r : Runner} {x : Var} {d : LinearForm} {i : Nat}

/-- The state after some commands, as far as it decides what later commands do. -/
structure Follows (s : Script) (pre : List Command) (r : Runner) : Prop where
  sound : r.solver.Sound (rowsOf pre).reverse
  settled : r.solver.Settled
  registered : ∀ x < s.variableCount, r.solver.isRegistered x = true
  scopes : r.scopes = pre.foldl Command.scope [[]]
  rows : r.rows = (rowsOf pre).length
  depth : r.solver.store.levels.length = r.scopes.length
  tracked : r.pending = none → s.Tracked r.solver.store.levels r.scopes
  blocked : ∀ c, r.pending = some c → s.Blocked (rowsOf pre) r.solver.store.levels r.scopes c

theorem follows_start (s : Script) (settings : Settings) : (start s settings).Follows s [] := by
  have hnew := Solver.sound_new (τ := Nat) settings
  obtain ⟨hcoh, hann, hreg⟩ := hnew.coherent.registerAll (List.range s.variableCount)
  have hlevels : (start s settings).solver.store.levels = [fun _ _ => none] :=
    hann.carries.levels.trans Store.levels_empty
  refine ⟨⟨hcoh, hann.queued hnew.queued, ?_⟩, hann.settled (Solver.settled_new settings),
    fun x hx => hreg x (List.mem_range.mpr hx), rfl, rfl, ?_, fun _ => ?_, fun c hc => by cases hc⟩
  · show ((List.range s.variableCount).foldl Solver.register (.new settings)).queue.Sorted
    rw [hann.queue]
    exact hnew.sorted
  · rw [hlevels]
    rfl
  · rw [hlevels]
    exact .cons (Script.fits_nil s) .nil

theorem scopes_concat (pre : List Command) (c : Command) :
    (pre ++ [c]).foldl scope [[]] = scope (pre.foldl scope [[]]) c := by
  rw [List.foldl_append]
  rfl

theorem rowsOf_concat {c : Command} (hc : rowsOf [c] = []) : rowsOf (pre ++ [c]) = rowsOf pre := by
  rw [rowsOf_append, hc, List.append_nil]

theorem Follows.active (h : r.Follows s pre) (hb : Matched pre) : r.active = Command.active pre := by
  rw [Runner.active, h.scopes, hb.flatten_scopes]

theorem Follows.mem_scopes (h : r.Follows s pre) (hb : Matched pre) (hi : i ∈ r.scopes.flatten) : i ∈ ordinalsOf pre := by
  refine mem_ordinalsOf_of_mem_active ?_
  rw [← hb.flatten_scopes, ← h.scopes]
  exact List.mem_reverse.mpr hi

theorem Follows.scopes_ne_nil (h : r.Follows s pre) (hb : Matched pre) : ∃ is outer, r.scopes = is :: outer := by
  have hlength := hb.length_scopes
  rw [← h.scopes] at hlength
  exact List.exists_cons_of_length_eq_add_one hlength

/-! ### Rows, bounds and scopes -/

/-- A variable that no row so far mentions owns no row of the tableau and occurs in none, whatever the pivots were. -/
theorem Follows.unused (h : r.Follows s pre) (hx : ¬Mentions (rowsOf pre) x) :
    r.solver.isBasic x = false ∧ r.solver.tableau.occurs x = false :=
  h.sound.coherent.unused fun ⟨p, hp, hin⟩ => hx ⟨p, List.mem_reverse.mp hp, hin⟩

theorem Follows.row (h : r.Follows s pre) (hx : ¬Mentions (rowsOf pre) x) (hself : x ∉ d.vars) :
    ∃ r', r.step s (.row x d) = .ok r' ∧ r'.Follows s (pre ++ [.row x d]) ∧ r'.results = r.results := by
  obtain ⟨hnb, hocc⟩ := h.unused hx
  obtain ⟨t, ht, hsound, hcarries, hsettled⟩ := Solver.addRow_ok h.sound hnb hocc hself
  have hrows : rowsOf (pre ++ [.row x d]) = rowsOf pre ++ [(x, d)] := rowsOf_append pre _
  refine ⟨{ r with solver := t, rows := r.rows + 1 }, bind_eq_ok.mpr ⟨t, ht, rfl⟩, ⟨?_, hsettled h.settled,
    fun y hy => hcarries.registered (h.registered y hy), h.scopes.trans (scopes_concat pre (.row x d)).symm, ?_, ?_, fun hp => ?_,
    fun c hc => ?_⟩, rfl⟩
  · rw [hrows, List.reverse_append]
    exact hsound
  · rw [hrows, List.length_append, ← h.rows]
    rfl
  · exact (congrArg List.length hcarries.levels).trans h.depth
  · show s.Tracked t.store.levels r.scopes
    rw [hcarries.levels]
    exact h.tracked hp
  · show s.Blocked _ t.store.levels r.scopes c
    rw [hcarries.levels, hrows]
    exact (h.blocked c hc).append _

theorem Follows.bound {l : Literal} (h : r.Follows s pre) (hb : Matched pre) (hl : s.literals[i]? = some l)
    (hi : i ∉ ordinalsOf pre) :
    ∃ r', r.step s (.bound i) = .ok r' ∧ r'.Follows s (pre ++ [.bound i]) ∧ r'.results = r.results := by
  obtain ⟨is, outer, hscopes⟩ := h.scopes_ne_nil hb
  have hrows : rowsOf (pre ++ [.bound i]) = rowsOf pre := rowsOf_concat rfl
  have hscopes' : (i :: is) :: outer = (pre ++ [Command.bound i]).foldl scope [[]] := by
    rw [scopes_concat, ← h.scopes, hscopes]
    rfl
  have hrecord : r.record i = { r with scopes := (i :: is) :: outer } := by simp only [record, hscopes]
  have hdepth := h.depth
  rw [hscopes] at hdepth
  cases hp : r.pending with
  | some c =>
    -- The bound is recorded only. It is new, so it is none of those that block the run.
    have hblocked := h.blocked c hp
    rw [hscopes] at hblocked
    have hfresh : i ∉ (is :: outer).flatten := fun hin => hi (h.mem_scopes hb (hscopes ▸ hin))
    refine ⟨{ r with scopes := (i :: is) :: outer }, ?_, ⟨hrows ▸ h.sound, h.settled, h.registered, hscopes',
      hrows ▸ h.rows, hdepth, fun hn => ?_, fun c' hc' => ?_⟩, rfl⟩
    · simp only [step, hrecord, hp]
    · cases hn.symm.trans hp
    · obtain rfl := Option.some.inj (hp.symm.trans hc')
      rw [hrows]
      exact hblocked.record hfresh
  | none =>
    have htracked := h.tracked hp
    rw [hscopes, Store.levels_eq_cons] at htracked
    obtain ⟨answer, t, ht, hasserted⟩ := Literal.assertIn_ok h.sound l i
    have hlevels : t.store.levels = t.store.bounds :: r.solver.store.levels.tail := by
      rw [Store.levels_eq_cons, hasserted.outer]
    refine ⟨{ r with scopes := (i :: is) :: outer, pending := answer, solver := t }, ?_, ⟨hrows ▸ hasserted.sound,
      hasserted.settled h.settled, fun y hy => hasserted.registered (h.registered y hy), hscopes', hrows ▸ h.rows, ?_,
      fun hn => ?_, fun c hc => ?_⟩, rfl⟩
    · simp only [step, hrecord, hp, Script.literal, hl, ok_bind, ht]
      rfl
    · have hlength : t.store.levels.length = r.solver.store.levels.length := by
        rw [hlevels, Store.levels_eq_cons r.solver.store]
        rfl
      exact hlength.trans hdepth
    · show s.Tracked t.store.levels _
      rw [hlevels]
      exact htracked.impose hl (hasserted.imposed hn)
    · obtain ⟨hbounds, hc'⟩ := hasserted.refused c hc
      show s.Blocked _ t.store.levels _ c
      rw [hlevels, hbounds, hrows]
      rw [hbounds] at hc'
      exact htracked.refused hl hc'

theorem Follows.push (h : r.Follows s pre) :
    ∃ r', r.step s .push = .ok r' ∧ r'.Follows s (pre ++ [.push]) ∧ r'.results = r.results := by
  obtain ⟨hsound, hlevels, hregistered, hsettled⟩ := h.sound.push
  have hrows : rowsOf (pre ++ [.push]) = rowsOf pre := rowsOf_concat rfl
  refine ⟨{ r with solver := r.solver.push, scopes := [] :: r.scopes }, rfl, ⟨hrows ▸ hsound, hsettled h.settled,
    fun y hy => hregistered (h.registered y hy), ?_, hrows ▸ h.rows, ?_, fun hn => ?_, fun c hc => ?_⟩, rfl⟩
  · rw [scopes_concat, ← h.scopes]
    rfl
  · exact (congrArg List.length hlevels).trans (congrArg (· + 1) h.depth)
  · have htracked := h.tracked hn
    show s.Tracked r.solver.push.store.levels _
    rw [hlevels]
    rw [Store.levels_eq_cons] at htracked ⊢
    exact htracked.push
  · show s.Blocked _ r.solver.push.store.levels _ c
    rw [hlevels, hrows]
    exact (h.blocked c hc).push _

/-- Dropping the bounds of the innermost scope takes a conflict back if it has one of them; either way the levels that stay
    are tracked unless a conflict still blocks them. -/
theorem Follows.retract {is : List Nat} {outer : List (List Nat)} (h : r.Follows s pre) (hscopes : r.scopes = is :: outer) :
    ∃ pending t, ({ r with scopes := outer } : Runner).retract is =
        .ok { r with scopes := outer, pending := pending, solver := t } ∧
      t.Sound (rowsOf pre).reverse ∧ t.Settled ∧ Solver.Carries r.solver t ∧
      (pending = none → s.Tracked t.store.levels.tail outer) ∧
      ∀ c, pending = some c → s.Blocked (rowsOf pre) t.store.levels.tail outer c := by
  obtain ⟨solver, scopes, rows, pending, results⟩ := r
  subst hscopes
  cases pending with
  | none => exact ⟨none, solver, rfl, h.sound, h.settled, .refl _, fun _ => (h.tracked rfl).tail, fun c hc => by cases hc⟩
  | some c =>
    obtain ⟨hback, hstays⟩ := (h.blocked c rfl).pop
    -- The scope that is closed either has one of the conflict's bounds, or all of them lie further out.
    cases hany : c.tokens.any is.contains with
    | true =>
      obtain ⟨t, ht, hsound, hcarries, hsettled⟩ := Solver.revert_ok h.sound
      refine ⟨none, t, ?_, hsound, hsettled, hcarries, fun _ => ?_, fun c' hc' => by cases hc'⟩
      · simp only [Runner.retract, hany, if_true, ht, ok_bind]
        rfl
      · obtain ⟨i, hi, hin⟩ := List.any_eq_true.mp hany
        rw [hcarries.levels]
        exact hback ⟨i, hi, List.contains_iff_mem.mp hin⟩
    | false =>
      refine ⟨some c, solver, ?_, h.sound, h.settled, .refl _, fun hn => (by cases hn), fun c' hc' => ?_⟩
      · simp only [Runner.retract, hany, Bool.false_eq_true, if_false]
      · obtain rfl := Option.some.inj hc'
        refine hstays fun i hi hin => ?_
        exact List.any_eq_false.mp hany i hi (List.contains_iff_mem.mpr hin)

theorem Follows.pop (h : r.Follows s pre) (hb : Matched pre) (ho : 0 < opened pre) :
    ∃ r', r.step s .pop = .ok r' ∧ r'.Follows s (pre ++ [.pop]) ∧ r'.results = r.results := by
  obtain ⟨is, outer, hscopes⟩ := h.scopes_ne_nil hb
  have hrows : rowsOf (pre ++ [.pop]) = rowsOf pre := rowsOf_concat rfl
  have hlength := hb.length_scopes
  rw [← h.scopes, ← h.depth] at hlength
  obtain ⟨pending, t, hretract, hsound, hsettled, hcarries, htracked, hblocked⟩ := h.retract hscopes
  -- The solver has as many levels as there are scopes, so it has a scope to close too.
  have hopen : t.store.scopes ≠ [] := by
    intro hnil
    have hlevels := Store.length_levelsFrom t.store.bounds t.store.scopes
    rw [show Store.levelsFrom t.store.bounds t.store.scopes = r.solver.store.levels from hcarries.levels, hlength, hnil]
      at hlevels
    exact ho.ne' (Nat.succ.inj hlevels)
  obtain ⟨u, hu, husound, hlevels, hregistered, husettled⟩ := Solver.pop_ok hsound
  have hlevels := hlevels hopen
  refine ⟨{ r with scopes := outer, pending := pending, solver := u }, ?_, ⟨hrows ▸ husound, husettled hsettled,
    fun y hy => hregistered (hcarries.registered (h.registered y hy)), ?_, hrows ▸ h.rows, ?_, fun hn => ?_,
    fun c hc => ?_⟩, rfl⟩
  · simp only [step, hscopes, List.tail_cons, List.headD_cons, hretract, ok_bind, hu]
    rfl
  · rw [scopes_concat, ← h.scopes, hscopes]
    rfl
  · show u.store.levels.length = outer.length
    rw [hlevels, List.length_tail, hcarries.levels, h.depth, hscopes]
    rfl
  · show s.Tracked u.store.levels outer
    rw [hlevels]
    exact htracked hn
  · show s.Blocked _ u.store.levels outer c
    rw [hlevels, hrows]
    exact hblocked c hc

/-! ### Checks -/

/-- Before a check answers, either a conflict is pending or all variables lie within their bounds. -/
theorem Follows.decide (h : r.Follows s pre) :
    ∃ r', r.decide = .ok r' ∧ r'.Follows s pre ∧ r'.results = r.results ∧ (r'.pending = none → ∀ x, r'.solver.Within x) := by
  cases hp : r.pending with
  | some c => exact ⟨r, by simp only [Runner.decide, hp], h, rfl, fun hn => by cases hn.symm.trans hp⟩
  | none =>
    obtain ⟨answer, t, ht, hsound, hkeeps, hwithin, hconflict⟩ := Solver.repair_ok h.sound h.settled
    have hlevels := hkeeps.carries.levels
    have hdepth : t.store.levels.length = r.scopes.length := (congrArg List.length hlevels).trans h.depth
    have hregistered : ∀ x < s.variableCount, t.isRegistered x = true := fun x hx =>
      hkeeps.carries.registered (h.registered x hx)
    have htracked : s.Tracked t.store.levels r.scopes := by
      rw [hlevels]
      exact h.tracked hp
    cases answer with
    | none =>
      obtain ⟨hsound', hcarries, hsettled⟩ := hsound.commit
      refine ⟨{ r with solver := t.commit }, ?_, ⟨hsound', hsettled (hkeeps.settled h.settled),
        fun x hx => hcarries.registered (hregistered x hx), h.scopes, h.rows, ?_, fun _ => ?_,
        fun c hc => by cases hp.symm.trans hc⟩, rfl, fun _ x => ?_⟩
      · simp only [Runner.decide, hp, ht, ok_bind]
        rfl
      · exact (congrArg List.length hcarries.levels).trans hdepth
      · show s.Tracked t.commit.store.levels r.scopes
        rw [hcarries.levels]
        exact htracked
      · exact (Solver.within_commit hsound.coherent).mpr (hwithin rfl x)
    | some c =>
      refine ⟨{ r with pending := some c, solver := t }, ?_, ⟨hsound, hkeeps.settled h.settled, hregistered, h.scopes,
        h.rows, hdepth, fun hn => (by cases hn), fun c' hc' => ?_⟩, rfl, fun hn => by cases hn⟩
      · simp only [Runner.decide, hp, ht, ok_bind]
        rfl
      · obtain rfl := Option.some.inj hc'
        show s.Blocked _ t.store.levels r.scopes c
        rw [Store.levels_eq_cons] at htracked ⊢
        exact htracked.blocked (hconflict c rfl)

theorem Follows.respected (h : r.Follows s pre) (hp : r.pending = none) (hwithin : ∀ x, r.solver.Within x) :
    ∀ i ∈ r.active, ∀ l, s.literals[i]? = some l → l.Respected r.solver.store.value := by
  have htracked := h.tracked hp
  rw [Store.levels_eq_cons] at htracked
  exact fun i hi l hl => htracked.fits.respected hwithin (List.mem_reverse.mp hi) hl

section Answer

variable (h : r.Follows s pre) (hs : s.WellFormed) (hcut : s.commands.toList = pre ++ post)
include h hs hcut

theorem Follows.literal (hi : i ∈ r.active) : ∃ l, s.literals[i]? = some l ∧ l.var < s.variableCount :=
  hs.literal hcut (h.mem_scopes (hs.matched_left hcut) (List.mem_reverse.mp hi))

theorem Follows.frame : r.active = Command.active pre ∧ (∀ i ∈ r.active, i < s.literals.size) ∧
    s.rows.take r.rows = rowsOf pre := by
  refine ⟨h.active (hs.matched_left hcut), fun i hi => ?_, ?_⟩
  · obtain ⟨l, hl, -⟩ := h.literal hs hcut hi
    exact (Array.getElem?_eq_some_iff.mp hl).1
  · rw [h.rows, Script.WellFormed.rows_take hcut]

theorem Follows.exact_unsat {c : Conflict Nat} (hc : r.pending = some c) :
    CheckResult.Exact s pre ⟨.unsat c, r.active, r.rows⟩ := by
  obtain ⟨hactive, hpresent, hrows⟩ := h.frame hs hcut
  have hblocked := h.blocked c hc
  have hin : ∀ t ∈ c.tokens, t ∈ r.active := fun t ht => List.mem_reverse.mpr (hblocked.inForce t ht)
  refine ⟨hactive, hpresent, h.rows, ⟨fun hsat => (by cases hsat), fun ⟨v, hv⟩ => ?_⟩, fun m hm => (by cases hm),
    fun c' hc' => ?_⟩
  · rw [hrows] at hv
    exact absurd ⟨v, hv.mono hin⟩ hblocked.refuted
  · cases hc'
    rw [hrows]
    exact ⟨hblocked.nonempty, hblocked.nodup, hin, hblocked.refuted⟩

/-- There is a model; rows and bounds hold of it for every infinitesimal up to the one chosen. -/
theorem Follows.model (hp : r.pending = none) (hwithin : ∀ x, r.solver.Within x) :
    ∃ m, r.model s = .ok m ∧ Modelled s r m ∧ ∀ d, 0 < d → d ≤ m.delta →
      s.Solves (rowsOf pre) r.active fun x => (m.symbolic[x]?.getD 0).substitute d := by
  have hcoh := h.sound.coherent
  obtain ⟨m, hm, hmodelled⟩ := model_ok (fun x hx => hcoh.shaped.size ▸ hcoh.room (h.registered x hx))
    fun i hi => h.literal hs hcut hi
  refine ⟨m, hm, hmodelled, fun d hd hle => ?_⟩
  -- The solver has values for all variables, the model for the declared ones; rows and bounds speak of these only.
  have hsatisfies := (hcoh.denotes.delta.mp hcoh.solves).substitute d
  refine Script.Solves.congr ⟨Script.satisfies_reverse.mp hsatisfies, hmodelled.holds hd hle (h.respected hp hwithin)⟩
    (fun x hx => by rw [hmodelled.getD_symbolic hx]) (fun p hp => ?_) fun i hi => h.literal hs hcut hi
  refine hs.declared p ?_
  rw [Script.rows_eq, hcut, rowsOf_append]
  exact List.mem_append_left _ hp

theorem Follows.exact_sat (hp : r.pending = none) (hwithin : ∀ x, r.solver.Within x) :
    ∃ m, r.model s = .ok m ∧ CheckResult.Exact s pre ⟨.sat m, r.active, r.rows⟩ := by
  obtain ⟨hactive, hpresent, hrows⟩ := h.frame hs hcut
  obtain ⟨m, hm, hmodelled, hall⟩ := h.model hs hcut hp hwithin
  have hsolves := hall m.delta hmodelled.pos le_rfl
  simp only [← hmodelled.getD_values] at hsolves
  refine ⟨m, hm, hactive, hpresent, h.rows, ⟨fun _ => ?_, fun _ => rfl⟩, fun m' hm' => ?_, fun c hc => by cases hc⟩
  · rw [hrows]
    exact ⟨_, hsolves⟩
  · cases hm'
    rw [hrows]
    exact ⟨by rw [hmodelled.values, hmodelled.symbolic, List.length_map, List.length_map, List.length_range], hsolves⟩

end Answer

theorem Follows.check (h : r.Follows s pre) (hs : s.WellFormed) (hcut : s.commands.toList = pre ++ .check :: post) :
    ∃ result r', r.step s .check = .ok r' ∧ r'.Follows s (pre ++ [.check]) ∧ r'.results = result :: r.results ∧
      result.Exact s pre := by
  obtain ⟨u, hu, hfollows, hresults, hwithin⟩ := h.decide
  obtain ⟨verdict, hstep, hexact⟩ : ∃ verdict,
      r.step s .check = .ok { u with results := ⟨verdict, u.active, u.rows⟩ :: u.results } ∧
        CheckResult.Exact s pre ⟨verdict, u.active, u.rows⟩ := by
    cases hp : u.pending with
    | some c =>
      refine ⟨.unsat c, ?_, hfollows.exact_unsat hs hcut hp⟩
      simp only [step, hu, ok_bind, hp]
      rfl
    | none =>
      obtain ⟨m, hm, hexact⟩ := hfollows.exact_sat hs hcut hp (hwithin hp)
      refine ⟨.sat m, ?_, hexact⟩
      simp only [step, hu, ok_bind, hp, hm]
      rfl
  have hrows : rowsOf (pre ++ [.check]) = rowsOf pre := rowsOf_concat rfl
  refine ⟨⟨verdict, u.active, u.rows⟩, _, hstep, ⟨hrows ▸ hfollows.sound, hfollows.settled, hfollows.registered, ?_,
    hrows ▸ hfollows.rows, hfollows.depth, hfollows.tracked, hrows ▸ hfollows.blocked⟩, congrArg (_ :: ·) hresults, hexact⟩
  rw [scopes_concat, ← hfollows.scopes]
  rfl

/-! ### Whole runs -/

/-- Every command succeeds, and the results stay answers to the checks. -/
theorem Follows.step (h : r.Follows s pre) (ha : s.Answered pre r.results.reverse) (hs : s.WellFormed) {c : Command}
    (hcut : s.commands.toList = pre ++ c :: post) :
    ∃ r', r.step s c = .ok r' ∧ r'.Follows s (pre ++ [c]) ∧ s.Answered (pre ++ [c]) r'.results.reverse := by
  have hb := hs.matched_left hcut
  cases c with
  | row x d =>
    obtain ⟨hfresh, hself⟩ := hs.row hcut
    obtain ⟨r', hr', hfollows, hresults⟩ := h.row hfresh hself
    exact ⟨r', hr', hfollows, hresults ▸ ha.skip (by rintro ⟨⟩)⟩
  | bound i =>
    have hin : i ∈ ordinalsOf (pre ++ [.bound i]) := by
      rw [ordinalsOf_append]
      exact List.mem_append_right _ List.mem_cons_self
    obtain ⟨l, hl, -⟩ := hs.literal (by rw [hcut, List.append_assoc]; rfl : s.commands.toList = pre ++ [.bound i] ++ post) hin
    obtain ⟨r', hr', hfollows, hresults⟩ := h.bound hb hl (hs.bound hcut)
    exact ⟨r', hr', hfollows, hresults ▸ ha.skip (by rintro ⟨⟩)⟩
  | push =>
    obtain ⟨r', hr', hfollows, hresults⟩ := h.push
    exact ⟨r', hr', hfollows, hresults ▸ ha.skip (by rintro ⟨⟩)⟩
  | pop =>
    obtain ⟨r', hr', hfollows, hresults⟩ := h.pop hb (hs.pop hcut)
    exact ⟨r', hr', hfollows, hresults ▸ ha.skip (by rintro ⟨⟩)⟩
  | check =>
    obtain ⟨result, r', hr', hfollows, hresults, hexact⟩ := h.check hs hcut
    refine ⟨r', hr', hfollows, ?_⟩
    rw [hresults, List.reverse_cons]
    exact ha.check hexact

theorem Follows.steps (h : r.Follows s pre) (ha : s.Answered pre r.results.reverse) (hs : s.WellFormed) {cs : List Command}
    (hcut : s.commands.toList = pre ++ (cs ++ post)) :
    ∃ r', cs.foldlM (Runner.step s) r = .ok r' ∧ r'.Follows s (pre ++ cs) ∧ s.Answered (pre ++ cs) r'.results.reverse := by
  -- `pre` is what has been run, and `Follows` the invariant that carries the induction over the rest.
  induction cs generalizing pre r with
  | nil => exact ⟨r, rfl, by rwa [List.append_nil], by rwa [List.append_nil]⟩
  | cons c cs ih =>
    obtain ⟨r₁, hr₁, hfollows, hanswered⟩ := h.step ha hs hcut
    obtain ⟨r', hr', hfollows', hanswered'⟩ := ih hfollows hanswered (by rw [hcut, List.append_assoc]; rfl)
    rw [List.append_assoc] at hfollows' hanswered'
    exact ⟨r', by rw [List.foldlM_cons, hr₁, ok_bind, hr'], hfollows', hanswered'⟩

/-- The commands before any point of a run succeed, and the state at that point follows them. -/
theorem follows_of_cut (hs : s.WellFormed) (settings : Settings) (hcut : s.commands.toList = pre ++ post) :
    ∃ r, pre.foldlM (Runner.step s) (start s settings) = .ok r ∧ r.Follows s pre ∧ s.Answered pre r.results.reverse :=
  (follows_start s settings).steps s.answered_nil hs hcut

theorem run_ok (hs : s.WellFormed) {cs : List Command} (hcut : s.commands.toList = pre ++ cs) (h : r.Follows s pre)
    (ha : s.Answered pre r.results.reverse) :
    ∃ r', cs.foldlM (Runner.step s) r = .ok r' ∧ s.Answered s.commands.toList r'.results.reverse := by
  have hcut' : s.commands.toList = pre ++ (cs ++ []) := by rw [hcut, List.append_nil]
  obtain ⟨r', hr', -, hanswered⟩ := h.steps ha hs hcut'
  exact ⟨r', hr', hcut ▸ hanswered⟩

end Runner

/-- A script that was read runs to its end under any settings, with an exact result for each of its checks. So whether the
    results are models or conflicts does not depend on the settings. -/
theorem Script.run_exact {s : Script} {lines : List (Option String)} (h : Script.ofLines lines = .ok s) :
    (∀ settings, ∃ results tally, s.run settings = .ok (results, tally) ∧ s.Answered s.commands.toList results) ∧
    ∀ settings settings' results results' tally tally', s.run settings = .ok (results, tally) →
      s.run settings' = .ok (results', tally') → results.map (·.isSat) = results'.map (·.isSat) := by
  have hs := Script.wellFormed_of_ofLines h
  have hrun : ∀ settings, ∃ results tally, s.run settings = .ok (results, tally) ∧
      s.Answered s.commands.toList results := by
    intro settings
    obtain ⟨r, hr, hanswered⟩ := Runner.run_ok hs rfl (Runner.follows_start s settings) s.answered_nil
    exact ⟨_, _, bind_eq_ok.mpr ⟨r, hr, rfl⟩, hanswered⟩
  refine ⟨hrun, fun settings settings' results results' tally tally' hr hr' => ?_⟩
  obtain ⟨rs, _, h₁, hanswered⟩ := hrun settings
  obtain ⟨rs', _, h₁', hanswered'⟩ := hrun settings'
  cases hr.symm.trans h₁
  cases hr'.symm.trans h₁'
  exact hanswered.isSat_eq hanswered'

/-- Two variables of which one is below one and the other at most one add up to two only after the scope of these bounds is
    closed. -/
theorem Script.run_exact_of_sum : ∃ s results tally,
    Script.ofLines [some "v x y sum", some "r sum x 1 y 1", some "b sum >= 2", some "push", some "b x < 1",
      some "b y <= 1", some "check", some "pop", some "check"] = .ok s ∧
      s.run .standard = .ok (results, tally) ∧ results.map (·.isSat) = [false, true] ∧
      s.Answered s.commands.toList results := by
  have hread : Script.ofLines [some "v x y sum", some "r sum x 1 y 1", some "b sum >= 2", some "push", some "b x < 1",
      some "b y <= 1", some "check", some "pop", some "check"] =
      .ok ⟨#["x", "y", "sum"], .ofList [("x", 0), ("y", 1), ("sum", 2)], #[⟨2, .ge, 2⟩, ⟨0, .lt, 1⟩, ⟨1, .le, 1⟩],
        #[.row 2 [(0, 1), (1, 1)], .bound 0, .push, .bound 1, .bound 2, .check, .pop, .check]⟩ := by decide +kernel
  obtain ⟨results, tally, hrun, hanswered⟩ := (Script.run_exact hread).1 .standard
  have hverdicts : (Script.run ⟨#["x", "y", "sum"], .ofList [("x", 0), ("y", 1), ("sum", 2)],
      #[⟨2, .ge, 2⟩, ⟨0, .lt, 1⟩, ⟨1, .le, 1⟩],
      #[.row 2 [(0, 1), (1, 1)], .bound 0, .push, .bound 1, .bound 2, .check, .pop, .check]⟩ .standard).toOption.map
      (fun p => p.1.map (·.isSat)) = some [false, true] := by decide +kernel
  rw [hrun] at hverdicts
  exact ⟨_, results, tally, hread, hrun, Option.some.inj hverdicts, hanswered⟩

end LinReal
