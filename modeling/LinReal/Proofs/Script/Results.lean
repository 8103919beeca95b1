import LinReal.Proofs.Script.Commands
import LinReal.Proofs.Script.Limits

/-! Results of checks. A result is exact if it says what the rows and the bounds before its check allow. Whether such a
    result is a model or a conflict is settled by the commands alone, so exact results of the same commands agree. -/

namespace LinReal

open Command

variable {s : Script} {pre cs : List Command} {c : Command} {r r' : CheckResult} {rs rs' : List CheckResult} {k : Nat}
  {is js : List Nat} {v v' : Var → Rat} {ds : List (Var × LinearForm)}

theorem Script.Solves.mono (h : s.Solves ds is v) (hsub : ∀ i ∈ js, i ∈ is) : s.Solves ds js v :=
  ⟨h.1, fun i hi => h.2 i (hsub i hi)⟩

theorem Script.Solves.congr (h : s.Solves ds is v) {n : Nat} (hv : ∀ x < n, v' x = v x)
    (hds : ∀ p ∈ ds, p.1 < n ∧ ∀ y ∈ p.2.vars, y < n) (his : ∀ i ∈ is, ∃ l, s.literals[i]? = some l ∧ l.var < n) :
    s.Solves ds is v' := by
  refine ⟨fun p hp => ?_, fun i hi l hl => ?_⟩
  · obtain ⟨hlt, hvars⟩ := hds p hp
    rw [hv p.1 hlt, h.1 p hp]
    exact LinearForm.eval_congr fun y hy => (hv y (hvars y hy)).symm
  · obtain ⟨l', hl', hlt⟩ := his i hi
    obtain rfl := Option.some.inj (hl.symm.trans hl')
    exact (Literal.holds_congr (hv l.var hlt)).mpr (h.2 i hi l hl)

/-- The result of a check after some commands is exact: it names the bounds in force and the number of rows, and it is a
    model exactly if rows and bounds have a solution. The values of a model are one, and the bounds of a conflict contradict
    the rows on their own. -/
structure CheckResult.Exact (s : Script) (pre : List Command) (r : CheckResult) : Prop where
  active : r.active = Command.active pre
  present : ∀ i ∈ r.active, i < s.literals.size
  rows : r.rows = (rowsOf pre).length
  isSat_iff : r.isSat = true ↔ ∃ v, s.Solves (s.rows.take r.rows) r.active v
  model : ∀ m, r.verdict = .sat m →
    m.values.length = s.variableCount ∧ s.Solves (s.rows.take r.rows) r.active fun x => m.values[x]?.getD 0
  conflict : ∀ c, r.verdict = .unsat c → c.tokens ≠ [] ∧ c.tokens.Nodup ∧ (∀ t ∈ c.tokens, t ∈ r.active) ∧
    ¬∃ v, s.Solves (s.rows.take r.rows) c.tokens v

theorem CheckResult.Exact.isSat_eq (h : r.Exact s pre) (h' : r'.Exact s pre) : r.isSat = r'.isSat := by
  rw [Bool.eq_iff_iff, h.isSat_iff, h'.isSat_iff, h.rows, h'.rows, h.active, h'.active]

/-- There is one result for each check of the commands, and it is exact for the commands before the check. -/
structure Script.Answered (s : Script) (cs : List Command) (rs : List CheckResult) : Prop where
  count : rs.length = cs.count .check
  exact : ∀ pre post, cs = pre ++ .check :: post → ∃ r, rs[pre.count .check]? = some r ∧ r.Exact s pre

namespace Script

theorem answered_nil (s : Script) : s.Answered [] [] := by
  refine ⟨rfl, fun pre post h => ?_⟩
  cases pre <;> cases h

/-- A list that ends with `c` is cut before a check either in front of `c` or inside of what comes before it. -/
theorem cut_cases {post : List Command} (h : cs ++ [c] = pre ++ .check :: post) :
    (post = [] ∧ c = .check ∧ cs = pre) ∨ ∃ post', cs = pre ++ .check :: post' := by
  rcases List.eq_nil_or_concat post with rfl | ⟨post', d, rfl⟩
  · obtain ⟨hcs, hc⟩ := List.append_inj' h rfl
    exact Or.inl ⟨rfl, (List.cons.inj hc).1, hcs⟩
  · rw [List.concat_eq_append, ← List.cons_append, ← List.append_assoc] at h
    exact Or.inr ⟨post', (List.append_inj' h rfl).1⟩

theorem Answered.skip (h : s.Answered cs rs) (hc : c ≠ .check) : s.Answered (cs ++ [c]) rs := by
  refine ⟨?_, fun pre post hcut => ?_⟩
  · rw [h.count, List.count_append, List.count_singleton, if_neg (by simpa using hc), Nat.add_zero]
  · rcases cut_cases hcut with ⟨-, rfl, -⟩ | ⟨post', hcut⟩
    · exact absurd rfl hc
    · exact h.exact pre post' hcut

theorem Answered.check (h : s.Answered cs rs) (hr : r.Exact s cs) : s.Answered (cs ++ [.check]) (rs ++ [r]) := by
  refine ⟨?_, fun pre post hcut => ?_⟩
  · rw [List.length_append, h.count, List.count_append]
    rfl
  · rcases cut_cases hcut with ⟨-, -, rfl⟩ | ⟨post', hcut⟩
    · exact ⟨r, by rw [← h.count, List.getElem?_concat_length], hr⟩
    · obtain ⟨r', hr', hexact⟩ := h.exact pre post' hcut
      exact ⟨r', List.getElem?_append_left (List.getElem?_eq_some_iff.mp hr').1 ▸ hr', hexact⟩

theorem exists_cut (h : k < cs.count .check) : ∃ pre post, cs = pre ++ .check :: post ∧ pre.count .check = k := by
  induction cs generalizing k with
  | nil => cases h
  | cons c cs ih =>
    rw [List.count_cons] at h
    by_cases hc : c = .check
    · subst hc
      cases k with
      | zero => exact ⟨[], cs, rfl, rfl⟩
      | succ k =>
        obtain ⟨pre, post, rfl, hk⟩ := ih (by simpa using h)
        exact ⟨.check :: pre, post, rfl, by rw [List.count_cons_self, hk]⟩
    · obtain ⟨pre, post, rfl, hk⟩ := ih (by simpa [hc] using h)
      exact ⟨c :: pre, post, rfl, by rw [List.count_cons_of_ne hc, hk]⟩

theorem Answered.exact_of_mem (h : s.Answered cs rs) (hr : r ∈ rs) : ∃ pre post, cs = pre ++ .check :: post ∧ r.Exact s pre := by
  obtain ⟨k, hk, hget⟩ := List.mem_iff_getElem.mp hr
  obtain ⟨pre, post, hcut, hcount⟩ := exists_cut (h.count ▸ hk)
  obtain ⟨r', hr', hexact⟩ := h.exact pre post hcut
  rw [hcount, List.getElem?_eq_getElem hk, hget] at hr'
  exact ⟨pre, post, hcut, Option.some.inj hr' ▸ hexact⟩

theorem Answered.isSat_eq (h : s.Answered cs rs) (h' : s.Answered cs rs') : rs.map (·.isSat) = rs'.map (·.isSat) := by
  refine List.ext_getElem? fun k => ?_
  rw [List.getElem?_map, List.getElem?_map]
  by_cases hk : k < cs.count .check
  · obtain ⟨pre, post, hcut, rfl⟩ := exists_cut hk
    obtain ⟨r, hr, hexact⟩ := h.exact pre post hcut
    obtain ⟨r', hr', hexact'⟩ := h'.exact pre post hcut
    rw [hr, hr', Option.map_some, Option.map_some, hexact.isSat_eq hexact']
  · rw [List.getElem?_eq_none (by rw [h.count]; exact Nat.not_lt.mp hk),
      List.getElem?_eq_none (by rw [h'.count]; exact Nat.not_lt.mp hk)]

end Script

end LinReal
