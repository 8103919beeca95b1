import LinReal.Script.Read
import LinReal.Proofs.Traversal
import LinReal.Proofs.Script.Commands

/-! What reading guarantees. A script that was read has an index in step with its names, mentions declared variables only,
    numbers its bounds in their order, closes no scope that it has not opened, and defines a variable by a row only if no
    row before has defined or used it. Each line keeps these properties. -/

namespace LinReal

open Command

/-- The properties of a script that running it relies on. -/
structure Script.WellFormed (s : Script) : Prop where
  ordinals : ordinalsOf s.commands.toList = List.range s.literals.size
  literals : ∀ l ∈ s.literals.toList, l.var < s.variableCount
  matched : Matched s.commands.toList
  declared : ∀ p ∈ s.rows, p.1 < s.variableCount ∧ ∀ y ∈ p.2.vars, y < s.variableCount
  irreflexive : ∀ p ∈ s.rows, p.1 ∉ p.2.vars
  fresh : s.rows.Pairwise fun p q => q.1 ≠ p.1 ∧ q.1 ∉ p.2.vars

theorem Script.rows_eq (s : Script) : s.rows = rowsOf s.commands.toList := rfl

/-- The script with one more bound. -/
def Script.withBound (s : Script) (l : Literal) : Script :=
  { s with literals := s.literals.push l, commands := s.commands.push (.bound s.literals.size) }

/-! ### Names and the index -/

/-- The index is in step with the names: it has each variable under its name, and nothing else. -/
def Script.Indexed (s : Script) : Prop := ∀ name x, s.varNamed? name = some x ↔ s.names[x]? = some name

namespace Script.Indexed

variable {s : Script} {x : Var} {name : String}

theorem lt_of_varNamed? (h : s.Indexed) (hx : s.varNamed? name = some x) : x < s.variableCount :=
  (Array.getElem?_eq_some_iff.mp ((h name x).mp hx)).1

/-- A name that is not taken yet leads to the new variable; the others lead where they led. -/
theorem withVariable (h : s.Indexed) (hname : s.index.contains name = false) : (s.withVariable name).Indexed := by
  have hnone : s.index[name]? = none := Std.ExtTreeMap.getElem?_eq_none_of_contains_eq_false hname
  intro other x
  show (s.index.insert name s.names.size)[other]? = some x ↔ (s.names.push name)[x]? = some other
  have hold : s.index[other]? = some x ↔ s.names[x]? = some other := h other x
  rw [Std.ExtTreeMap.getElem?_insert, Array.getElem?_push]
  by_cases hsame : name = other
  · subst hsame
    by_cases hlast : x = s.names.size
    · simp [hlast]
    · simp [hlast, Ne.symm hlast, ← hold, hnone]
  · by_cases hlast : x = s.names.size
    · subst hlast
      simp [hsame, hold]
    · simp [hsame, hlast, hold]

end Script.Indexed

/-! ### Commands of well-formed scripts -/

namespace Script.WellFormed

variable {s : Script} {pre post : List Command} {c : Command} {x : Var} {d : LinearForm} {i : Nat}

theorem matched_left (h : s.WellFormed) (hs : s.commands.toList = pre ++ post) : Matched pre :=
  Matched.left (hs ▸ h.matched)

theorem rows_take (hs : s.commands.toList = pre ++ post) : s.rows.take (rowsOf pre).length = rowsOf pre := by
  rw [Script.rows_eq, hs, rowsOf_append, List.take_left]

theorem row (h : s.WellFormed) (hs : s.commands.toList = pre ++ .row x d :: post) :
    ¬Mentions (rowsOf pre) x ∧ x ∉ d.vars := by
  have hrows : s.rows = rowsOf pre ++ (x, d) :: rowsOf post := by
    rw [Script.rows_eq, hs, rowsOf_append]
    rfl
  constructor
  · rintro ⟨p, hp, hx⟩
    have hfresh := h.fresh
    rw [hrows, List.pairwise_append] at hfresh
    obtain ⟨hne, hnot⟩ := hfresh.2.2 p hp (x, d) List.mem_cons_self
    exact hx.elim hne hnot
  · refine h.irreflexive (x, d) ?_
    rw [hrows]
    exact List.mem_append_right _ List.mem_cons_self

theorem exists_literal (h : s.WellFormed) (hi : i < s.literals.size) :
    ∃ l, s.literals[i]? = some l ∧ l.var < s.variableCount :=
  ⟨s.literals[i], Array.getElem?_eq_getElem hi, h.literals _ (Array.getElem_mem_toList hi)⟩

/-- The ordinals of bounds are those of literals, and a bound is about a declared variable. -/
theorem literal (h : s.WellFormed) (hs : s.commands.toList = pre ++ post) (hi : i ∈ ordinalsOf pre) :
    ∃ l, s.literals[i]? = some l ∧ l.var < s.variableCount := by
  have hin : i ∈ ordinalsOf s.commands.toList := by
    rw [hs, ordinalsOf_append]
    exact List.mem_append_left _ hi
  rw [h.ordinals, List.mem_range] at hin
  exact h.exists_literal hin

theorem bound (h : s.WellFormed) (hs : s.commands.toList = pre ++ .bound i :: post) : i ∉ ordinalsOf pre := by
  have hnodup : (ordinalsOf pre ++ i :: ordinalsOf post).Nodup := by
    have hords : ordinalsOf s.commands.toList = ordinalsOf pre ++ i :: ordinalsOf post := by
      rw [hs, ordinalsOf_append]
      rfl
    rw [← hords, h.ordinals]
    exact List.nodup_range
  exact fun hi => (List.nodup_append.mp hnodup).2.2 i hi i List.mem_cons_self rfl

theorem pop (h : s.WellFormed) (hs : s.commands.toList = pre ++ .pop :: post) : 0 < opened pre := by
  have hcut : s.commands.toList = pre ++ [.pop] ++ post := by
    rw [hs, List.append_assoc]
    rfl
  exact (h.matched_left hcut).opened_pos

end Script.WellFormed

/-! ### Reading -/

namespace Reader

variable {r r' : Reader} {x basic : Var} {name : String} {d : LinearForm}

/-- What holds of the lines that have been read. -/
structure Good (r : Reader) : Prop where
  script : r.script.WellFormed
  indexed : r.script.Indexed
  depth : r.depth = opened r.script.commands.toList
  defined : ∀ p ∈ r.script.rows, p.1 ∈ r.defined
  used : ∀ p ∈ r.script.rows, ∀ y ∈ p.2.vars, y ∈ r.used

theorem good_start : start.Good := by
  have hrows : start.script.rows = [] := rfl
  refine ⟨⟨rfl, ?_, rfl, ?_, ?_, ?_⟩, ?_, rfl, ?_, ?_⟩
  · exact fun l hl => by cases hl
  · exact fun p hp => by cases hp
  · exact fun p hp => by cases hp
  · exact List.Pairwise.nil
  · exact fun name x => by simp [start, Script.empty, Script.varNamed?]
  · exact fun p hp => by cases hp
  · exact fun p hp => by cases hp

theorem lookUp_eq_ok (hr : r.script.Indexed) (h : r.lookUp name = .ok x) : x < r.script.variableCount := by
  unfold lookUp at h
  split at h
  · rename_i y hy
    obtain rfl := Except.ok.inj h
    exact hr.lt_of_varNamed? hy
  · cases h

theorem terms_eq_ok (hr : r.script.Indexed) : ∀ {words : List String} {d : LinearForm}, r.terms basic name words = .ok d →
    ∀ y ∈ d.vars, y ≠ basic ∧ y < r.script.variableCount
  | [], _, h => by
    cases h
    exact fun y hy => by cases hy
  | [_], _, h => by
    cases h
    exact fun y hy => by cases hy
  | w :: a :: rest, d, h => by
    rw [terms] at h
    obtain ⟨x, hx, h⟩ := bind_eq_ok.mp h
    split at h
    · cases h
    · rename_i hne
      obtain ⟨q, -, h⟩ := bind_eq_ok.mp h
      obtain ⟨f, hf, h⟩ := bind_eq_ok.mp h
      cases h
      intro y hy
      rcases List.mem_cons.mp hy with rfl | hy
      · exact ⟨hne, lookUp_eq_ok hr hx⟩
      · exact terms_eq_ok hr hf y hy

/-! ### Rows and bounds -/

/-- A line that asserts a bound, up to its constant. -/
theorem line_bound {relation : String} {rel : Relation} (word : String) (hname : r.lookUp name = .ok x)
    (hrelation : Relation.read? relation = some rel) : r.line ["b", name, relation, word] = (do
      let q ← number word
      return { r with script := r.script.withBound ⟨x, rel, q⟩ }) := by
  simp only [line, bound, hname, hrelation, ok_bind]
  rfl

/-- A line that defines a variable by a row, up to its terms. -/
theorem line_row {words : List String} (hne : words ≠ []) (heven : words.length % 2 = 0) (hname : r.lookUp name = .ok basic)
    (hdefined : basic ∉ r.defined) (hused : basic ∉ r.used) : r.line ("r" :: name :: words) = (do
      let d ← r.terms basic name words
      return { r.command (.row basic d) with defined := basic :: r.defined, used := d.vars ++ r.used }) := by
  simp [line, row, hne, heven, hname, hdefined, hused, ok_bind]

/-- What a row that was read consists of. -/
theorem row_inv {words : List String} (hr : r.row words = .ok r') : ∃ name terms basic d, words = name :: terms ∧
    r.lookUp name = .ok basic ∧ basic ∉ r.defined ∧ basic ∉ r.used ∧ r.terms basic name terms = .ok d ∧
    r' = { r.command (.row basic d) with defined := basic :: r.defined, used := d.vars ++ r.used } := by
  unfold Reader.row at hr
  split at hr
  · cases hr
  · rename_i name terms
    split at hr
    · cases hr
    · obtain ⟨basic, hbasic, hr⟩ := bind_eq_ok.mp hr
      split at hr
      · cases hr
      · rename_i hfree
        obtain ⟨hdefined, hused⟩ := not_or.mp hfree
        obtain ⟨d, hd, hr⟩ := bind_eq_ok.mp hr
        cases hr
        exact ⟨name, terms, basic, d, rfl, hbasic, hdefined, hused, hd, rfl⟩

/-- What a bound that was read consists of. -/
theorem bound_inv {words : List String} (hr : r.bound words = .ok r') : ∃ name relation constant x rel q,
    words = [name, relation, constant] ∧ r.lookUp name = .ok x ∧ Relation.read? relation = some rel ∧
    number constant = .ok q ∧ r' = { r with script := r.script.withBound ⟨x, rel, q⟩ } := by
  unfold Reader.bound at hr
  split at hr
  · rename_i name relation constant
    obtain ⟨x, hx, hr⟩ := bind_eq_ok.mp hr
    split at hr
    · cases hr
    · rename_i rel hrel
      obtain ⟨q, hq, hr⟩ := bind_eq_ok.mp hr
      cases hr
      exact ⟨name, relation, constant, x, rel, q, rfl, hx, hrel, hq, rfl⟩
  · cases hr

/-! ### Lines -/

theorem toList_command (r : Reader) (c : Command) :
    (r.command c).script.commands.toList = r.script.commands.toList ++ [c] := Array.toList_push

/-- A command that is neither a row nor a bound, added to a script that was read so far. -/
theorem Good.command (h : r.Good) {c : Command} (hrow : rowsOf [c] = []) (hord : ordinalsOf [c] = [])
    (hmatched : Matched (r.script.commands.toList ++ [c])) {n : Nat}
    (hn : n = opened (r.script.commands.toList ++ [c])) : ({ r.command c with depth := n } : Reader).Good := by
  have hlist := toList_command r c
  have hrows : (r.command c).script.rows = r.script.rows := by
    rw [Script.rows_eq, hlist, rowsOf_append, hrow, List.append_nil, Script.rows_eq]
  refine ⟨⟨?_, h.script.literals, hlist ▸ hmatched, ?_, ?_, ?_⟩, h.indexed, hn.trans (congrArg opened hlist.symm), ?_, ?_⟩
  · show ordinalsOf (r.command c).script.commands.toList = _
    rw [hlist, ordinalsOf_append, hord, List.append_nil]
    exact h.script.ordinals
  · exact fun p hp => h.script.declared p (hrows ▸ hp)
  · exact fun p hp => h.script.irreflexive p (hrows ▸ hp)
  · exact hrows.symm ▸ h.script.fresh
  · exact fun p hp => h.defined p (hrows ▸ hp)
  · exact fun p hp => h.used p (hrows ▸ hp)

theorem Good.declare (h : r.Good) (hr : r.declare name = .ok r') : r'.Good := by
  unfold Reader.declare at hr
  split at hr
  · cases hr
  · rename_i hname
    cases hr
    have hindexed := h.indexed.withVariable (Bool.eq_false_iff.mpr hname)
    have hcount : (r.script.withVariable name).variableCount = r.script.variableCount + 1 := Array.size_push _
    refine ⟨⟨h.script.ordinals, fun l hl => ?_, h.script.matched, fun p hp => ?_, h.script.irreflexive, h.script.fresh⟩,
      hindexed, h.depth, h.defined, h.used⟩
    · rw [hcount]
      exact Nat.lt_succ_of_lt (h.script.literals l hl)
    · rw [hcount]
      obtain ⟨hp, hy⟩ := h.script.declared p hp
      exact ⟨Nat.lt_succ_of_lt hp, fun y hyv => Nat.lt_succ_of_lt (hy y hyv)⟩

theorem Good.declareAll (h : r.Good) {names : List String} (hr : names.foldlM Reader.declare r = .ok r') : r'.Good := by
  induction names generalizing r with
  | nil =>
    cases hr
    exact h
  | cons name names ih =>
    rw [List.foldlM_cons] at hr
    obtain ⟨r₁, h₁, hr⟩ := bind_eq_ok.mp hr
    exact ih (h.declare h₁) hr

theorem Good.row (h : r.Good) {words : List String} (hr : r.row words = .ok r') : r'.Good := by
  obtain ⟨name, words, basic, d, rfl, hbasic, hdefined, hused, hd, rfl⟩ := row_inv hr
  have hlist := toList_command r (.row basic d)
  have hterms := terms_eq_ok h.indexed hd
  have hrows : (r.command (.row basic d)).script.rows = r.script.rows ++ [(basic, d)] := by
    rw [Script.rows_eq, hlist, rowsOf_append, Script.rows_eq]
    rfl
  have hcases : ∀ p ∈ (r.command (.row basic d)).script.rows, p ∈ r.script.rows ∨ p = (basic, d) := by
    intro p hp
    rw [hrows, List.mem_append, List.mem_singleton] at hp
    exact hp
  refine ⟨⟨?_, h.script.literals, ?_, fun p hp => ?_, fun p hp => ?_, ?_⟩, h.indexed, ?_, fun p hp => ?_,
    fun p hp y hy => ?_⟩
  · show ordinalsOf (r.command (.row basic d)).script.commands.toList = _
    rw [hlist, ordinalsOf_append]
    exact (List.append_nil _).trans h.script.ordinals
  · show Matched (r.command (.row basic d)).script.commands.toList
    have hb := h.script.matched
    rw [Matched] at hb
    rw [hlist, Matched, closed_append, hb]
    simp [closed]
  · rcases hcases p hp with hp | rfl
    · exact h.script.declared p hp
    · exact ⟨lookUp_eq_ok h.indexed hbasic, fun y hy => (hterms y hy).2⟩
  · rcases hcases p hp with hp | rfl
    · exact h.script.irreflexive p hp
    · exact fun hin => (hterms basic hin).1 rfl
  · show List.Pairwise _ (r.command (.row basic d)).script.rows
    rw [hrows, List.pairwise_append]
    refine ⟨h.script.fresh, List.pairwise_singleton _ _, fun p hp q hq => ?_⟩
    obtain rfl := List.mem_singleton.mp hq
    refine ⟨fun he => hdefined ?_, fun hin => hused (h.used p hp basic hin)⟩
    have hmem := h.defined p hp
    rw [← he] at hmem
    exact hmem
  · show r.depth = opened (r.command (.row basic d)).script.commands.toList
    rw [hlist, opened_append, h.depth]
    simp [opened, closed]
  · rcases hcases p hp with hp | rfl
    · exact List.mem_cons_of_mem _ (h.defined p hp)
    · exact List.mem_cons_self
  · rcases hcases p hp with hp | rfl
    · exact List.mem_append_right _ (h.used p hp y hy)
    · exact List.mem_append_left _ hy

theorem Good.bound (h : r.Good) {words : List String} (hr : r.bound words = .ok r') : r'.Good := by
  obtain ⟨name, relation, constant, x, rel, q, rfl, hx, -, -, rfl⟩ := bound_inv hr
  have hsize : (r.script.literals.push ⟨x, rel, q⟩).size = r.script.literals.size + 1 := Array.size_push _
  have hlist : (r.script.commands.push (.bound r.script.literals.size)).toList =
      r.script.commands.toList ++ [.bound r.script.literals.size] := Array.toList_push
  have hrows : rowsOf (r.script.commands.push (.bound r.script.literals.size)).toList = r.script.rows := by
    rw [hlist, rowsOf_append]
    exact List.append_nil _
  refine ⟨⟨?_, fun l hl => ?_, ?_, ?_, ?_, ?_⟩, h.indexed, ?_, ?_, ?_⟩
  · show ordinalsOf (r.script.commands.push (.bound r.script.literals.size)).toList =
      List.range (r.script.literals.push ⟨x, rel, q⟩).size
    rw [hlist, ordinalsOf_append, h.script.ordinals, hsize, List.range_succ]
    rfl
  · have hl' : l ∈ r.script.literals.toList ++ [⟨x, rel, q⟩] := by
      rw [← Array.toList_push]
      exact hl
    rcases List.mem_append.mp hl' with hl' | hl'
    · exact h.script.literals l hl'
    · rw [List.mem_singleton.mp hl']
      exact lookUp_eq_ok h.indexed hx
  · show Matched (r.script.commands.push (.bound r.script.literals.size)).toList
    have hb := h.script.matched
    rw [Matched] at hb
    rw [hlist, Matched, closed_append, hb]
    simp [closed]
  · exact fun p hp => h.script.declared p (hrows ▸ hp)
  · exact fun p hp => h.script.irreflexive p (hrows ▸ hp)
  · show (rowsOf (r.script.commands.push (.bound r.script.literals.size)).toList).Pairwise _
    rw [hrows]
    exact h.script.fresh
  · show r.depth = opened (r.script.commands.push (.bound r.script.literals.size)).toList
    rw [hlist, opened_append, h.depth]
    simp [opened, closed]
  · exact fun p hp => h.defined p (hrows ▸ hp)
  · exact fun p hp => h.used p (hrows ▸ hp)

theorem Good.line (h : r.Good) {words : List String} (hr : r.line words = .ok r') : r'.Good := by
  have hb := h.script.matched
  rw [Matched] at hb
  unfold Reader.line at hr
  split at hr
  · cases hr
    exact h
  · cases hr
    exact h
  · exact h.declareAll hr
  · exact h.row hr
  · exact h.bound hr
  · cases hr
    refine h.command rfl rfl ?_ ?_
    · rw [Matched, closed_append, hb]
      simp [closed]
    · rw [opened_append, h.depth]
      simp [opened, closed, Nat.add_comm]
  · split at hr
    · cases hr
    · rename_i hd
      cases hr
      rw [h.depth] at hd
      refine h.command rfl rfl ?_ ?_
      · rw [Matched, closed_append, hb]
        simp only [closed]
        omega
      · rw [opened_append, h.depth]
        simp [opened, closed]
  · cases hr
    refine h.command rfl rfl ?_ ?_
    · rw [Matched, closed_append, hb]
      simp [closed]
    · show r.depth = _
      rw [opened_append, h.depth]
      simp [opened, closed]
  · cases hr

/-- Lines are read after the lines before them, from which their numbers go on. -/
theorem lines_append (r : Reader) (number : Nat) (texts more : List (Option String)) :
    r.lines number (texts ++ more) = r.lines number texts >>= fun r' => r'.lines (number + texts.length) more := by
  induction texts generalizing r number with
  | nil => rfl
  | cons text texts ih =>
    cases text with
    | none => rfl
    | some text =>
      simp only [List.cons_append, Reader.lines]
      cases r.line (Text.words text) with
      | error m => rfl
      | ok r₁ =>
        have hnumber : number + (texts.length + 1) = number + 1 + texts.length := by omega
        rw [List.length_cons, hnumber]
        exact ih r₁ (number + 1)

/-- No line before the first one that is read has a mistake. -/
theorem le_of_lines_eq_error {number k : Nat} {texts : List (Option String)} {m : Mistake}
    (h : r.lines number texts = .error (.mistake k m)) : number ≤ k := by
  induction texts generalizing r number with
  | nil => cases h
  | cons text texts ih =>
    cases text with
    | none => cases h
    | some text =>
      rw [Reader.lines] at h
      split at h
      · exact Nat.le_of_succ_le (ih h)
      · cases h
        exact Nat.le_refl k

/-- What every line keeps a whole reading keeps. -/
theorem lines_invariant {P : Reader → Prop} (hP : ∀ {r r' : Reader} {text : String}, P r →
    r.line (Text.words text) = .ok r' → P r') {number : Nat} {texts : List (Option String)} (h : P r)
    (hr : r.lines number texts = .ok r') : P r' := by
  induction texts generalizing r number with
  | nil =>
    cases hr
    exact h
  | cons text texts ih =>
    cases text with
    | none => cases hr
    | some text =>
      rw [Reader.lines] at hr
      split at hr
      · rename_i r₁ h₁
        exact ih (hP h h₁) hr
      · cases hr

theorem Good.lines (h : r.Good) {number : Nat} {texts : List (Option String)} (hr : r.lines number texts = .ok r') :
    r'.Good := lines_invariant (fun hgood hline => hgood.line hline) h hr

end Reader

theorem Script.ofLines_eq_ok {s : Script} {lines : List (Option String)} :
    Script.ofLines lines = .ok s ↔ ∃ r, Reader.start.lines 1 lines = .ok r ∧ r.script = s := by
  rw [Script.ofLines]
  cases Reader.start.lines 1 lines <;> simp [Except.map]

/-- A script that was read is well formed. -/
theorem Script.wellFormed_of_ofLines {s : Script} {lines : List (Option String)} (h : Script.ofLines lines = .ok s) :
    s.WellFormed := by
  obtain ⟨r, hr, rfl⟩ := Script.ofLines_eq_ok.mp h
  exact (Reader.good_start.lines hr).script

/-- The index of a script that was read is in step with its names. -/
theorem Script.indexed_of_ofLines {s : Script} {lines : List (Option String)} (h : Script.ofLines lines = .ok s) :
    s.Indexed := by
  obtain ⟨r, hr, rfl⟩ := Script.ofLines_eq_ok.mp h
  exact (Reader.good_start.lines hr).indexed

end LinReal
