import LinReal.Proofs.Numeral
import LinReal.Proofs.Script.Reading

/-! Numbers in scripts. A word that stands where a number is due is read as the number that it denotes. If it denotes none, it is the
    mistake of its line, and the reading ends there; no other word is ever refused as a number. -/

namespace LinReal

namespace Reader

open Numeral (Denotes)

variable {r : Reader} {words : List String} {word name text : String} {basic : Var} {before rest : List (Option String)}

/-- A line has come to a word that is to be read as a number. -/
inductive Awaits (r : Reader) : List String → String → Prop where
  /-- The constant of a bound. -/
  | constant {name relation word : String} {x : Var} {rel : Relation} (hname : r.lookUp name = .ok x)
      (hrelation : Relation.read? relation = some rel) : Awaits r ["b", name, relation, word] word
  /-- A coefficient of a row, after terms that can be read. -/
  | coefficient {name y word : String} {before after : List String} {basic x : Var} {d : LinearForm}
      (hbefore : before.length % 2 = 0) (hafter : after.length % 2 = 0) (hname : r.lookUp name = .ok basic)
      (hfree : basic ∉ r.defined ∧ basic ∉ r.used) (hterms : r.terms basic name before = .ok d)
      (hvar : r.lookUp y = .ok x) (hne : x ≠ basic) : Awaits r ("r" :: name :: (before ++ y :: word :: after)) word

theorem terms_append : ∀ {before : List String} (after : List String), before.length % 2 = 0 →
    r.terms basic name (before ++ after) = do
      let d ← r.terms basic name before
      let e ← r.terms basic name after
      return d ++ e
  | [], after, _ => by
    simp only [List.nil_append, terms, ok_bind]
    cases r.terms basic name after <;> rfl
  | [_], _, h => by simp at h
  | y :: a :: before, after, h => by
    have heven : before.length % 2 = 0 := by
      rw [List.length_cons, List.length_cons] at h
      omega
    simp only [List.cons_append, terms]
    cases r.lookUp y with
    | error m => rfl
    | ok x =>
      simp only [ok_bind]
      split
      · rfl
      · rw [terms_append after heven]
        cases number a with
        | error m => rfl
        | ok q =>
          simp only [ok_bind]
          cases r.terms basic name before with
          | error m => rfl
          | ok d => cases r.terms basic name after <;> rfl

/-- A line goes on from the number that it has come to. -/
theorem Awaits.line_eq (h : r.Awaits words word) : ∃ go : Rat → Except Mistake Reader, r.line words = number word >>= go := by
  cases h with
  | constant hname hrelation => exact ⟨_, line_bound word hname hrelation⟩
  | @coefficient name y _ before after basic x d hbefore hafter hname hfree hterms hvar hne =>
    have heven : (before ++ y :: word :: after).length % 2 = 0 := by
      rw [List.length_append, List.length_cons, List.length_cons]
      omega
    rw [line_row (by simp) heven hname hfree.1 hfree.2, terms_append _ hbefore, hterms, terms, hvar]
    simp only [ok_bind, if_neg hne, bind_assoc]
    exact ⟨_, rfl⟩

theorem number_eq_ok {q : Rat} : number word = .ok q ↔ Denotes word.toList q := by
  rw [← Numeral.read?_eq_some_iff, number]
  cases Numeral.read? word <;> simp

theorem number_eq_error {m : Mistake} : number word = .error m ↔ m = .invalidNumber word ∧ ∀ q, ¬Denotes word.toList q := by
  simp only [← Numeral.read?_eq_some_iff, number]
  cases Numeral.read? word <;> simp [eq_comm]

/-! ### Invalid numbers -/

theorem lookUp_ne_invalid : r.lookUp name ≠ .error (.invalidNumber word) := by
  unfold lookUp
  split <;> simp

theorem declareAll_ne_invalid {names : List String} : names.foldlM declare r ≠ .error (.invalidNumber word) := by
  induction names generalizing r with
  | nil => exact fun h => by cases h
  | cons name names ih =>
    intro h
    rw [List.foldlM_cons] at h
    rcases bind_eq_error.mp h with h | ⟨r', -, h⟩
    · unfold declare at h
      split at h <;> cases h
    · exact ih h

/-- The first term with an invalid number, after terms that can be read. -/
theorem terms_invalid : ∀ {words : List String}, r.terms basic name words = .error (.invalidNumber word) →
    ∃ before y after x d, words = before ++ y :: word :: after ∧ before.length % 2 = 0 ∧ r.terms basic name before = .ok d ∧
      r.lookUp y = .ok x ∧ x ≠ basic ∧ ∀ q, ¬Denotes word.toList q
  | [], h => by cases h
  | [_], h => by cases h
  | y :: a :: rest, h => by
    rw [terms] at h
    rcases bind_eq_error.mp h with h | ⟨x, hx, h⟩
    · exact absurd h lookUp_ne_invalid
    split at h
    · cases h
    rename_i hne
    rcases bind_eq_error.mp h with h | ⟨q, hq, h⟩
    · obtain ⟨hm, hword⟩ := number_eq_error.mp h
      cases hm
      exact ⟨[], y, rest, x, [], rfl, rfl, rfl, hx, hne, hword⟩
    · rcases bind_eq_error.mp h with h | ⟨e, -, h⟩
      · obtain ⟨before, z, after, w, d, rfl, heven, hd, hw, hneq, hword⟩ := terms_invalid h
        refine ⟨y :: a :: before, z, after, w, (x, q) :: d, rfl, ?_, ?_, hw, hneq, hword⟩
        · rw [List.length_cons, List.length_cons]
          omega
        · simp only [terms, hx, hq, hd, ok_bind, if_neg hne]
          rfl
      · cases h

theorem row_invalid (h : r.row words = .error (.invalidNumber word)) :
    r.Awaits ("r" :: words) word ∧ ∀ q, ¬Denotes word.toList q := by
  unfold Reader.row at h
  split at h
  · cases h
  rename_i name words
  split at h
  · cases h
  rename_i hpairs
  have heven : words.length % 2 = 0 := by
    simp only [Bool.or_eq_true, not_or, decide_eq_true_eq, not_not] at hpairs
    exact hpairs.2
  rcases bind_eq_error.mp h with h | ⟨basic, hbasic, h⟩
  · exact absurd h lookUp_ne_invalid
  split at h
  · cases h
  rename_i hfree
  rcases bind_eq_error.mp h with h | ⟨d, -, h⟩
  · obtain ⟨before, y, after, x, d, rfl, hbefore, hd, hx, hne, hword⟩ := terms_invalid h
    have hafter : after.length % 2 = 0 := by
      rw [List.length_append, List.length_cons, List.length_cons] at heven
      omega
    exact ⟨.coefficient hbefore hafter hbasic (not_or.mp hfree) hd hx hne, hword⟩
  · cases h

theorem bound_invalid (h : r.bound words = .error (.invalidNumber word)) :
    r.Awaits ("b" :: words) word ∧ ∀ q, ¬Denotes word.toList q := by
  unfold Reader.bound at h
  split at h
  · rename_i name relation constant
    rcases bind_eq_error.mp h with h | ⟨x, hx, h⟩
    · exact absurd h lookUp_ne_invalid
    split at h
    · cases h
    rename_i rel hrel
    rcases bind_eq_error.mp h with h | ⟨q, -, h⟩
    · obtain ⟨hm, hword⟩ := number_eq_error.mp h
      cases hm
      exact ⟨.constant hx hrel, hword⟩
    · cases h
  · cases h

/-- A number is the mistake of a line exactly if the line has come to it and it is none. -/
theorem line_eq_invalid : r.line words = .error (.invalidNumber word) ↔
    r.Awaits words word ∧ ∀ q, ¬Denotes word.toList q := by
  constructor
  · intro h
    unfold line at h
    split at h
    · cases h
    · cases h
    · exact absurd h declareAll_ne_invalid
    · exact row_invalid h
    · exact bound_invalid h
    · cases h
    · split at h <;> cases h
    · cases h
    · cases h
  · rintro ⟨h, hword⟩
    obtain ⟨go, hgo⟩ := h.line_eq
    rw [hgo, number_eq_error.mpr ⟨rfl, hword⟩]
    rfl

/-- After lines without a mistake, the next line has an invalid number exactly if it has come to a word that denotes none. -/
theorem ofLines_eq_invalid (hbefore : start.lines 1 before = .ok r) :
    Script.ofLines (before ++ some text :: rest) = .error (.mistake (before.length + 1) (.invalidNumber word)) ↔
      r.Awaits (Text.words text) word ∧ ∀ q, ¬Denotes word.toList q := by
  rw [← line_eq_invalid, Script.ofLines, lines_append, hbefore, ok_bind, lines, Nat.add_comm 1 before.length]
  cases hline : r.line (Text.words text) with
  | error m => simp [Except.map]
  | ok r' =>
    -- A mistake in a line that comes later has a greater number.
    refine iff_of_false (fun h => ?_) (by simp)
    cases hlines : r'.lines (before.length + 1 + 1) rest with
    | ok r'' =>
      simp only [hlines] at h
      cases h
    | error e =>
      simp only [hlines] at h
      cases h
      exact Nat.not_succ_le_self _ (le_of_lines_eq_error hlines)

/-- Reading numbers is exact. A word is read as the number that it denotes. The mistake of a line is an invalid number exactly if the
    line comes to a word that denotes none. And every number is read back from what is written for it. -/
theorem number_exact (word : String) :
    (∀ q, number word = .ok q ↔ Denotes word.toList q) ∧
    (∀ m, number word = .error m ↔ m = .invalidNumber word ∧ ∀ q, ¬Denotes word.toList q) ∧
    (∀ before text rest r, start.lines 1 before = .ok r →
      (Script.ofLines (before ++ some text :: rest) = .error (.mistake (before.length + 1) (.invalidNumber word)) ↔
        r.Awaits (Text.words text) word ∧ ∀ q, ¬Denotes word.toList q)) ∧
    ∀ q, number (Numeral.write q) = .ok q :=
  ⟨fun _ => number_eq_ok, fun _ => number_eq_error, fun _ _ _ _ hbefore => ofLines_eq_invalid hbefore,
    fun q => number_eq_ok.mpr (Numeral.read?_eq_some_iff.mp (Numeral.read?_write q))⟩

/-- A minus sign alone makes a decimal negative, and a ratio of decimals is no number. -/
theorem number_exact_of_spellings :
    number "-.05" = .ok (-1 / 20) ∧
    Script.ofLines [some "v x", some "b x < 1/2.5"] = .error (.mistake 2 (.invalidNumber "1/2.5")) := by
  constructor
  · have hfrac : Numeral.Natural ['0', '5'] 5 := .place (.digit (by decide)) (by decide)
    have hvalue : (-1 / 20 : Rat) = Numeral.sign ['-'] * (|((0 : Int) : Rat)| + (5 : Nat) / 10 ^ ['0', '5'].length) := by
      decide +kernel
    have hdigits : ∀ c ∈ ['0', '5'], c.isDigit = true := by simp
    refine ((number_exact "-.05").1 (-1 / 20)).mpr ?_
    rw [hvalue]
    exact .decimal .minus hfrac hdigits
  · have hread : Numeral.read? "1/2.5" = none := by decide +kernel
    have hname : ({ start with script := ⟨#["x"], .ofList [("x", 0)], #[], #[]⟩ } : Reader).lookUp "x" = .ok 0 := by
      decide +kernel
    have hrelation : Relation.read? "<" = some .lt := rfl
    have hawaits : ({ start with script := ⟨#["x"], .ofList [("x", 0)], #[], #[]⟩ } : Reader).Awaits
        (Text.words "b x < 1/2.5") "1/2.5" := Awaits.constant hname hrelation
    refine ((number_exact "1/2.5").2.2.1 [some "v x"] "b x < 1/2.5" [] _ (by decide +kernel)).mpr ⟨hawaits, fun q hq => ?_⟩
    rw [← Numeral.read?_eq_some_iff, hread] at hq
    cases hq

end Reader

end LinReal
