import LinReal.Numeral
import LinReal.Proofs.Text
import Mathlib.Algebra.Order.Field.Rat
import Mathlib.Data.List.Induction
import Mathlib.Data.Rat.Lemmas
import Mathlib.Tactic.FieldSimp
import Mathlib.Tactic.Ring

/-! The grammar of numerals. It says place by place what a numeral is and which number it denotes, without reference to how it is
    read. A numeral is read as the number that it denotes, and nothing else is read. -/

namespace LinReal.Numeral

variable {c : Char} {cs whole frac l r : List Char} {n : Nat} {i : Int} {q : Rat}

/-- The number that a digit stands for. -/
def digitValue (c : Char) : Nat := c.toNat - '0'.toNat

/-- A digit, then digits and underscores. A digit more is a place more, an underscore more is not. -/
inductive Natural : List Char → Nat → Prop where
  | digit {c : Char} (hc : c.isDigit = true) : Natural [c] (digitValue c)
  | place {cs : List Char} {n : Nat} {c : Char} (h : Natural cs n) (hc : c.isDigit = true) :
      Natural (cs ++ [c]) (10 * n + digitValue c)
  | underscore {cs : List Char} {n : Nat} (h : Natural cs n) : Natural (cs ++ ['_']) n

/-- A natural number with at most one sign in front. -/
inductive Integer : List Char → Int → Prop where
  | unsigned {cs : List Char} {n : Nat} (h : Natural cs n) : Integer cs n
  | positive {cs : List Char} {n : Nat} (h : Natural cs n) : Integer ('+' :: cs) n
  | negative {cs : List Char} {n : Nat} (h : Natural cs n) : Integer ('-' :: cs) (-n)

/-- What stands before the point of a decimal. -/
inductive WholePart : List Char → Int → Prop where
  | empty : WholePart [] 0
  | plus : WholePart ['+'] 0
  | minus : WholePart ['-'] 0
  | integer {cs : List Char} {n : Int} (h : Integer cs n) : WholePart cs n

/-- The sign of a decimal with this whole part, whose value may be zero. -/
def sign (whole : List Char) : Rat := if whole.head? = some '-' then -1 else 1

/-- The numerals with the numbers that they denote. -/
inductive Denotes : List Char → Rat → Prop where
  | integer {cs : List Char} {n : Int} (h : Integer cs n) : Denotes cs n
  | ratio {l r : List Char} {n d : Int} (hl : Integer l n) (hr : Integer r d) (hd : d ≠ 0) :
      Denotes (l ++ '/' :: r) (n / d)
  | decimal {whole frac : List Char} {n : Int} {f : Nat} (hwhole : WholePart whole n) (hfrac : Natural frac f)
      (hdigits : ∀ c ∈ frac, c.isDigit = true) :
      Denotes (whole ++ '.' :: frac) (sign whole * (|(n : Rat)| + f / 10 ^ frac.length))

/-! ### Natural numbers -/

theorem digitsValue_place (cs : List Char) (hc : c.isDigit = true) :
    digitsValue (cs ++ [c]) = 10 * digitsValue cs + digitValue c := by
  have hne : c ≠ '_' := by
    rintro rfl
    cases hc
  simp [digitsValue, Nat.ofDigitChars, digitValue, hne]

theorem digitsValue_singleton (hc : c.isDigit = true) : digitsValue [c] = digitValue c :=
  (digitsValue_place [] hc).trans (Nat.zero_add _)

theorem digitsValue_underscore (cs : List Char) : digitsValue (cs ++ ['_']) = digitsValue cs := by
  simp [digitsValue]

/-- A digit stands first, and digits or underscores after it. -/
def Shaped (cs : List Char) : Prop := ∃ c ds, cs = c :: ds ∧ c.isDigit = true ∧ ∀ d ∈ ds, d.isDigit = true ∨ d = '_'

theorem Shaped.concat (h : Shaped cs) (hc : c.isDigit = true ∨ c = '_') : Shaped (cs ++ [c]) := by
  obtain ⟨first, ds, rfl, hfirst, hds⟩ := h
  exact ⟨first, ds ++ [c], rfl, hfirst, List.forall_mem_append.mpr ⟨hds, List.forall_mem_singleton.mpr hc⟩⟩

theorem shaped_of_digits (hne : cs ≠ []) (h : ∀ c ∈ cs, c.isDigit = true) : Shaped cs := by
  obtain ⟨c, ds, rfl⟩ := List.exists_cons_of_ne_nil hne
  obtain ⟨hc, hds⟩ := List.forall_mem_cons.mp h
  exact ⟨c, ds, rfl, hc, fun d hd => Or.inl (hds d hd)⟩

theorem Shaped.ne_nil (h : Shaped cs) : cs ≠ [] := by
  obtain ⟨c, ds, rfl, -, -⟩ := h
  exact List.cons_ne_nil c ds

theorem Shaped.natural (h : Shaped cs) : Natural cs (digitsValue cs) := by
  obtain ⟨c, ds, rfl, hc, hds⟩ := h
  induction ds using List.reverseRecOn with
  | nil => exact digitsValue_singleton hc ▸ .digit hc
  | append_singleton ds d ih =>
    obtain ⟨hinit, hd⟩ := List.forall_mem_append.mp hds
    rw [← List.cons_append]
    rcases List.forall_mem_singleton.mp hd with hd | rfl
    · rw [digitsValue_place _ hd]
      exact (ih hinit).place hd
    · rw [digitsValue_underscore]
      exact (ih hinit).underscore

theorem Natural.shaped (h : Natural cs n) : Shaped cs ∧ digitsValue cs = n := by
  induction h with
  | digit hc => exact ⟨⟨_, [], rfl, hc, fun d hd => by cases hd⟩, digitsValue_singleton hc⟩
  | place h hc ih => exact ⟨ih.1.concat (Or.inl hc), by rw [digitsValue_place _ hc, ih.2]⟩
  | underscore h ih => exact ⟨ih.1.concat (Or.inr rfl), by rw [digitsValue_underscore, ih.2]⟩

theorem natural?_eq_some_iff : natural? cs = some n ↔ Natural cs n := by
  have hread : natural? cs = some n ↔ Shaped cs ∧ digitsValue cs = n := by
    cases cs with
    | nil => simp [natural?, Shaped]
    | cons c cs => simp [natural?, Shaped]
  rw [hread]
  constructor
  · rintro ⟨h, rfl⟩
    exact h.natural
  · exact Natural.shaped

theorem Natural.not_mem (h : Natural cs n) (hdigit : c.isDigit = false) (hunderscore : c ≠ '_') : c ∉ cs := by
  have hne : ∀ d : Char, d.isDigit = true → c ≠ d := by
    rintro d hd rfl
    rw [hd] at hdigit
    cases hdigit
  induction h with
  | digit hc => simpa using hne _ hc
  | place h hc ih => simp [ih, hne _ hc]
  | underscore h ih => simp [ih, hunderscore]

/-! ### Integers -/

theorem Integer.not_mem (h : Integer cs i) (hdigit : c.isDigit = false) (hunderscore : c ≠ '_') (hplus : c ≠ '+')
    (hminus : c ≠ '-') : c ∉ cs := by
  cases h with
  | unsigned h => exact h.not_mem hdigit hunderscore
  | positive h => exact List.not_mem_cons_of_ne_of_not_mem hplus (h.not_mem hdigit hunderscore)
  | negative h => exact List.not_mem_cons_of_ne_of_not_mem hminus (h.not_mem hdigit hunderscore)

theorem Integer.slash_not_mem (h : Integer cs i) : '/' ∉ cs :=
  h.not_mem (by decide) (by decide) (by decide) (by decide)

theorem Integer.point_not_mem (h : Integer cs i) : '.' ∉ cs :=
  h.not_mem (by decide) (by decide) (by decide) (by decide)

theorem integer?_eq_some_iff : integer? cs = some i ↔ Integer cs i := by
  constructor
  · intro h
    unfold integer? at h
    split at h
    all_goals
      obtain ⟨k, hk, rfl⟩ := Option.map_eq_some_iff.mp h
      obtain ⟨n, hn, hcast⟩ := Option.bind_eq_some_iff.mp hk
      cases hcast
    · exact .negative (natural?_eq_some_iff.mp hn)
    · exact .positive (natural?_eq_some_iff.mp hn)
    · exact .unsigned (natural?_eq_some_iff.mp hn)
  · intro h
    cases h with
    | negative h => simp [integer?, natural?_eq_some_iff.mpr h]
    | positive h => simp [integer?, natural?_eq_some_iff.mpr h]
    | unsigned h =>
      -- No sign stands in front of a natural number, so the unsigned reading is the one that is tried.
      unfold integer?
      split
      · exact absurd List.mem_cons_self (h.not_mem (by decide) (by decide))
      · exact absurd List.mem_cons_self (h.not_mem (by decide) (by decide))
      · simp [natural?_eq_some_iff.mpr h]

theorem WholePart.point_not_mem (h : WholePart cs i) : '.' ∉ cs := by
  cases h with
  | empty => exact List.not_mem_nil
  | plus => decide
  | minus => decide
  | integer h => exact h.point_not_mem

theorem wholePart?_eq_some_iff : wholePart? cs = some i ↔ WholePart cs i := by
  constructor
  · intro h
    unfold wholePart? at h
    split at h
    · rename_i hlone
      obtain rfl := Option.some.inj h
      rcases hlone with rfl | rfl | rfl
      · exact .empty
      · exact .minus
      · exact .plus
    · exact .integer (integer?_eq_some_iff.mp h)
  · intro h
    cases h with
    | empty => rfl
    | plus => rfl
    | minus => rfl
    | integer h =>
      have hread := integer?_eq_some_iff.mpr h
      rw [wholePart?, if_neg, hread]
      rintro (rfl | rfl | rfl) <;> cases hread

/-! ### Ratios and decimals -/

theorem eq_of_splitFirst {sep : Char} (h : splitFirst sep cs = some (l, r)) : cs = l ++ sep :: r := by
  induction cs generalizing l with
  | nil => cases h
  | cons c cs ih =>
    rw [splitFirst] at h
    split at h
    · rename_i heq
      cases h
      rw [heq, List.nil_append]
    · obtain ⟨⟨l', r'⟩, hrest, hcons⟩ := Option.map_eq_some_iff.mp h
      cases hcons
      rw [ih hrest, List.cons_append]

theorem mkRat_decimal (n : Int) (f k : Nat) :
    mkRat (n.natAbs * Nat.pow 10 k + f : Nat) (Nat.pow 10 k) = |(n : Rat)| + f / 10 ^ k := by
  have hscale : ((Nat.pow 10 k : Nat) : Rat) = 10 ^ k := by
    rw [Nat.pow_eq]
    push_cast
    rfl
  have hpos : (10 : Rat) ^ k ≠ 0 := pow_ne_zero k (by norm_num)
  rw [Rat.mkRat_eq_div, Int.cast_natCast, Nat.cast_add, Nat.cast_mul, hscale, Nat.cast_natAbs, Int.cast_abs]
  field_simp

theorem decimal?_eq_some_iff : decimal? whole frac = some q ↔
    ∃ n f, WholePart whole n ∧ Natural frac f ∧ (∀ c ∈ frac, c.isDigit = true) ∧
      q = sign whole * (|(n : Rat)| + f / 10 ^ frac.length) := by
  have hsign : ∀ m : Rat, (if whole.head? = some '-' then -m else m) = sign whole * m := fun m => by
    unfold sign
    split <;> simp
  constructor
  · intro h
    unfold decimal? at h
    split at h
    · cases h
    · rename_i hfrac
      obtain ⟨hne, hdigits⟩ : frac ≠ [] ∧ ∀ c ∈ frac, c.isDigit = true := by simpa using hfrac
      obtain ⟨n, hn, rfl⟩ := Option.map_eq_some_iff.mp h
      have hshaped := shaped_of_digits hne hdigits
      exact ⟨n, _, wholePart?_eq_some_iff.mp hn, hshaped.natural, hdigits, by rw [hsign, mkRat_decimal]⟩
  · rintro ⟨n, f, hwhole, hfrac, hdigits, rfl⟩
    have hgood : (frac.isEmpty || !frac.all Char.isDigit) = false := by
      simpa using ⟨hfrac.shaped.1.ne_nil, hdigits⟩
    rw [decimal?, hgood, wholePart?_eq_some_iff.mpr hwhole, hfrac.shaped.2, if_neg Bool.false_ne_true, Option.map_some]
    simp only [hsign, mkRat_decimal]

/-- A numeral is read as the number that it denotes, and nothing else is read. -/
theorem ofChars?_eq_some_iff : ofChars? cs = some q ↔ Denotes cs q := by
  constructor
  · intro h
    unfold ofChars? at h
    split at h
    · rename_i whole frac hsplit
      obtain ⟨n, f, hwhole, hfrac, hdigits, rfl⟩ := decimal?_eq_some_iff.mp h
      rw [eq_of_splitFirst hsplit]
      exact .decimal hwhole hfrac hdigits
    · unfold ratio? at h
      split at h
      · obtain ⟨k, hk, rfl⟩ := Option.map_eq_some_iff.mp h
        obtain ⟨n, hn, hcast⟩ := Option.bind_eq_some_iff.mp hk
        cases hcast
        exact .integer (integer?_eq_some_iff.mp hn)
      · rename_i l r hsplit
        rw [eq_of_splitFirst hsplit]
        split at h
        · rename_i n d hn hd
          split at h
          · cases h
          · rename_i hne
            obtain rfl := Option.some.inj h
            rw [Rat.divInt_eq_div]
            exact .ratio (integer?_eq_some_iff.mp hn) (integer?_eq_some_iff.mp hd) hne
        · cases h
  · intro h
    cases h with
    | integer h =>
      rw [ofChars?, splitFirst_eq_none h.point_not_mem, ratio?, splitFirst_eq_none h.slash_not_mem]
      simp [integer?_eq_some_iff.mpr h]
    | @ratio l r n d hl hr hd =>
      have hpoint : '.' ∉ l ++ '/' :: r := by
        simp [hl.point_not_mem, hr.point_not_mem]
      rw [ofChars?, splitFirst_eq_none hpoint, ratio?, splitFirst_append _ hl.slash_not_mem]
      simp [integer?_eq_some_iff.mpr hl, integer?_eq_some_iff.mpr hr, hd, Rat.divInt_eq_div]
    | decimal hwhole hfrac hdigits =>
      rw [ofChars?, splitFirst_append _ hwhole.point_not_mem]
      exact decimal?_eq_some_iff.mpr ⟨_, _, hwhole, hfrac, hdigits, rfl⟩

theorem read?_eq_some_iff {s : String} : read? s = some q ↔ Denotes s.toList q := ofChars?_eq_some_iff

/-! ### What is written -/

theorem of_mem_toChars (h : c ∈ toChars q) : c.isDigit = true ∨ c = '-' ∨ c = '/' := by
  by_contra hc
  simp only [not_or, Bool.not_eq_true] at hc
  obtain ⟨hdigit, hminus, hslash⟩ := hc
  have hnum := not_mem_intChars hdigit hminus q.num
  have hden := not_mem_intChars hdigit hminus (q.den : Int)
  unfold toChars at h
  split at h
  · exact hnum h
  · rcases List.mem_append.mp h with h | h
    · exact hnum h
    · rcases List.mem_cons.mp h with h | h
      · exact hslash h
      · exact hden h

theorem isWord_write (q : Rat) : Text.IsWord (write q) := by
  constructor
  · intro hnil
    have hread := read?_write q
    rw [read?, hnil] at hread
    cases hread
  · intro c hc
    rw [write, String.toList_ofList] at hc
    rcases of_mem_toChars hc with hdigit | rfl | rfl
    · exact Text.isBlank_of_isDigit hdigit
    · decide
    · decide

end LinReal.Numeral
