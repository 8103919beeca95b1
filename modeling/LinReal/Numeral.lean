/-!
Numerals: how rational numbers are read and written.

Three spellings are read: an integer, a ratio of two integers, and a decimal. An integer may carry one sign and
may hold underscores after its first digit. A decimal is negative exactly when it starts with a minus sign, so
`-0.5` and `-.5` both stand for minus one half. Numbers are written reduced, as `n` or `n/d`, and what is written
reads back (`read?_write`).
-/

namespace LinReal.Numeral

/-! ### Reading -/

/-- The number that a run of digits stands for; an underscore does not count. -/
def digitsValue (cs : List Char) : Nat := Nat.ofDigitChars 10 (cs.filter (· ≠ '_')) 0

/-- A digit, then digits and underscores. -/
def natural? : List Char → Option Nat
  | [] => none
  | c :: cs =>
    if c.isDigit && cs.all (fun d => d.isDigit || d == '_') then some (digitsValue (c :: cs)) else none

/-- A natural number with at most one sign in front. -/
def integer? : List Char → Option Int
  | '-' :: cs => (natural? cs).map fun n => -(n : Int)
  | '+' :: cs => (natural? cs).map fun n => (n : Int)
  | cs => (natural? cs).map fun n => (n : Int)

/-- What stands before and after the first `sep`, if there is one. -/
def splitFirst (sep : Char) : List Char → Option (List Char × List Char)
  | [] => none
  | c :: cs => if c = sep then some ([], cs) else (splitFirst sep cs).map fun (l, r) => (c :: l, r)

/-- An integer, or two integers around the first slash, the second of which is not zero. -/
def ratio? (cs : List Char) : Option Rat :=
  match splitFirst '/' cs with
  | none => (integer? cs).map fun n => (n : Rat)
  | some (l, r) =>
    match integer? l, integer? r with
    | some n, some d => if d = 0 then none else some (Rat.divInt n d)
    | _, _ => none

/-- The part of a decimal before the point: nothing, a lone sign, or an integer. -/
def wholePart? (cs : List Char) : Option Int :=
  if cs = [] ∨ cs = ['-'] ∨ cs = ['+'] then some 0 else integer? cs

def decimal? (whole frac : List Char) : Option Rat :=
  if frac.isEmpty || !frac.all Char.isDigit then none
  else
    (wholePart? whole).map fun n =>
      let scale := Nat.pow 10 frac.length
      let magnitude := mkRat (n.natAbs * scale + digitsValue frac : Nat) scale
      if whole.head? = some '-' then -magnitude else magnitude

/-- Reads a number; a text that holds a point is a decimal, any other an integer or a ratio. -/
def ofChars? (cs : List Char) : Option Rat :=
  match splitFirst '.' cs with
  | some (whole, frac) => decimal? whole frac
  | none => ratio? cs

def read? (s : String) : Option Rat := ofChars? s.toList

/-! ### Writing -/

/-- The decimal digits of an integer, after a minus sign if it is negative. -/
def intChars : Int → List Char
  | .ofNat n => Nat.toDigits 10 n
  | .negSucc n => '-' :: Nat.toDigits 10 (n + 1)

/-- A rational in lowest terms; the denominator one is left out. -/
def toChars (q : Rat) : List Char :=
  if q.den = 1 then intChars q.num else intChars q.num ++ '/' :: Nat.toDigits 10 q.den

def write (q : Rat) : String := String.ofList (toChars q)

/-! ### What is written reads back -/

theorem natural?_toDigits (n : Nat) : natural? (Nat.toDigits 10 n) = some n := by
  have hdigit : ∀ c ∈ Nat.toDigits 10 n, c.isDigit := fun c hc => Nat.isDigit_of_mem_toDigits (by decide) (by decide) hc
  have hvalue : digitsValue (Nat.toDigits 10 n) = n := by
    have hfilter : (Nat.toDigits 10 n).filter (· ≠ '_') = Nat.toDigits 10 n := by
      refine List.filter_eq_self.mpr fun c hc => ?_
      have hne : c ≠ '_' := fun h => by simpa [h] using hdigit c hc
      simpa using hne
    rw [digitsValue, hfilter]
    exact Nat.ofDigitChars_toDigits (by decide) (by decide)
  cases h : Nat.toDigits 10 n with
  | nil => exact absurd h Nat.toDigits_ne_nil
  | cons c cs =>
    rw [h] at hdigit hvalue
    have hall : (c.isDigit && cs.all fun d => d.isDigit || d == '_') = true := by
      simp only [List.mem_cons, forall_eq_or_imp] at hdigit
      simp only [hdigit.1, Bool.true_and, List.all_eq_true]
      exact fun d hd => by simp [hdigit.2 d hd]
    simp [natural?, hall, hvalue]

/-- The first character of a natural number is a digit, so it is no sign. -/
theorem integer?_toDigits (n : Nat) : integer? (Nat.toDigits 10 n) = some (n : Int) := by
  have hn := natural?_toDigits n
  cases h : Nat.toDigits 10 n with
  | nil => exact absurd h Nat.toDigits_ne_nil
  | cons c cs =>
    have hc : c.isDigit := Nat.isDigit_of_mem_toDigits (b := 10) (n := n) (by decide) (by decide) (by simp [h])
    rw [h] at hn
    unfold integer?
    split
    · simp_all
    · simp_all
    · simp [hn]

theorem integer?_intChars (n : Int) : integer? (intChars n) = some n := by
  cases n with
  | ofNat n => exact integer?_toDigits n
  | negSucc n =>
    show (natural? (Nat.toDigits 10 (n + 1))).map (fun n => -(n : Int)) = some (Int.negSucc n)
    rw [natural?_toDigits]
    rfl

theorem splitFirst_eq_none {sep : Char} {cs : List Char} (h : sep ∉ cs) : splitFirst sep cs = none := by
  induction cs with
  | nil => rfl
  | cons c cs ih =>
    simp only [List.mem_cons, not_or] at h
    simp [splitFirst, Ne.symm h.1, ih h.2]

theorem splitFirst_append {sep : Char} {l : List Char} (r : List Char) (h : sep ∉ l) :
    splitFirst sep (l ++ sep :: r) = some (l, r) := by
  induction l with
  | nil => simp [splitFirst]
  | cons c l ih =>
    simp only [List.mem_cons, not_or] at h
    simp [splitFirst, Ne.symm h.1, ih h.2]

/-- A character that is neither a digit nor a minus sign does not occur in an integer. -/
theorem not_mem_intChars {c : Char} (hd : c.isDigit = false) (hm : c ≠ '-') (n : Int) : c ∉ intChars n := by
  have hno : ∀ k, c ∉ Nat.toDigits 10 k := fun k hc => by
    have := Nat.isDigit_of_mem_toDigits (by decide) (by decide) hc
    simp [hd] at this
  cases n with
  | ofNat n => exact hno n
  | negSucc n => simp [intChars, hm, hno]

theorem ofChars?_toChars (q : Rat) : ofChars? (toChars q) = some q := by
  have hslash := not_mem_intChars (c := '/') (by decide) (by decide) q.num
  by_cases h : q.den = 1
  · have hpoint := not_mem_intChars (c := '.') (by decide) (by decide) q.num
    simp only [toChars, h, if_true, ofChars?, splitFirst_eq_none hpoint, ratio?, splitFirst_eq_none hslash]
    rw [integer?_intChars]
    exact congrArg some (Rat.ext (Rat.num_intCast q.num) ((Rat.den_intCast q.num).trans h.symm))
  · have hpoint : '.' ∉ intChars q.num ++ '/' :: Nat.toDigits 10 q.den := by
      have hnum := not_mem_intChars (c := '.') (by decide) (by decide) q.num
      have hden := not_mem_intChars (c := '.') (by decide) (by decide) (q.den : Int)
      simp only [List.mem_append, List.mem_cons, not_or]
      exact ⟨hnum, by decide, hden⟩
    have hden : (q.den : Int) ≠ 0 := by exact_mod_cast q.den_nz
    simp only [toChars, h, if_false, ofChars?, splitFirst_eq_none hpoint, ratio?, splitFirst_append _ hslash,
      integer?_intChars, integer?_toDigits, hden, Option.some.injEq]
    exact Rat.num_divInt_den q

theorem read?_write (q : Rat) : read? (write q) = some q := by
  simp [read?, write, ofChars?_toChars]

end LinReal.Numeral
