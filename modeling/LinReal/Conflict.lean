/-!
Conflicts: conjunctions of tokens that cannot hold together. A token occurs once, at the place where it was first
collected.
-/

namespace LinReal

/-- The first occurrences of the elements of a list, in order. -/
def firsts [DecidableEq α] : List α → List α
  | [] => []
  | a :: as => a :: (firsts as).filter (· ≠ a)

theorem mem_firsts [DecidableEq α] {a : α} {as : List α} : a ∈ firsts as ↔ a ∈ as := by
  induction as with
  | nil => rfl
  | cons b bs ih =>
    by_cases h : a = b <;> simp [firsts, h, ih]

theorem nodup_firsts [DecidableEq α] (as : List α) : (firsts as).Nodup := by
  induction as with
  | nil => exact List.nodup_nil
  | cons b bs ih =>
    refine List.nodup_cons.mpr ⟨by simp, ih.filter _⟩

structure Conflict (τ : Type) where
  tokens : List τ
deriving DecidableEq, Repr

namespace Conflict

variable {τ : Type}

/-- The conflict of some tokens, repetitions left out. -/
def ofTokens [DecidableEq τ] (tokens : List τ) : Conflict τ := ⟨firsts tokens⟩

def size (c : Conflict τ) : Nat := c.tokens.length

def isEmpty (c : Conflict τ) : Bool := c.tokens.isEmpty

/-- The conjunction as a text, `(and t₁ t₂)`, given the text of a token. -/
def text (c : Conflict τ) (showToken : τ → String) : String :=
  "(and" ++ String.join (c.tokens.map fun t => " " ++ showToken t) ++ ")"

/-- The first of the smallest conflicts, and how often a smaller one took the place of the best so far. -/
def smallest : List (Conflict τ) → Option (Conflict τ × Nat)
  | [] => none
  | c :: cs => some (cs.foldl (fun (best, n) d => if d.size < best.size then (d, n + 1) else (best, n)) (c, 0))

end Conflict

end LinReal
