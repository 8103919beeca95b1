import LinReal.Proofs.Order
import LinReal.Proofs.Queue
import Mathlib.Data.List.Sort
import Mathlib.Data.Multiset.MapFold
import Mathlib.Data.Prod.Lex

/-! The contents of a queue. For whoever uses it a queue is a bag: of entries in the heuristic stage, of variables in the anti-cycle
    stage. What an operation does is said of the bag alone, and it leaves no choice, so two queues that do as it says cannot be told
    apart by their answers. -/

namespace LinReal

namespace Entry

/-- Entries compare by their amounts, and on ties the one with the smaller variable is greater. -/
def rank (e : Entry) : DeltaRat ×ₗ Varᵒᵈ := toLex (e.amount, OrderDual.toDual e.var)

variable {a b : Entry}

theorem rank_le_iff : a.rank ≤ b.rank ↔ a.amount < b.amount ∨ a.amount = b.amount ∧ b.var ≤ a.var := by
  rw [rank, rank, Prod.Lex.toLex_le_toLex, OrderDual.toDual_le_toDual]

theorem before_iff : a.before b = true ↔ b.rank < a.rank := by
  rw [rank, rank, Prod.Lex.toLex_lt_toLex, OrderDual.toDual_lt_toDual, before, eq_comm (a := b.amount)]
  simp only [Bool.or_eq_true, Bool.and_eq_true, decide_eq_true_eq]

theorem rank_injective (h : a.rank = b.rank) : a = b := by
  obtain ⟨hamount, hvar⟩ := Prod.mk.inj (toLex.injective h)
  cases a
  cases b
  exact (Entry.mk.injEq _ _ _ _).mpr ⟨OrderDual.toDual.injective hvar, hamount⟩

end Entry

namespace RepairQueue

inductive Operation where
  | push (x : Var) (amount : DeltaRat)
  | pop
  /-- Goes over to the anti-cycle stage. -/
  | switch
  /-- Empties the queue, and answers what was queued. -/
  | take
  /-- Empties the queue, and goes back to the heuristic stage. -/
  | reset
deriving DecidableEq, Repr

inductive Answer where
  | done
  | popped (x : Option Var)
  | taken (xs : List Var)
deriving DecidableEq, Repr

/-- What is queued, apart from any order. -/
inductive Contents where
  | ranked (es : Multiset Entry)
  | indexed (xs : Multiset Var)

namespace Contents

def stage : Contents → Stage
  | ranked _ => .heuristic
  | indexed _ => .antiCycle

/-- The queued variables, as often as they are queued. -/
def vars : Contents → Multiset Var
  | ranked es => es.map (·.var)
  | indexed xs => xs

def cleared : Contents → Contents
  | ranked _ => ranked 0
  | indexed _ => indexed 0

/-- The distinct members of a bag, ascending. -/
structure Lists (xs : List Var) (bag : Multiset Var) : Prop where
  ascending : xs.Pairwise (· < ·)
  mem_iff : ∀ x, x ∈ xs ↔ x ∈ bag

/-- What an operation answers, and what is queued after it. The heuristic stage pops the largest amount, and of those the smallest
    variable; the anti-cycle stage pops the smallest variable. -/
inductive Step : Contents → Operation → Answer → Contents → Prop where
  | pushRanked (es : Multiset Entry) (x : Var) (amount : DeltaRat) :
      Step (ranked es) (.push x amount) .done (ranked (⟨x, amount⟩ ::ₘ es))
  | pushIndexed (xs : Multiset Var) (x : Var) (amount : DeltaRat) :
      Step (indexed xs) (.push x amount) .done (indexed (x ::ₘ xs))
  | popNone {c : Contents} (hc : c.vars = 0) : Step c .pop (.popped none) c
  | popRanked {bag es : Multiset Entry} {e : Entry} (hbag : bag = e ::ₘ es)
      (he : ∀ d ∈ es, d.amount < e.amount ∨ d.amount = e.amount ∧ e.var ≤ d.var) :
      Step (ranked bag) .pop (.popped (some e.var)) (ranked es)
  | popIndexed {bag xs : Multiset Var} {x : Var} (hbag : bag = x ::ₘ xs) (hx : ∀ y ∈ xs, x ≤ y) :
      Step (indexed bag) .pop (.popped (some x)) (indexed xs)
  | switch (c : Contents) : Step c .switch .done (indexed c.vars)
  | take {c : Contents} {xs : List Var} (hxs : Lists xs c.vars) : Step c .take (.taken xs) c.cleared
  | reset (c : Contents) : Step c .reset .done (ranked 0)

variable {c d d' : Contents} {op : Operation} {a a' : Answer} {xs ys : List Var} {bag : Multiset Var}

theorem Lists.unique (h : Lists xs bag) (h' : Lists ys bag) : xs = ys :=
  h.ascending.eq_of_mem_iff h'.ascending fun x => (h.mem_iff x).trans (h'.mem_iff x).symm

/-- A greatest element of a bag is found in it only once, up to its copies. -/
theorem eq_of_cons_eq {α : Type} {R : α → α → Prop} (hanti : ∀ {x y}, R x y → R y x → x = y) {x y : α} {s t : Multiset α}
    (hx : ∀ z ∈ s, R z x) (hy : ∀ z ∈ t, R z y) (h : x ::ₘ s = y ::ₘ t) : x = y ∧ s = t := by
  have hxy : x = y := by
    rcases Multiset.mem_cons.mp (h ▸ Multiset.mem_cons_self x s) with hxy | hxt
    · exact hxy
    · rcases Multiset.mem_cons.mp (h ▸ Multiset.mem_cons_self y t) with hyx | hys
      · exact hyx.symm
      · exact hanti (hy x hxt) (hx y hys)
  subst hxy
  exact ⟨rfl, (Multiset.cons_inj_right x).mp h⟩

/-- An operation has one answer and one outcome. -/
theorem Step.unique (h : Step c op a d) (h' : Step c op a' d') : a = a' ∧ d = d' := by
  cases h with
  | pushRanked es x amount => cases h'; exact ⟨rfl, rfl⟩
  | pushIndexed xs x amount => cases h'; exact ⟨rfl, rfl⟩
  | switch => cases h'; exact ⟨rfl, rfl⟩
  | reset => cases h'; exact ⟨rfl, rfl⟩
  | take hxs =>
    cases h' with
    | take hys => exact ⟨by rw [hxs.unique hys], rfl⟩
  | popNone hc =>
    cases h' with
    | popNone => exact ⟨rfl, rfl⟩
    | popRanked hbag => exact absurd hc (by simp [vars, hbag])
    | popIndexed hbag => exact absurd hc (by simp [vars, hbag])
  | popRanked hbag he =>
    cases h' with
    | popNone hc => exact absurd hc (by simp [vars, hbag])
    | popRanked hbag' he' =>
      have hanti : ∀ {d e : Entry}, (d.amount < e.amount ∨ d.amount = e.amount ∧ e.var ≤ d.var) →
          (e.amount < d.amount ∨ e.amount = d.amount ∧ d.var ≤ e.var) → d = e := fun hd he =>
        Entry.rank_injective (le_antisymm (Entry.rank_le_iff.mpr hd) (Entry.rank_le_iff.mpr he))
      obtain ⟨rfl, rfl⟩ := eq_of_cons_eq hanti he he' (hbag.symm.trans hbag')
      exact ⟨rfl, rfl⟩
  | popIndexed hbag hx =>
    cases h' with
    | popNone hc => exact absurd hc (by simp [vars, hbag])
    | popIndexed hbag' hx' =>
      have hanti : ∀ {y x : Var}, x ≤ y → y ≤ x → y = x := fun h h' => le_antisymm h' h
      obtain ⟨rfl, rfl⟩ := eq_of_cons_eq hanti hx hx' (hbag.symm.trans hbag')
      exact ⟨rfl, rfl⟩

theorem Step.popped_none_iff (h : Step c .pop a d) : a = .popped none ↔ c.vars = 0 := by
  cases h with
  | popNone hc => exact ⟨fun _ => hc, fun _ => rfl⟩
  | popRanked hbag => simp [vars, hbag]
  | popIndexed hbag => simp [vars, hbag]

end Contents

/-! ### The queue of a repair -/

variable {q : RepairQueue} {op : Operation}

def apply (q : RepairQueue) : Operation → Answer × RepairQueue
  | .push x amount => (.done, q.push x amount)
  | .pop =>
    match q.pop with
    | none => (.popped none, q)
    | some (x, q) => (.popped (some x), q)
  | .switch => (.done, q.switch)
  | .take => (.taken q.queued, q.cleared)
  | .reset => (.done, empty)

/-- The queue after operations on a new one. -/
def after (ops : List Operation) : RepairQueue := ops.foldl (fun q op => (q.apply op).2) empty

def contents : RepairQueue → Contents
  | byAmount es => .ranked es
  | byIndex xs => .indexed xs

/-- The entries stand in the order in which they are taken. -/
def Arranged : RepairQueue → Prop
  | byAmount es => es.Pairwise fun a b => b.rank ≤ a.rank
  | byIndex xs => xs.Pairwise (· ≤ ·)

theorem popped_none_iff (q : RepairQueue) : (q.apply .pop).1 = .popped none ↔ q.pop = none := by
  simp only [apply]
  split <;> simp [*]

theorem coe_insertBy {α : Type} (before : α → α → Bool) (a : α) (as : List α) :
    (insertBy before a as : Multiset α) = a ::ₘ (as : Multiset α) := Multiset.coe_eq_coe.mpr (insertBy_perm before a as)

theorem vars_contents (q : RepairQueue) : q.contents.vars = (q.order : Multiset Var) := by cases q <;> rfl

theorem stage_contents (q : RepairQueue) : q.contents.stage = q.stage := by cases q <;> rfl

theorem contents_cleared (q : RepairQueue) : q.cleared.contents = q.contents.cleared := by cases q <;> rfl

theorem lists_queued (q : RepairQueue) : Contents.Lists q.queued q.contents.vars where
  ascending := by
    refine List.foldlRecOn (motive := List.Pairwise (· < ·)) q.order _ List.Pairwise.nil fun xs hxs x _ => ?_
    split
    · exact hxs
    · rename_i hx
      have hnew : (x :: xs).Nodup := List.nodup_cons.mpr ⟨fun hin => hx (List.contains_iff_mem.mpr hin), hxs.imp ne_of_lt⟩
      have hnodup : (insertBy (fun a b => decide (a < b)) x xs).Nodup := (insertBy_perm _ x xs).nodup_iff.mpr hnew
      exact (pairwise_insertBy_lt (hxs.imp le_of_lt)).imp₂ (fun _ _ => lt_of_le_of_ne) hnodup
  mem_iff x := by rw [vars_contents, Multiset.mem_coe, mem_queued]

theorem Arranged.push (h : q.Arranged) (x : Var) (amount : DeltaRat) : (q.push x amount).Arranged := by
  cases q with
  | byAmount es =>
    refine pairwise_insertBy (R := fun a b : Entry => b.rank ≤ a.rank) (fun h h' => h'.trans h)
      (fun h => (Entry.before_iff.mp h).le) (fun {a b} hab => not_lt.mp fun hlt => ?_) h
    rw [Entry.before_iff.mpr hlt] at hab
    cases hab
  | byIndex xs => exact pairwise_insertBy_lt h

/-- Every operation does what is said of the contents, and keeps the entries in order. -/
theorem Arranged.apply (h : q.Arranged) (op : Operation) :
    (q.apply op).2.Arranged ∧ q.contents.Step op (q.apply op).1 (q.apply op).2.contents := by
  cases op with
  | push x amount =>
    refine ⟨h.push x amount, ?_⟩
    cases q with
    | byAmount es =>
      show (Contents.ranked es).Step (.push x amount) .done (.ranked (insertBy Entry.before ⟨x, amount⟩ es : Multiset Entry))
      rw [coe_insertBy]
      exact .pushRanked es x amount
    | byIndex xs =>
      show (Contents.indexed xs).Step (.push x amount) .done (.indexed (insertBy (fun a b => a < b) x xs : Multiset Var))
      rw [coe_insertBy]
      exact .pushIndexed xs x amount
  | pop =>
    match q, h with
    | .byAmount [], _ => exact ⟨List.Pairwise.nil, .popNone rfl⟩
    | .byAmount (e :: es), h =>
      obtain ⟨he, hes⟩ := List.pairwise_cons.mp h
      exact ⟨hes, .popRanked rfl fun d hd => Entry.rank_le_iff.mp (he d hd)⟩
    | .byIndex [], _ => exact ⟨List.Pairwise.nil, .popNone rfl⟩
    | .byIndex (x :: xs), h =>
      obtain ⟨hx, hxs⟩ := List.pairwise_cons.mp h
      exact ⟨hxs, .popIndexed rfl hx⟩
  | switch =>
    have hbag : q.switch.contents = .indexed q.contents.vars := by
      rw [vars_contents]
      exact congrArg Contents.indexed (Multiset.coe_eq_coe.mpr (order_switch q))
    refine ⟨sorted_switch q, ?_⟩
    show q.contents.Step .switch .done q.switch.contents
    rw [hbag]
    exact .switch _
  | take =>
    refine ⟨?_, ?_⟩
    · cases q <;> exact List.Pairwise.nil
    · show q.contents.Step .take (.taken q.queued) q.cleared.contents
      rw [contents_cleared]
      exact .take q.lists_queued
  | reset => exact ⟨List.Pairwise.nil, .reset _⟩

end RepairQueue

end LinReal
