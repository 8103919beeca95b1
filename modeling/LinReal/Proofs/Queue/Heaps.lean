import LinReal.Proofs.Queue.Contents
import Mathlib.Data.List.Destutter

/-! Two heaps. A queue can be kept in two priority queues, one for each stage, and a mark that says which of them is in use.
    Nothing is ever left in the other one, so whatever the priority queues are made of, the two answer as the one sorted list
    does. -/

namespace LinReal

/-- A priority queue, which gives out its greatest elements first, and can list what it has in some order. -/
structure PriorityQueue (α : Type) [LinearOrder α] where
  Heap : Type
  empty : Heap
  push : Heap → α → Heap
  pop : Heap → Option (α × Heap)
  list : Heap → List α
  list_empty : list empty = []
  list_push : ∀ h a, (list (push h a)).Perm (a :: list h)
  list_of_pop_none : ∀ h, pop h = none → list h = []
  list_of_pop : ∀ h a h', pop h = some (a, h') → (list h).Perm (a :: list h') ∧ ∀ b ∈ list h', b ≤ a

namespace PriorityQueue

/-- The elements in a list, the greatest one first. -/
def sorted (α : Type) [LinearOrder α] : PriorityQueue α where
  Heap := { as : List α // as.Pairwise (· ≥ ·) }
  empty := ⟨[], List.Pairwise.nil⟩
  push h a := ⟨RepairQueue.insertBy (fun a b => b < a) a h.1, pairwise_insertBy (R := (· ≥ ·)) (fun h h' => h'.trans h)
    (fun h => (of_decide_eq_true h).le) (fun h => not_lt.mp (of_decide_eq_false h)) h.2⟩
  pop
    | ⟨[], _⟩ => none
    | ⟨a :: as, h⟩ => some (a, ⟨as, (List.pairwise_cons.mp h).2⟩)
  list h := h.1
  list_empty := rfl
  list_push h a := RepairQueue.insertBy_perm _ a h.1
  list_of_pop_none
    | ⟨[], _⟩, _ => rfl
  list_of_pop
    | ⟨a :: as, h⟩, b, h', heq => by
      cases heq
      exact ⟨.refl _, (List.pairwise_cons.mp h).1⟩

variable {α : Type} [LinearOrder α] (P : PriorityQueue α)

theorem coe_list_push {β : Type} (f : α → β) (h : P.Heap) (a : α) :
    ((P.list (P.push h a)).map f : Multiset β) = f a ::ₘ ((P.list h).map f : Multiset β) :=
  Multiset.coe_eq_coe.mpr ((P.list_push h a).map f)

theorem list_foldl_push (as : List α) (h : P.Heap) : (P.list (as.foldl P.push h)).Perm (as ++ P.list h) := by
  induction as generalizing h with
  | nil => exact .refl _
  | cons a as ih => exact (ih (P.push h a)).trans (((P.list_push h a).append_left as).trans List.perm_middle)

end PriorityQueue

/-- The queued variables in two heaps, one by the amount of the violation and one by index, and the stage. -/
structure TwoHeaps (P : PriorityQueue (DeltaRat ×ₗ Varᵒᵈ)) (Q : PriorityQueue Varᵒᵈ) where
  stage : Stage
  byAmount : P.Heap
  byIndex : Q.Heap

namespace TwoHeaps

open RepairQueue (Operation Answer Contents)

variable {P : PriorityQueue (DeltaRat ×ₗ Varᵒᵈ)} {Q : PriorityQueue Varᵒᵈ} {h : TwoHeaps P Q}

def new (P : PriorityQueue (DeltaRat ×ₗ Varᵒᵈ)) (Q : PriorityQueue Varᵒᵈ) : TwoHeaps P Q := ⟨.heuristic, P.empty, Q.empty⟩

def size (h : TwoHeaps P Q) : Nat := (P.list h.byAmount).length + (Q.list h.byIndex).length

def isEmpty (h : TwoHeaps P Q) : Bool := (P.list h.byAmount).isEmpty && (Q.list h.byIndex).isEmpty

def push (h : TwoHeaps P Q) (x : Var) (amount : DeltaRat) : TwoHeaps P Q :=
  match h.stage with
  | .heuristic => { h with byAmount := P.push h.byAmount (toLex (amount, OrderDual.toDual x)) }
  | .antiCycle => { h with byIndex := Q.push h.byIndex (OrderDual.toDual x) }

def pop (h : TwoHeaps P Q) : Option (Var × TwoHeaps P Q) :=
  match h.stage with
  | .heuristic => (P.pop h.byAmount).map fun (e, heap) => (OrderDual.ofDual (ofLex e).2, { h with byAmount := heap })
  | .antiCycle => (Q.pop h.byIndex).map fun (x, heap) => (OrderDual.ofDual x, { h with byIndex := heap })

/-- Moves every entry of the one heap to the other, and changes the stage. -/
def switch (h : TwoHeaps P Q) : TwoHeaps P Q where
  stage := .antiCycle
  byAmount := P.empty
  byIndex := ((P.list h.byAmount).map fun e => (ofLex e).2).foldl Q.push h.byIndex

/-- What both heaps list, as variables. -/
def order (h : TwoHeaps P Q) : List Var :=
  (P.list h.byAmount).map (fun e => OrderDual.ofDual (ofLex e).2) ++ (Q.list h.byIndex).map OrderDual.ofDual

/-- The queued variables sorted, and then of equal neighbours only one. -/
def queued (h : TwoHeaps P Q) : List Var := (h.order.insertionSort (· ≤ ·)).destutter (· ≠ ·)

def cleared (h : TwoHeaps P Q) : TwoHeaps P Q := ⟨h.stage, P.empty, Q.empty⟩

def apply (h : TwoHeaps P Q) : Operation → Answer × TwoHeaps P Q
  | .push x amount => (.done, h.push x amount)
  | .pop =>
    match h.pop with
    | none => (.popped none, h)
    | some (x, h) => (.popped (some x), h)
  | .switch => (.done, h.switch)
  | .take => (.taken h.queued, h.cleared)
  | .reset => (.done, new P Q)

/-- The heaps after operations on new ones. -/
def after (P : PriorityQueue (DeltaRat ×ₗ Varᵒᵈ)) (Q : PriorityQueue Varᵒᵈ) (ops : List Operation) : TwoHeaps P Q :=
  ops.foldl (fun h op => (h.apply op).2) (new P Q)

/-! ### One bag -/

/-- Only the heap of the stage has entries. -/
structure OneHeap (h : TwoHeaps P Q) : Prop where
  byAmount : h.stage ≠ .heuristic → P.list h.byAmount = []
  byIndex : h.stage ≠ .antiCycle → Q.list h.byIndex = []

/-- The entry of an element of the first heap. -/
def entry (e : DeltaRat ×ₗ Varᵒᵈ) : Entry := ⟨OrderDual.ofDual (ofLex e).2, (ofLex e).1⟩

def contents (h : TwoHeaps P Q) : Contents :=
  match h.stage with
  | .heuristic => .ranked ((P.list h.byAmount).map entry : List Entry)
  | .antiCycle => .indexed ((Q.list h.byIndex).map OrderDual.ofDual : List Var)

theorem stage_contents (h : TwoHeaps P Q) : h.contents.stage = h.stage := by
  unfold contents
  split <;> (rename_i hst; exact hst.symm)

theorem oneHeap_new : (new P Q).OneHeap := ⟨fun hne => absurd rfl hne, fun _ => Q.list_empty⟩

theorem contents_new : (new P Q).contents = RepairQueue.empty.contents := by
  show Contents.ranked _ = Contents.ranked _
  rw [new, P.list_empty]
  rfl

/-- Both heaps together list the bag. -/
theorem OneHeap.vars_contents (hone : h.OneHeap) : h.contents.vars = (h.order : Multiset Var) := by
  obtain ⟨stage, byAmount, byIndex⟩ := h
  cases stage with
  | heuristic =>
    have hnil : Q.list byIndex = [] := hone.byIndex (by rintro ⟨⟩)
    simp [contents, order, hnil, Contents.vars, entry, Function.comp_def]
  | antiCycle =>
    have hnil : P.list byAmount = [] := hone.byAmount (by rintro ⟨⟩)
    simp [contents, order, hnil, Contents.vars]

theorem lists_destutter {x : Var} {xs : List Var} (h : (x :: xs).Pairwise (· ≤ ·)) :
    Contents.Lists ((x :: xs).destutter (· ≠ ·)) ((x :: xs : List Var) : Multiset Var) := by
  rw [List.destutter_cons']
  induction xs generalizing x with
  | nil => exact ⟨List.pairwise_singleton _ _, fun y => Iff.rfl⟩
  | cons y ys ih =>
    obtain ⟨hx, hys⟩ := List.pairwise_cons.mp h
    have hxy := hx y List.mem_cons_self
    by_cases hne : x ≠ y
    · obtain ⟨hascending, hmem⟩ := ih hys
      simp only [Multiset.mem_coe] at hmem
      rw [List.destutter'_cons_pos _ hne]
      refine ⟨List.pairwise_cons.mpr ⟨fun z hz => ?_, hascending⟩, fun z => ?_⟩
      · rcases List.mem_cons.mp ((hmem z).mp hz) with rfl | hz
        · exact lt_of_le_of_ne hxy hne
        · exact (lt_of_le_of_ne hxy hne).trans_le ((List.pairwise_cons.mp hys).1 z hz)
      · rw [List.mem_cons, hmem, Multiset.mem_coe, List.mem_cons (b := x)]
    · obtain rfl : x = y := not_not.mp hne
      obtain ⟨hascending, hmem⟩ := ih hys
      rw [List.destutter'_cons_neg _ hne]
      refine ⟨hascending, fun z => ?_⟩
      rw [hmem, Multiset.mem_coe, Multiset.mem_coe, List.mem_cons (b := x) (l := x :: ys)]
      exact ⟨Or.inr, fun hz => hz.elim (fun hzx => hzx ▸ List.mem_cons_self) id⟩

theorem OneHeap.lists_queued (hone : h.OneHeap) : Contents.Lists h.queued h.contents.vars := by
  have hsorted : (h.order.insertionSort (· ≤ ·)).Pairwise (· ≤ ·) := List.pairwise_insertionSort _ _
  have hbag : h.contents.vars = (h.order.insertionSort (· ≤ ·) : Multiset Var) := by
    rw [hone.vars_contents]
    exact Multiset.coe_eq_coe.mpr (List.perm_insertionSort _ _).symm
  rw [hbag, queued]
  cases hlist : h.order.insertionSort (· ≤ ·) with
  | nil => exact ⟨List.Pairwise.nil, fun x => Iff.rfl⟩
  | cons x xs =>
    rw [hlist] at hsorted
    exact lists_destutter hsorted

/-! ### Operations -/

theorem OneHeap.push (hone : h.OneHeap) (x : Var) (amount : DeltaRat) :
    (h.push x amount).OneHeap ∧ h.contents.Step (.push x amount) .done (h.push x amount).contents := by
  obtain ⟨stage, byAmount, byIndex⟩ := h
  cases stage with
  | heuristic =>
    refine ⟨⟨fun hne => absurd rfl hne, hone.byIndex⟩, ?_⟩
    simp only [contents, TwoHeaps.push, P.coe_list_push]
    exact .pushRanked _ x amount
  | antiCycle =>
    refine ⟨⟨hone.byAmount, fun hne => absurd rfl hne⟩, ?_⟩
    simp only [contents, TwoHeaps.push, Q.coe_list_push]
    exact .pushIndexed _ x amount

theorem OneHeap.pop (hone : h.OneHeap) :
    (h.apply .pop).2.OneHeap ∧ h.contents.Step .pop (h.apply .pop).1 (h.apply .pop).2.contents := by
  obtain ⟨stage, byAmount, byIndex⟩ := h
  cases stage with
  | heuristic =>
    cases hpop : P.pop byAmount with
    | none =>
      simp only [TwoHeaps.apply, TwoHeaps.pop, hpop, Option.map_none]
      exact ⟨hone, .popNone (by simp [contents, Contents.vars, P.list_of_pop_none _ hpop])⟩
    | some p =>
      obtain ⟨e, heap⟩ := p
      obtain ⟨hlist, hgreatest⟩ := P.list_of_pop _ _ _ hpop
      simp only [TwoHeaps.apply, TwoHeaps.pop, hpop, Option.map_some]
      refine ⟨⟨fun hne => absurd rfl hne, hone.byIndex⟩,
        .popRanked (e := entry e) (Multiset.coe_eq_coe.mpr (hlist.map entry)) fun d hd => ?_⟩
      obtain ⟨d', hd', rfl⟩ := List.mem_map.mp hd
      exact Entry.rank_le_iff.mp (hgreatest d' hd')
  | antiCycle =>
    cases hpop : Q.pop byIndex with
    | none =>
      simp only [TwoHeaps.apply, TwoHeaps.pop, hpop, Option.map_none]
      exact ⟨hone, .popNone (by simp [contents, Contents.vars, Q.list_of_pop_none _ hpop])⟩
    | some p =>
      obtain ⟨x, heap⟩ := p
      obtain ⟨hlist, hgreatest⟩ := Q.list_of_pop _ _ _ hpop
      simp only [TwoHeaps.apply, TwoHeaps.pop, hpop, Option.map_some]
      refine ⟨⟨hone.byAmount, fun hne => absurd rfl hne⟩,
        .popIndexed (Multiset.coe_eq_coe.mpr (hlist.map OrderDual.ofDual)) fun y hy => ?_⟩
      obtain ⟨y', hy', rfl⟩ := List.mem_map.mp hy
      exact hgreatest y' hy'

theorem OneHeap.switch (hone : h.OneHeap) : h.switch.OneHeap ∧ h.switch.contents = .indexed h.contents.vars := by
  refine ⟨⟨fun _ => P.list_empty, fun hne => absurd rfl hne⟩, ?_⟩
  rw [hone.vars_contents]
  refine congrArg Contents.indexed (Multiset.coe_eq_coe.mpr (((Q.list_foldl_push _ _).map OrderDual.ofDual).trans ?_))
  rw [List.map_append, List.map_map]
  exact .refl _

theorem cleared_view (h : TwoHeaps P Q) : h.cleared.OneHeap ∧ h.cleared.contents = h.contents.cleared := by
  refine ⟨⟨fun _ => P.list_empty, fun _ => Q.list_empty⟩, ?_⟩
  obtain ⟨stage, byAmount, byIndex⟩ := h
  cases stage with
  | heuristic =>
    simp only [contents, cleared, P.list_empty]
    rfl
  | antiCycle =>
    simp only [contents, cleared, Q.list_empty]
    rfl

/-- Every operation does what is said of the contents, and leaves nothing in the other heap. -/
theorem OneHeap.apply (hone : h.OneHeap) (op : Operation) :
    (h.apply op).2.OneHeap ∧ h.contents.Step op (h.apply op).1 (h.apply op).2.contents := by
  cases op with
  | push x amount => exact hone.push x amount
  | pop => exact hone.pop
  | switch =>
    obtain ⟨hswitch, hcontents⟩ := hone.switch
    refine ⟨hswitch, ?_⟩
    show h.contents.Step .switch .done h.switch.contents
    rw [hcontents]
    exact .switch _
  | take =>
    obtain ⟨hcleared, hcontents⟩ := h.cleared_view
    refine ⟨hcleared, ?_⟩
    show h.contents.Step .take (.taken h.queued) h.cleared.contents
    rw [hcontents]
    exact .take hone.lists_queued
  | reset =>
    refine ⟨oneHeap_new, ?_⟩
    show h.contents.Step .reset .done (new P Q).contents
    rw [contents_new]
    exact .reset _

/-! ### Heaps and the queue of a repair -/

/-- The queue `q` is a bag: what is in it, what it lists and what its operations do is said by its contents alone, and the heaps `h`
    have the same contents and answer alike. -/
structure Behaves (q : RepairQueue) (h : TwoHeaps P Q) : Prop where
  oneHeap : h.OneHeap
  contents : h.contents = q.contents
  stage : h.stage = q.stage ∧ q.contents.stage = q.stage
  size : h.size = q.size ∧ q.size = q.contents.vars.card
  isEmpty : h.isEmpty = q.isEmpty ∧ (q.isEmpty = true ↔ q.contents.vars = 0)
  pop_eq_none_iff : (h.pop = none ↔ h.isEmpty = true) ∧ (q.pop = none ↔ q.isEmpty = true)
  queued : h.queued = q.queued ∧ Contents.Lists q.queued q.contents.vars
  step : ∀ op, (h.apply op).1 = (q.apply op).1 ∧ q.contents.Step op (q.apply op).1 (q.apply op).2.contents

theorem popped_none_iff (h : TwoHeaps P Q) : (h.apply .pop).1 = .popped none ↔ h.pop = none := by
  simp only [apply]
  split <;> simp [*]

variable {q : RepairQueue}

theorem Behaves.of_contents (hq : q.Arranged) (hone : h.OneHeap) (heq : h.contents = q.contents) : Behaves q h := by
  have hbag : q.contents.vars = (h.order : Multiset Var) := heq ▸ hone.vars_contents
  have hqsize : q.size = q.contents.vars.card := by
    rw [q.vars_contents]
    rfl
  have hsize : h.size = q.contents.vars.card := by simp [hbag, TwoHeaps.size, order]
  have hqempty : q.isEmpty = true ↔ q.contents.vars = 0 := by
    rw [q.vars_contents, RepairQueue.isEmpty, List.isEmpty_iff, Multiset.coe_eq_zero]
  have hempty : h.isEmpty = true ↔ q.contents.vars = 0 := by simp [hbag, TwoHeaps.isEmpty, order]
  have hstep := fun op => (hq.apply op).2
  have hstep' := fun op => heq ▸ (hone.apply op).2
  refine ⟨hone, heq, ⟨?_, q.stage_contents⟩, ⟨hsize.trans hqsize.symm, hqsize⟩, ⟨?_, hqempty⟩, ⟨?_, RepairQueue.pop_eq_none_iff⟩,
    ⟨?_, q.lists_queued⟩, fun op => ⟨((hstep op).unique (hstep' op)).1.symm, hstep op⟩⟩
  · rw [← h.stage_contents, heq, q.stage_contents]
  · rw [Bool.eq_iff_iff, hempty, hqempty]
  · rw [← h.popped_none_iff, (hstep' .pop).popped_none_iff, hempty]
  · exact (heq ▸ hone.lists_queued).unique q.lists_queued

/-- After any operations on new ones the heaps and the queue of a repair behave as the same bag. -/
theorem behaves (P : PriorityQueue (DeltaRat ×ₗ Varᵒᵈ)) (Q : PriorityQueue Varᵒᵈ) (ops : List Operation) :
    Behaves (RepairQueue.after ops) (after P Q ops) := by
  have key : ∀ (ops : List Operation) (q : RepairQueue) (h : TwoHeaps P Q), q.Arranged → h.OneHeap → h.contents = q.contents →
      Behaves (ops.foldl (fun q op => (q.apply op).2) q) (ops.foldl (fun h op => (h.apply op).2) h) := by
    intro ops
    induction ops with
    | nil => exact fun q h hq hone heq => .of_contents hq hone heq
    | cons op ops ih =>
      intro q h hq hone heq
      obtain ⟨hq', hstep⟩ := hq.apply op
      obtain ⟨hone', hstep'⟩ := hone.apply op
      rw [heq] at hstep'
      exact ih _ _ hq' hone' (hstep'.unique hstep).2
  exact key ops .empty (new P Q) List.Pairwise.nil oneHeap_new contents_new

/-- Two heaps that are sorted lists: the larger amount is popped first, and the smaller variable on ties; after the switch the
    smallest variable, whenever it was pushed. -/
theorem behaves_of_lists :
    ((after (.sorted _) (.sorted _) [.push 4 (.ofRat 1), .push 7 (.ofRat 5), .push 2 (.ofRat 5)]).apply .pop).1 =
        .popped (some 2) ∧
      ((after (.sorted _) (.sorted _)
        [.push 9 (.ofRat 100), .push 5 (.ofRat 1), .push 5 (.ofRat 2), .switch, .push 3 (.ofRat 0)]).apply .pop).1 =
        .popped (some 3) ∧
      ((after (.sorted _) (.sorted _)
        [.push 9 (.ofRat 100), .push 5 (.ofRat 1), .push 5 (.ofRat 2), .switch, .push 3 (.ofRat 0)]).apply .take).1 =
        .taken [3, 5, 9] := by
  refine ⟨((behaves _ _ _).step _).1.trans ?_, ((behaves _ _ _).step _).1.trans ?_, ((behaves _ _ _).step _).1.trans ?_⟩
  · decide +kernel
  · decide +kernel
  · decide +kernel

end TwoHeaps

end LinReal
