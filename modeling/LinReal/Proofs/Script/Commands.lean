import LinReal.Script.Basic
import LinReal.Proofs.Tableau.Solutions

/-! What a list of commands says, apart from any run: the rows that it defines, the ordinals of its bounds, and which of
    these bounds are in force after it. A bound is in force if the commands after it do not close the scope in which it
    was asserted. -/

namespace LinReal.Command

variable {cs ds : List Command} {i : Nat}

/-- The rows that commands define. -/
def rowsOf (cs : List Command) : List (Var × LinearForm) := cs.filterMap fun
  | .row x d => some (x, d)
  | _ => none

/-- The ordinals of the bounds that commands assert. -/
def ordinalsOf (cs : List Command) : List Nat := cs.filterMap fun
  | .bound i => some i
  | _ => none

/-- How many of the scopes that are open before some commands these commands close. -/
def closed : List Command → Nat
  | [] => 0
  | .push :: cs => closed cs - 1
  | .pop :: cs => closed cs + 1
  | .row _ _ :: cs | .bound _ :: cs | .check :: cs => closed cs

/-- How many of the scopes that commands open they leave open. -/
def opened : List Command → Nat
  | [] => 0
  | .push :: cs => if closed cs = 0 then opened cs + 1 else opened cs
  | .pop :: cs | .row _ _ :: cs | .bound _ :: cs | .check :: cs => opened cs

/-- The ordinals of the bounds that are in force after commands, in their order. -/
def active : List Command → List Nat
  | [] => []
  | .bound i :: cs => if closed cs = 0 then i :: active cs else active cs
  | .push :: cs | .pop :: cs | .row _ _ :: cs | .check :: cs => active cs

/-- The commands close no scope that they have not opened. -/
def Matched (cs : List Command) : Prop := closed cs = 0

theorem closed_append (cs ds : List Command) : closed (cs ++ ds) = closed cs + (closed ds - opened cs) := by
  induction cs with
  | nil => simp [closed, opened]
  | cons c cs ih =>
    cases c with
    | push =>
      simp only [List.cons_append, closed, opened, ih]
      split <;> omega
    | pop =>
      simp only [List.cons_append, closed, opened, ih]
      omega
    | _ => exact ih

theorem opened_append (cs ds : List Command) : opened (cs ++ ds) = opened ds + (opened cs - closed ds) := by
  induction cs with
  | nil => simp [opened]
  | cons c cs ih =>
    cases c with
    | push =>
      simp only [List.cons_append, opened, ih, closed_append]
      split <;> split <;> omega
    | _ => exact ih

theorem Matched.left (h : Matched (cs ++ ds)) : Matched cs := by
  rw [Matched, closed_append] at h
  exact Nat.eq_zero_of_add_eq_zero_right h

theorem Matched.opened_pos (h : Matched (cs ++ [.pop])) : 0 < opened cs := by
  rw [Matched, closed_append] at h
  simp only [closed] at h
  omega

theorem rowsOf_append (cs ds : List Command) : rowsOf (cs ++ ds) = rowsOf cs ++ rowsOf ds := List.filterMap_append

theorem ordinalsOf_append (cs ds : List Command) : ordinalsOf (cs ++ ds) = ordinalsOf cs ++ ordinalsOf ds :=
  List.filterMap_append

theorem mem_ordinalsOf_of_mem_active (h : i ∈ active cs) : i ∈ ordinalsOf cs := by
  induction cs with
  | nil => cases h
  | cons c cs ih =>
    cases c with
    | bound j =>
      rw [active] at h
      split at h
      · rcases List.mem_cons.mp h with rfl | h
        · exact List.mem_cons_self
        · exact List.mem_cons_of_mem _ (ih h)
      · exact List.mem_cons_of_mem _ (ih h)
    | _ => exact ih h

/-! ### Open scopes -/

/-- The ordinals of the bounds of each open scope, innermost scope and latest bound first, after one more command. -/
def scope (ss : List (List Nat)) : Command → List (List Nat)
  | .push => [] :: ss
  | .pop => ss.tail
  | .bound i =>
    match ss with
    | [] => []
    | s :: outer => (i :: s) :: outer
  | .row _ _ | .check => ss

/-- Of the scopes that are open before commands, those that they do not close stay; what they add to them are the bounds in
    force. -/
theorem flatten_foldl_scope {ss : List (List Nat)} (h : closed cs < ss.length) :
    (cs.foldl scope ss).flatten = (active cs).reverse ++ (ss.drop (closed cs)).flatten := by
  -- Only a command that opens, closes or fills a scope says anything; the rest of the commands see the changed scopes.
  induction cs generalizing ss with
  | nil => simp [active, closed]
  | cons c cs ih =>
    cases c with
    | push =>
      -- The new scope is closed by what follows, or it counts among those in force.
      rw [closed] at h ⊢
      rw [List.foldl_cons, scope, ih (by rw [List.length_cons]; omega), active]
      cases hc : closed cs with
      | zero => simp
      | succ k => simp
    | pop =>
      rw [closed] at h ⊢
      rw [List.foldl_cons, scope, ih (by rw [List.length_tail]; omega), active, List.drop_tail]
    | bound i =>
      rw [closed] at h ⊢
      cases ss with
      | nil => exact absurd h (Nat.not_lt_zero _)
      | cons s outer =>
        have ih' := ih (by rw [List.length_cons]; exact h : closed cs < ((i :: s) :: outer).length)
        rw [List.foldl_cons, scope, ih', active]
        cases hc : closed cs with
        | zero => simp
        | succ k => simp
    | row x d =>
      rw [closed] at h ⊢
      rw [List.foldl_cons, scope, ih h, active]
    | check =>
      rw [closed] at h ⊢
      rw [List.foldl_cons, scope, ih h, active]

theorem length_foldl_scope {ss : List (List Nat)} (h : closed cs < ss.length) :
    (cs.foldl scope ss).length = opened cs + (ss.length - closed cs) := by
  induction cs generalizing ss with
  | nil => simp [opened, closed]
  | cons c cs ih =>
    cases c with
    | push =>
      rw [closed] at h ⊢
      rw [List.foldl_cons, scope, ih (by rw [List.length_cons]; omega), opened, List.length_cons]
      split <;> omega
    | pop =>
      rw [closed] at h ⊢
      rw [List.foldl_cons, scope, ih (by rw [List.length_tail]; omega), opened, List.length_tail]
      omega
    | bound i =>
      rw [closed] at h ⊢
      cases ss with
      | nil => exact absurd h (Nat.not_lt_zero _)
      | cons s outer =>
        have ih' := ih (by rw [List.length_cons]; exact h : closed cs < ((i :: s) :: outer).length)
        rw [List.foldl_cons, scope, ih', opened]
        rfl
    | row x d =>
      rw [closed] at h ⊢
      rw [List.foldl_cons, scope, ih h, opened]
    | check =>
      rw [closed] at h ⊢
      rw [List.foldl_cons, scope, ih h, opened]

theorem Matched.closed_lt (h : Matched cs) : closed cs < [([] : List Nat)].length := by
  rw [h]
  exact Nat.one_pos

/-- In matched commands the open scopes hold exactly the bounds in force. -/
theorem Matched.flatten_scopes (h : Matched cs) : (cs.foldl scope [[]]).flatten.reverse = active cs := by
  rw [flatten_foldl_scope h.closed_lt, h]
  simp

theorem Matched.length_scopes (h : Matched cs) : (cs.foldl scope [[]]).length = opened cs + 1 := by
  rw [length_foldl_scope h.closed_lt, h]
  rfl

end LinReal.Command
