import LinReal.Proofs.Store.Levels

/-! Series of edits. A slot saves its committed value only once the value is changed, and the list of changed variables may name
    variables twice or in vain; still the values are those of two full copies. All scopes share one trail; still a scope that is
    closed gives back the bounds at its opening, whatever was set in it and in the scopes inside it. -/

namespace LinReal.Store

variable {τ : Type}

/-- A change of a store. -/
inductive Edit (τ : Type) where
  | install (x : Var) (v : DeltaRat)
  | assign (x : Var) (v : DeltaRat)
  | assignBoth (x : Var) (v safe : DeltaRat)
  | commit
  | revert
  | setBound (side : Side) (x : Var) (new : Bound τ)
  | push
  | pop
deriving DecidableEq, Repr

namespace Edit

def apply (s : Store τ) : Edit τ → Except Fault (Store τ)
  | install x v => .ok (s.install x v)
  | assign x v => s.assign x v
  | assignBoth x v safe => s.assignBoth x v safe
  | commit => .ok s.commit
  | revert => .ok s.revert
  | setBound side x new => s.setBound side x new
  | push => .ok s.push
  | pop => .ok s.pop.2

/-- The variable whose slot must exist. -/
def target? : Edit τ → Option Var
  | assign x _ | assignBoth x _ _ | setBound _ x _ => some x
  | install _ _ | commit | revert | push | pop => none

/-- The number of slots afterwards, if there are `n` before. -/
def extent (n : Nat) : Edit τ → Nat
  | install x _ => max n (x + 1)
  | _ => n

/-- The number of open scopes afterwards, if there are `k` before; none if there is no scope to close. -/
def depth (k : Nat) : Edit τ → Option Nat
  | push => some (k + 1)
  | pop => if k = 0 then none else some (k - 1)
  | _ => some k

/-- The variable whose bound is set. -/
def bounded : Edit τ → List Var
  | setBound _ x _ => [x]
  | _ => []

end Edit

/-- The edits find their slots, if there are `n` slots before them. -/
def OnSlots : Nat → List (Edit τ) → Prop
  | _, [] => True
  | n, e :: es => (∀ x ∈ e.target?, x < n) ∧ OnSlots (e.extent n) es

instance decidableOnSlots : (n : Nat) → (es : List (Edit τ)) → Decidable (OnSlots n es)
  | _, [] => inferInstanceAs (Decidable True)
  | n, e :: es =>
    haveI := decidableOnSlots (e.extent n) es
    inferInstanceAs (Decidable ((∀ x ∈ e.target?, x < n) ∧ OnSlots (e.extent n) es))

variable {s t : Store τ} {e : Edit τ} {es : List (Edit τ)}

theorem Edit.apply_requires (h : e.apply s = .ok t) : ∀ x ∈ e.target?, x < s.size := by
  intro x hx
  cases e with
  | assign y v | assignBoth y v w | setBound side y new =>
    obtain rfl := Option.some.inj hx
    obtain ⟨slot, hslot, -⟩ := bind_eq_ok.mp h
    exact Table.lt_size_of_get? (slot_eq_ok_iff.mp hslot)
  | install y v | commit | revert | push | pop => cases hx

/-! ### Two copies -/

/-- Two full copies of the values: the present and the committed ones. -/
structure Copies where
  present : Var → DeltaRat
  committed : Var → DeltaRat

namespace Copies

def zero : Copies := ⟨fun _ => 0, fun _ => 0⟩

/-- What an edit does to two copies: a commit and a revert copy all values. -/
def apply (c : Copies) : Edit τ → Copies
  | .install x v => ⟨Function.update c.present x v, Function.update c.committed x v⟩
  | .assign x v => ⟨Function.update c.present x v, c.committed⟩
  | .assignBoth x v safe => ⟨Function.update c.present x v, Function.update c.committed x safe⟩
  | .commit => ⟨c.present, c.present⟩
  | .revert => ⟨c.committed, c.committed⟩
  | .setBound _ _ _ | .push | .pop => c

end Copies

/-- The store has the values of the copies. Every slot that saves a value is listed as changed, but what is listed need not save
    one. -/
structure Mirrors (c : Copies) (s : Store τ) : Prop where
  present : s.value = c.present
  committed : s.safe = c.committed
  tracks : s.Tracks
  inRange : s.InRange

variable {c : Copies}

theorem mirrors_empty : Mirrors .zero (empty : Store τ) := by
  have hget : ∀ x, (empty : Store τ).slots.get? x = none := fun x => Table.get?_empty x
  refine ⟨?_, ?_, fun {x a} ha _ => ?_, fun scope hscope => by cases hscope⟩
  · funext x
    simp [value, hget, Copies.zero]
  · funext x
    simp [safe, hget, Copies.zero]
  · cases (hget x).symm.trans ha

theorem InRange.install (h : s.InRange) (x : Var) (v : DeltaRat) : (s.install x v).InRange := by
  intro scope hscope d hd
  rw [(s.install_view x v).1]
  exact Nat.lt_of_lt_of_le (h scope hscope d hd) (Nat.le_max_left _ _)

theorem Mirrors.edit (h : Mirrors c s) (he : ∀ x ∈ e.target?, x < s.size) :
    ∃ t, e.apply s = .ok t ∧ Mirrors (c.apply e) t ∧ t.size = e.extent s.size := by
  obtain ⟨present, committed⟩ := c
  obtain ⟨rfl, rfl, htracks, hrange⟩ := h
  cases e with
  | install x v =>
    obtain ⟨hsize, hvalue', hsafe', -, htracks'⟩ := s.install_view x v
    exact ⟨_, rfl, ⟨hvalue', hsafe', htracks' htracks, hrange.install x v⟩, hsize⟩
  | assign x v =>
    obtain ⟨t, ht, hsame, hvalue', hsafe', htracks'⟩ := assign_ok (he x rfl) v
    exact ⟨t, ht, ⟨hvalue', hsafe', htracks' htracks, hsame.inRange hrange⟩, hsame.size⟩
  | assignBoth x v w =>
    obtain ⟨t, ht, hsame, hvalue', hsafe', htracks'⟩ := assignBoth_ok (he x rfl) v w
    exact ⟨t, ht, ⟨hvalue', hsafe', htracks' htracks, hsame.inRange hrange⟩, hsame.size⟩
  | commit =>
    obtain ⟨hsame, hvalue', hsafe', htracks'⟩ := commit_view htracks
    exact ⟨_, rfl, ⟨hvalue', hsafe', htracks', hsame.inRange hrange⟩, hsame.size⟩
  | revert =>
    obtain ⟨hsame, hvalue', hsafe', htracks'⟩ := revert_view htracks
    exact ⟨_, rfl, ⟨hvalue', hsafe', htracks', hsame.inRange hrange⟩, hsame.size⟩
  | setBound side x new =>
    obtain ⟨t, ht, hsize, hvalue', hsafe', -, -, htracks', hrange', -⟩ := setBound_ok (he x rfl) side new
    exact ⟨t, ht, ⟨hvalue', hsafe', htracks' htracks, hrange' hrange⟩, hsize⟩
  | push => exact ⟨_, rfl, ⟨rfl, rfl, htracks, inRange_push hrange⟩, rfl⟩
  | pop =>
    obtain ⟨hsize, hvalue', hsafe', htracks', hrange', -⟩ := pop_view hrange
    exact ⟨_, rfl, ⟨hvalue', hsafe', htracks' htracks, hrange'⟩, hsize⟩

theorem Mirrors.edits (h : Mirrors c s) (hes : OnSlots s.size es) :
    ∃ t, es.foldlM Edit.apply s = .ok t ∧ Mirrors (es.foldl Copies.apply c) t ∧ t.size = es.foldl Edit.extent s.size := by
  induction es generalizing c s with
  | nil => exact ⟨s, rfl, h, rfl⟩
  | cons e es ih =>
    obtain ⟨u, hu, hmirrors, hsize⟩ := h.edit hes.1
    obtain ⟨t, ht, hmirrors', hsize'⟩ := ih hmirrors (hsize ▸ hes.2)
    exact ⟨t, by rw [List.foldlM_cons, hu, ok_bind, ht], hmirrors', hsize'.trans (by rw [hsize, List.foldl_cons])⟩

theorem Mirrors.onSlots (h : Mirrors c s) (ht : es.foldlM Edit.apply s = .ok t) : OnSlots s.size es := by
  induction es generalizing c s with
  | nil => trivial
  | cons e es ih =>
    rw [List.foldlM_cons] at ht
    obtain ⟨u, hu, ht⟩ := bind_eq_ok.mp ht
    have he := Edit.apply_requires hu
    obtain ⟨u', hu', hmirrors, hsize⟩ := h.edit he
    cases hu.symm.trans hu'
    exact ⟨he, hsize ▸ ih hmirrors ht⟩

/-- Edits of a new store succeed exactly if they find their slots. Then every slot has the present and the committed value that
    the same edits give to two full copies. -/
theorem values_of_edits (es : List (Edit τ)) :
    ((∃ s, es.foldlM Edit.apply (empty : Store τ) = .ok s) ↔ OnSlots 0 es) ∧
    ∀ s, es.foldlM Edit.apply (empty : Store τ) = .ok s → s.size = es.foldl Edit.extent 0 ∧
      ∀ x < s.size, ∃ slot, s.slot x = .ok slot ∧ slot.value = (es.foldl Copies.apply .zero).present x ∧
        slot.safe = (es.foldl Copies.apply .zero).committed x := by
  refine ⟨⟨fun ⟨s, hs⟩ => mirrors_empty.onSlots hs, fun hes => ?_⟩, fun s hs => ?_⟩
  · obtain ⟨s, hs, -⟩ := mirrors_empty.edits hes
    exact ⟨s, hs⟩
  · obtain ⟨s', hs', hmirrors, hsize⟩ := mirrors_empty.edits (mirrors_empty.onSlots hs)
    cases hs.symm.trans hs'
    refine ⟨hsize, fun x hx => ?_⟩
    obtain ⟨slot, hslot, hget⟩ := slot_ok hx
    exact ⟨slot, hslot, by rw [← hmirrors.present, value_of_get? hget], by rw [← hmirrors.committed, safe_of_get? hget]⟩

/-- The variable `0` is listed twice, once in vain: its slot gives up the value that it saved, and saves another one. Then the
    slot is made anew while it is listed. -/
def relistings : List (Edit Nat) :=
  [.install 1 (.ofRat 4), .assign 0 (.ofRat 3), .assignBoth 0 (.ofRat 5) (.ofRat 5), .assign 0 (.ofRat 6), .assign 1 (.ofRat 2),
    .revert, .assign 0 (.ofRat 8), .install 0 (.ofRat 7), .assign 1 (.ofRat 9)]

theorem values_of_edits_relistings : ∃ (s : Store Nat) (a b : Slot Nat), relistings.foldlM Edit.apply empty = .ok s ∧ s.size = 2 ∧
    s.slot 0 = .ok a ∧ a.value = .ofRat 7 ∧ a.safe = .ofRat 7 ∧ s.slot 1 = .ok b ∧ b.value = .ofRat 9 ∧ b.safe = .ofRat 4 := by
  obtain ⟨hsucceeds, hvalues⟩ := values_of_edits relistings
  obtain ⟨s, hs⟩ := hsucceeds.mpr (by decide)
  obtain ⟨hsize, hslots⟩ := hvalues s hs
  obtain ⟨a, ha, hvalue, hsafe⟩ := hslots 0 (by rw [hsize]; decide)
  obtain ⟨b, hb, hvalue', hsafe'⟩ := hslots 1 (by rw [hsize]; decide)
  exact ⟨s, a, b, hs, hsize, ha, hvalue.trans (by decide +kernel), hsafe.trans (by decide +kernel), hb,
    hvalue'.trans (by decide +kernel), hsafe'.trans (by decide +kernel)⟩

/-! ### Scopes -/

/-- The edits close just the scopes that they open. -/
def Nested (es : List (Edit τ)) : Prop := es.foldlM Edit.depth 0 = some 0

/-- The variables whose bounds are set while no more scopes are open than before, if there are `k` more at first. -/
def directly : Nat → List (Edit τ) → List Var
  | _, [] => []
  | k, e :: es => (if k = 0 then e.bounded else []) ++ directly ((e.depth k).getD 0) es

/-- `t` lies inside a scope that was opened on `s`: `scope` are the changes made in it, and `inner` those in the scopes inside it.
    Undoing all of them gives the bounds at the opening. -/
structure Inside (s : Store τ) (inner : List (List (BoundChange τ))) (scope : List (BoundChange τ)) (t : Store τ) : Prop where
  size : t.size = s.size
  scopes : t.scopes = inner ++ scope :: s.scopes
  inRange : ∀ d ∈ inner.flatten ++ scope, d.var < s.size
  bounds : undo (inner.flatten ++ scope) t.bounds = s.bounds

variable {inner : List (List (BoundChange τ))} {scope : List (BoundChange τ)} {u : Store τ}

theorem inside_push (s : Store τ) : Inside s [] [] s.push := ⟨rfl, scopes_push s, fun _ hd => (List.not_mem_nil hd).elim, rfl⟩

theorem undo_append (ds ds' : List (BoundChange τ)) (b : Bounds τ) : undo (ds ++ ds') b = undo ds' (undo ds b) :=
  List.foldl_append

theorem Inside.congr (h : Inside s inner scope t) (hsame : SameBounds t u) : Inside s inner scope u :=
  ⟨hsame.size.trans h.size, hsame.scopes.trans h.scopes, h.inRange, by rw [hsame.bounds]; exact h.bounds⟩

/-- A change is undone before those made until then. -/
theorem Inside.setBound (h : Inside s inner scope t) {side : Side} {x : Var} {new : Bound τ} (hx : x < t.size) :
    ∃ u inner' scope', t.setBound side x new = .ok u ∧ Inside s inner' scope' u ∧ inner'.length = inner.length ∧
      scope'.map (·.var) = (if inner.length = 0 then [x] else []) ++ scope.map (·.var) := by
  obtain ⟨u, hu, hsize, -, -, hset, -, -, -, hscopes⟩ := setBound_ok hx side new
  rw [h.scopes] at hscopes
  have hback : ∀ ds : List (BoundChange τ), undo (⟨x, side, t.bounds side x⟩ :: ds) u.bounds = undo ds t.bounds := by
    intro ds
    rw [undo, List.foldl_cons, hset, Bounds.set_set, Bounds.set_self, undo]
  have hin : ∀ ds : List (BoundChange τ), (∀ d ∈ ds, d.var < s.size) →
      ∀ d ∈ (⟨x, side, t.bounds side x⟩ :: ds : List (BoundChange τ)), d.var < s.size := by
    intro ds hds d hd
    rcases List.mem_cons.mp hd with rfl | hd
    · exact Nat.lt_of_lt_of_eq hx h.size
    · exact hds d hd
  cases inner with
  | nil =>
    refine ⟨u, [], ⟨x, side, t.bounds side x⟩ :: scope, hu, ⟨hsize.trans h.size, hscopes, hin _ h.inRange, ?_⟩, rfl, rfl⟩
    exact (hback scope).trans h.bounds
  | cons first rest =>
    refine ⟨u, (⟨x, side, t.bounds side x⟩ :: first) :: rest, scope, hu,
      ⟨hsize.trans h.size, hscopes, hin _ h.inRange, ?_⟩, rfl, rfl⟩
    exact (hback _).trans h.bounds

theorem Inside.edit (h : Inside s inner scope t) (hnew : ∀ x v, e ≠ .install x v) (he : ∀ x ∈ e.target?, x < t.size)
    {k : Nat} (hk : e.depth inner.length = some k) :
    ∃ u inner' scope', e.apply t = .ok u ∧ Inside s inner' scope' u ∧ inner'.length = k ∧
      scope'.map (·.var) = (if inner.length = 0 then e.bounded else []) ++ scope.map (·.var) := by
  have hstay : ∀ {u}, e.apply t = .ok u → SameBounds t u → e.bounded = [] → k = inner.length →
      ∃ u inner' scope', e.apply t = .ok u ∧ Inside s inner' scope' u ∧ inner'.length = k ∧
        scope'.map (·.var) = (if inner.length = 0 then e.bounded else []) ++ scope.map (·.var) := by
    intro u hu hsame hbounded hlength
    refine ⟨u, inner, scope, hu, h.congr hsame, hlength.symm, ?_⟩
    rw [hbounded, ite_self, List.nil_append]
  cases e with
  | install x v => exact absurd rfl (hnew x v)
  | assign x v =>
    obtain ⟨u, hu, hsame, -⟩ := assign_ok (he x rfl) v
    exact hstay hu hsame rfl (Option.some.inj hk).symm
  | assignBoth x v w =>
    obtain ⟨u, hu, hsame, -⟩ := assignBoth_ok (he x rfl) v w
    exact hstay hu hsame rfl (Option.some.inj hk).symm
  | commit => exact hstay rfl (sameBounds_commit t) rfl (Option.some.inj hk).symm
  | revert => exact hstay rfl (sameBounds_revert t) rfl (Option.some.inj hk).symm
  | setBound side x new =>
    obtain rfl := Option.some.inj hk
    exact h.setBound (he x rfl)
  | push =>
    refine ⟨t.push, [] :: inner, scope, rfl, ⟨h.size, ?_, h.inRange, h.bounds⟩, Option.some.inj hk, ?_⟩
    · rw [scopes_push, h.scopes]
      rfl
    · simp only [Edit.bounded, ite_self, List.nil_append]
  | pop =>
    -- An inner scope is closed; its changes are the latest ones, so they are the first to be undone.
    cases inner with
    | nil => cases hk
    | cons first rest =>
      obtain ⟨-, hsize, -, -, -, hscopes, hbounds⟩ := pop_of_scopes h.scopes fun d hd =>
        Nat.lt_of_lt_of_eq (h.inRange d (List.mem_append_left _ (List.mem_append_left _ hd))) h.size.symm
      refine ⟨t.pop.2, rest, scope, rfl, ⟨hsize.trans h.size, hscopes, fun d hd => h.inRange d ?_, ?_⟩, ?_, rfl⟩
      · rw [List.flatten_cons, List.append_assoc]
        exact List.mem_append_right _ hd
      · rw [hbounds, ← undo_append, ← List.append_assoc, ← List.flatten_cons]
        exact h.bounds
      · simpa [Edit.depth] using hk

theorem Inside.edits (h : Inside s inner scope t) (hnew : ∀ x v, Edit.install x v ∉ es) (hes : OnSlots t.size es) {k : Nat}
    (hk : es.foldlM Edit.depth inner.length = some k) :
    ∃ u inner' scope', es.foldlM Edit.apply t = .ok u ∧ Inside s inner' scope' u ∧ inner'.length = k ∧
      scope'.map (·.var) = (directly inner.length es).reverse ++ scope.map (·.var) := by
  induction es generalizing t inner scope with
  | nil => exact ⟨t, inner, scope, rfl, h, Option.some.inj hk, rfl⟩
  | cons e es ih =>
    rw [List.foldlM_cons] at hk
    obtain ⟨j, hj, hk⟩ := Option.bind_eq_some_iff.mp hk
    obtain ⟨t', inner', scope', ht', hinside, rfl, hvars⟩ := h.edit (fun x v he => hnew x v (he ▸ List.mem_cons_self)) hes.1 hj
    have hsize : e.extent t.size = t'.size := by
      rw [hinside.size, ← h.size]
      cases e with
      | install x v => exact absurd List.mem_cons_self (hnew x v)
      | assign _ _ | assignBoth _ _ _ | commit | revert | setBound _ _ _ | push | pop => rfl
    obtain ⟨u, inner'', scope'', hu, hinside', hlength, hvars'⟩ :=
      ih hinside (fun x v he => hnew x v (List.mem_cons_of_mem _ he)) (hsize ▸ hes.2) hk
    refine ⟨u, inner'', scope'', by rw [List.foldlM_cons, ht', ok_bind, hu], hinside', hlength, ?_⟩
    have hreverse : ∀ f : Edit τ, f.bounded.reverse = f.bounded := fun f => by cases f <;> rfl
    rw [hvars', hvars, directly, hj, Option.getD_some, List.reverse_append, List.append_assoc]
    congr 2
    split
    · rw [hreverse]
    · rfl

/-- A scope that is closed gives back the bounds at its opening, with their tokens, and leaves values and outer scopes alone. It
    answers the variables whose bounds were set directly in it, the latest first. -/
theorem push_pop_restores (s : Store τ) (es : List (Edit τ)) (hnew : ∀ x v, Edit.install x v ∉ es) (hes : OnSlots s.size es)
    (hnested : Nested es) :
    ∃ t, es.foldlM Edit.apply s.push = .ok t ∧ t.pop.1 = (directly 0 es).reverse ∧ t.pop.2.size = s.size ∧
      t.pop.2.bounds = s.bounds ∧ t.pop.2.value = t.value ∧ t.pop.2.safe = t.safe ∧ t.pop.2.depth = s.depth ∧
      t.pop.2.trail = s.trail := by
  obtain ⟨t, inner, scope, ht, hinside, hlength, hvars⟩ := (inside_push s).edits hnew hes hnested
  obtain rfl := List.eq_nil_of_length_eq_zero hlength
  obtain ⟨hanswer, hsize, hvalue, hsafe, -, hscopes, hbounds⟩ := pop_of_scopes hinside.scopes fun d hd =>
    Nat.lt_of_lt_of_eq (hinside.inRange d hd) hinside.size.symm
  have htrail : t.pop.2.trail = s.trail := Trail.ext_scopes hscopes
  refine ⟨t, ht, ?_, hsize.trans hinside.size, hbounds.trans hinside.bounds, hvalue, hsafe, congrArg Trail.depth htrail, htrail⟩
  rw [hanswer, hvars, List.map_nil, List.append_nil]
  rfl

/-- Bounds are set twice and loosened, partly in an inner scope, and a value is committed. -/
def resettings : List (Edit Nat) :=
  [.setBound .lower 0 ⟨.ofRat 3, 1⟩, .push, .setBound .upper 1 ⟨.ofRat 9, 2⟩, .setBound .lower 0 ⟨.ofRat 5, 3⟩, .pop,
    .setBound .lower 0 ⟨.ofRat 1, 4⟩, .assign 1 (.ofRat 2), .commit, .setBound .upper 1 ⟨.ofRat 8, 5⟩]

theorem push_pop_restores_resettings : ∃ s t : Store Nat,
    ((empty.install 0 0).install 1 0).setBound .lower 0 ⟨.ofRat 2, 0⟩ = .ok s ∧ resettings.foldlM Edit.apply s.push = .ok t ∧
      t.pop.1 = [1, 0, 0] ∧ t.pop.2.bounds .lower 0 = some ⟨.ofRat 2, 0⟩ ∧ t.pop.2.bounds .upper 1 = none ∧
      t.pop.2.depth = 0 ∧ t.pop.2.value 1 = t.value 1 := by
  have hrun : (do
      let s ← ((empty.install 0 0).install 1 0).setBound .lower 0 ⟨.ofRat 2, 0⟩
      return (s.size, s.bounds .lower 0, s.bounds .upper 1, s.depth)) =
      (.ok (2, some ⟨.ofRat 2, 0⟩, none, 0) : Except Fault (Nat × Option (Bound Nat) × Option (Bound Nat) × Nat)) := by
    decide +kernel
  obtain ⟨s, hs, hrun⟩ := bind_eq_ok.mp hrun
  have hview := Except.ok.inj hrun
  simp only [Prod.mk.injEq] at hview
  obtain ⟨hsize, hlower, hupper, hdepth⟩ := hview
  obtain ⟨t, ht, hanswer, -, hbounds, hvalue, -, hdepth', -⟩ := push_pop_restores s resettings
    (fun x v h => by simp [resettings] at h) (by rw [hsize]; decide) rfl
  exact ⟨s, t, hs, ht, hanswer, by rw [hbounds, hlower], by rw [hbounds, hupper], hdepth'.trans hdepth, congrFun hvalue 1⟩

end LinReal.Store
