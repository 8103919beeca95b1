import LinReal.Proofs.Tally
import LinReal.Proofs.Solver.Histories
import LinReal.Proofs.Solver.Records

/-! Reports. Every conflict that a call answers is reported, and nothing else is. All are counted but those that the early scan
    answers: the scan has a count of its own, of the conflicts that it comes upon, and `Tally.conflicts` leaves it out. -/

namespace LinReal

/-- The events that `Tally.conflicts` counts. -/
def Event.isConflict : Event → Bool
  | lowerConflict | upperConflict | equalityConflict | updateConflict => true
  | _ => false

namespace Tally

theorem conflicts_ofEvents (es : List Event) : (ofEvents es).conflicts = es.countP (·.isConflict) := by
  have key : ∀ (es : List Event) (t : Tally), (es.foldl count t).conflicts = t.conflicts + es.countP (·.isConflict) := by
    intro es
    induction es with
    | nil => exact fun _ => rfl
    | cons e es ih =>
      intro t
      rw [List.foldl_cons, ih, List.countP_cons]
      cases e <;> (simp [conflicts, count, Event.isConflict]; try omega)
  exact (key es zero).trans (Nat.zero_add _)

theorem earlyConflicts_ofEvents (es : List Event) : (ofEvents es).earlyConflicts = es.count .earlyConflict :=
  counter_ofEvents es .earlyConflict

end Tally

namespace Solver

variable {τ β : Type} {s t u : Solver τ} {x l e : Var} {v : DeltaRat} {budget : Budget β} {b b' : β} {o : Outcome τ}
  {p : Option (Outcome τ)} {c : Conflict τ} {answer : Option (Conflict τ)} {j k n : Nat}

/-- Some conflicts have been counted, and none reported. -/
structure Noted (k : Nat) (s t : Solver τ) : Prop where
  settings : t.settings = s.settings
  reported : t.reported = s.reported
  conflicts : t.tally.conflicts = s.tally.conflicts + k
  early : t.tally.earlyConflicts = s.tally.earlyConflicts

theorem noted_of_record (h : t.record = s.record) : Noted 0 s t :=
  ⟨congrArg Record.settings h, congrArg Record.reported h, by rw [tally, log_of_record h, tally, Nat.add_zero],
    by rw [tally, log_of_record h, tally]⟩

theorem noted_note (s : Solver τ) {e : Event} (he : e ≠ .earlyConflict) : Noted (if e.isConflict then 1 else 0) s (s.note e) where
  settings := rfl
  reported := rfl
  conflicts := by rw [tally, tally, Tally.conflicts_ofEvents, Tally.conflicts_ofEvents, note, List.countP_cons]
  early := by
    rw [tally, tally, Tally.earlyConflicts_ofEvents, Tally.earlyConflicts_ofEvents, note, List.count_cons_of_ne he]

theorem Noted.trans (h₁ : Noted j s t) (h₂ : Noted k t u) : Noted (j + k) s u where
  settings := h₂.settings.trans h₁.settings
  reported := h₂.reported.trans h₁.reported
  conflicts := by rw [h₂.conflicts, h₁.conflicts, Nat.add_assoc]
  early := h₂.early.trans h₁.early

theorem Noted.other (h : Noted k s t) (e : Event) (hc : e.isConflict = false) (he : e ≠ .earlyConflict) :
    Noted k s (t.note e) := by
  have hnote := h.trans (noted_note t he)
  rwa [hc] at hnote

theorem Noted.conflict (h : Noted 0 s t) {e : Event} (hc : e.isConflict = true) : Noted 1 s (t.note e) := by
  have hne : e ≠ .earlyConflict := by
    rintro rfl
    cases hc
  have hnote := h.trans (noted_note t hne)
  rwa [hc] at hnote

/-! ### Searches -/

theorem noted_notePivot (s : Solver τ) : Noted 0 s s.notePivot := by
  have hnote : Noted 0 s (s.note .pivot) := (noted_of_record rfl).other .pivot rfl (by decide)
  have hcount : Noted 0 s { s.note .pivot with pivotsSinceConflict := (s.note .pivot).pivotsSinceConflict + 1 } :=
    ⟨hnote.settings, hnote.reported, hnote.conflicts, hnote.early⟩
  unfold notePivot
  simp only
  split
  · refine Noted.other ?_ .pivotAfterConflict rfl (by decide)
    split
    · exact hcount.other .wastefulCheck rfl (by decide)
    · exact hcount
  · exact hnote

theorem noted_pivot (h : s.pivot l e v = .ok t) : Noted 0 s t := by
  obtain ⟨u, hu, ht⟩ := record_pivot h
  exact ((noted_of_record hu).trans (noted_notePivot u)).trans (noted_of_record ht)

theorem noted_update (h : s.update x v = .ok t) : Noted 0 s t :=
  Noted.trans (Noted.other (noted_of_record rfl) .update rfl (by decide)) (noted_of_record (record_update h))

theorem noted_settleBound {move : DeltaRat → Bool} (h : s.settleBound x v move = .ok t) : Noted 0 s t := by
  rcases record_settleBound h with h | h
  · exact noted_of_record h
  · exact ((noted_of_record rfl).other .update rfl (by decide)).trans (noted_of_record h)

theorem noted_clamp (h : s.clamp x = .ok t) : Noted 0 s t := by
  rcases record_clamp h with h | h
  · exact noted_of_record h
  · exact ((noted_of_record rfl).other .update rfl (by decide)).trans (noted_of_record h)

theorem noted_revert (h : s.revert = .ok t) : Noted 0 s t := by
  have hclamps : ∀ {xs : List Var} {s u : Solver τ}, xs.foldlM clamp s = .ok u → Noted 0 s u := by
    intro xs
    induction xs with
    | nil =>
      intro s u hu
      cases hu
      exact noted_of_record rfl
    | cons y ys ih =>
      intro s u hu
      rw [List.foldlM_cons] at hu
      obtain ⟨w, hw, hu⟩ := bind_eq_ok.mp hu
      exact (noted_clamp hw).trans (ih hu)
  obtain ⟨u, hu, h⟩ := bind_eq_ok.mp h
  have hback : Noted 0 s { s with store := s.store.revert } := noted_of_record rfl
  exact (hback.trans (hclamps hu)).trans (noted_of_record (record_inspectAll h))

theorem noted_openRound (h : s.openRound = .ok t) : Noted 0 s t := by
  rcases openRound_inv h with rfl | rfl
  · exact noted_of_record rfl
  · have hswitch : Noted 0 s { s with queue := s.queue.switch } := noted_of_record rfl
    exact hswitch.other .antiCycle rfl (by decide)

theorem noted_counted {taken : Option (Var × Violation τ)} (ht : s.takeViolated = (taken, t))
    (hu : u = { t with rounds := t.rounds + 1 }) : Noted 0 s u :=
  (noted_of_record (record_takeViolated ht)).trans (noted_of_record (hu ▸ rfl))

variable [DecidableEq τ]

/-- A round counts the conflict that it ends with. -/
theorem noted_round (h : s.round = .ok (p, t)) : Noted (p.bind (·.conflict?)).toList.length s t := by
  cases round_inv h with
  | satisfied ht => exact noted_of_record (record_takeViolated ht)
  | blocked ht hu hp hc => exact (noted_counted ht hu).conflict rfl
  | refuted ht hu hp hw hc =>
    exact ((noted_counted ht hu).trans (noted_pivot hw)).conflict rfl
  | moved ht hu hp hw hc => exact (noted_counted ht hu).trans (noted_pivot hw)

theorem noted_pass (h : s.pass budget b = .ok (p, b', t)) : Noted (p.bind (·.conflict?)).toList.length s t := by
  obtain ⟨-, hpass⟩ := pass_inv h
  cases hpass with
  | stopped hu hask => exact noted_openRound hu
  | allowed hu hask ht => exact Nat.zero_add (p.bind (·.conflict?)).toList.length ▸ (noted_openRound hu).trans (noted_round ht)

theorem noted_runRounds (h : s.runRounds budget n b = .ok (o, b', t)) : Noted o.conflict?.toList.length s t := by
  induction n generalizing s b with
  | zero => cases h
  | succ n ih =>
    obtain ⟨⟨p, d, u⟩, hu, h⟩ := bind_eq_ok.mp h
    cases p with
    | none => exact Nat.zero_add o.conflict?.toList.length ▸ (noted_pass hu).trans (ih h)
    | some p =>
      cases h
      exact noted_pass hu

/-! ### The early scan -/

/-- The scan counts the conflict that it answers, and maybe others, in its own count. -/
structure Scanned (s t : Solver τ) (answer : Option (Conflict τ)) : Prop where
  settings : t.settings = s.settings
  reported : t.reported = s.reported
  conflicts : t.tally.conflicts = s.tally.conflicts
  early : s.tally.earlyConflicts + answer.toList.length ≤ t.tally.earlyConflicts

omit [DecidableEq τ] in
theorem Noted.scanned (h : Noted 0 s t) : Scanned s t none := ⟨h.settings, h.reported, h.conflicts, h.early.ge⟩

theorem scanned_earlyConflict (h : s.earlyConflict = .ok (answer, t)) : Scanned s t answer := by
  obtain ⟨u, answers, hu, -, rfl, rfl⟩ := earlyConflict_inv h
  obtain ⟨hsettings, hreported, hconflicts, hearly⟩ := noted_of_record hu.record
  refine ⟨hsettings, hreported, ?_, ?_⟩
  · have hother : (scanNotes (answers.filterMap id)).countP (·.isConflict) = 0 := by
      refine List.countP_eq_zero.mpr fun e he => ?_
      rcases mem_scanNotes he with rfl | rfl <;> decide
    rw [← Nat.add_zero s.tally.conflicts, ← hconflicts, tally, tally, Tally.conflicts_ofEvents, Tally.conflicts_ofEvents,
      List.countP_append, hother, Nat.zero_add]
  · rw [← hearly, tally, tally, Tally.earlyConflicts_ofEvents, Tally.earlyConflicts_ofEvents, List.count_append,
      count_scanNotes, Nat.add_comm]
    refine Nat.add_le_add_right ?_ _
    cases hsmallest : Conflict.smallest (answers.filterMap id) with
    | none => exact Nat.zero_le _
    | some p => exact List.length_pos_of_mem (Conflict.mem_of_smallest hsmallest)

theorem scanned_beginRepair (h : s.beginRepair = .ok (answer, t)) : Scanned s t answer := by
  unfold beginRepair at h
  simp only at h
  split at h
  · obtain ⟨hsettings, hreported, hconflicts, hearly⟩ := scanned_earlyConflict h
    exact ⟨hsettings, hreported, hconflicts, hearly⟩
  · cases h
    have hbegun : Noted 0 s { s with foundConflict := false, pivotsSinceConflict := 0 } := noted_of_record rfl
    exact hbegun.scanned

/-! ### Calls -/

/-- The conflict that a call answers is all that it reports. It is counted, or the early scan, if it is on, has counted it in
    its own way. -/
structure Recorded (s t : Solver τ) (answer : Option (Conflict τ)) : Prop where
  settings : t.settings = s.settings
  reported : t.reported = answer.toList ++ s.reported
  least : t.tally.conflicts ≤ s.tally.conflicts + answer.toList.length
  most : s.tally.conflicts + s.tally.earlyConflicts + answer.toList.length ≤ t.tally.conflicts + t.tally.earlyConflicts
  counted : s.settings.earlyScan = false → t.tally.conflicts = s.tally.conflicts + answer.toList.length

omit [DecidableEq τ] in
theorem Noted.quiet (h : Noted 0 s t) : Recorded s t none where
  settings := h.settings
  reported := h.reported
  least := h.conflicts.le
  most := by rw [h.conflicts, h.early]; exact Nat.le_refl _
  counted _ := h.conflicts

omit [DecidableEq τ] in
/-- A conflict that has been counted is reported. -/
theorem Noted.reports (h : Noted 1 s t) (hu : u.record = (t.report c).record) : Recorded s u (some c) := by
  have htally : u.tally = t.tally := congrArg Tally.ofEvents (congrArg Record.log hu)
  have hreported : u.reported = c :: t.reported := congrArg Record.reported hu
  refine ⟨(congrArg Record.settings hu).trans h.settings, by rw [hreported, h.reported]; rfl, ?_, ?_, fun _ => ?_⟩
  · rw [htally, h.conflicts]
    exact Nat.le_refl _
  · rw [htally, h.conflicts, h.early]
    exact (Nat.add_right_comm _ _ _).le
  · rw [htally, h.conflicts]
    rfl

omit [DecidableEq τ] in
theorem isConflict_refusal (a : Assertion τ) : a.refusal.isConflict = true := by
  cases a with
  | bound side x v token => cases side <;> rfl
  | equal x v token => rfl

theorem recorded_assert {a : Assertion τ} (h : a.apply s = .ok (answer, t)) : Recorded s t answer := by
  have hregister : Noted 0 s (s.register a.var) := noted_of_record (record_register s a.var)
  cases Assertion.apply_inv h with
  | redundant => exact hregister.quiet
  | refused => exact (hregister.conflict (isConflict_refusal a)).reports rfl
  | @narrowed _ store _ _ _ _ _ hstore ht =>
    have hbounds : Noted 0 s { s.register a.var with store := store } := noted_of_record (record_register s a.var)
    exact (hbounds.trans (noted_settleBound ht)).quiet

theorem recorded_search (h : s.repairUpTo n budget b = .ok (o, b', t)) : Recorded s t o.conflict? := by
  cases repairUpTo_inv h with
  | idle he => exact Noted.quiet (noted_of_record rfl)
  | @early u t c he hu ht =>
    -- The scan has counted the conflict, and only as one of its own.
    obtain ⟨hsettings, hreported, hconflicts, hearly⟩ := scanned_beginRepair hu
    have hrecord := record_leaveRepair_unsat ht
    have htally : t.tally = u.tally := congrArg Tally.ofEvents (congrArg Record.log hrecord)
    refine ⟨(congrArg Record.settings hrecord).trans hsettings, ?_, ?_, ?_, fun hscan => ?_⟩
    · rw [show t.reported = c :: u.reported from congrArg Record.reported hrecord, hreported]
      rfl
    · rw [htally, hconflicts]
      exact Nat.le_add_right _ _
    · rw [htally, hconflicts, Nat.add_assoc]
      exact Nat.add_le_add_left hearly _
    · rw [beginRepair_of_scan_off hscan] at hu
      cases hu
  | @passes u w t o b' he hu hw ht =>
    obtain ⟨hsettings, hreported, hconflicts, hearly⟩ := scanned_beginRepair hu
    have hrun := noted_runRounds hw
    have hleave : Recorded u t o.conflict? := by
      cases o with
      | unsat c => exact hrun.reports (record_leaveRepair_unsat ht)
      | sat | interrupted => exact (hrun.trans (noted_of_record (record_leaveRepair_of_ne ht rfl))).quiet
    obtain ⟨hsettings', hreported', hleast, hmost, hcounted⟩ := hleave
    refine ⟨hsettings'.trans hsettings, by rw [hreported', hreported], by rwa [hconflicts] at hleast, ?_, fun hscan => ?_⟩
    · rw [hconflicts] at hmost
      rw [Option.toList_none, List.length_nil, Nat.add_zero] at hearly
      omega
    · rw [hcounted (hsettings ▸ hscan), hconflicts]

theorem Action.recorded {a : Action τ} (h : a.apply s = .ok (answer, t)) : Recorded s t answer := by
  cases a with
  | register x =>
    cases h
    exact (noted_of_record (record_register s x)).quiet
  | addRow x d =>
    obtain ⟨u, hu, h⟩ := bind_eq_ok.mp h
    cases h
    exact (noted_of_record (record_addRow hu)).quiet
  | assert a => exact recorded_assert h
  | update x v =>
    obtain ⟨u, hu, h⟩ := bind_eq_ok.mp h
    cases h
    exact (noted_update hu).quiet
  | pivot l e v =>
    obtain ⟨u, hu, h⟩ := bind_eq_ok.mp h
    cases h
    exact (noted_pivot hu).quiet
  | search budget b n =>
    obtain ⟨⟨o, b', u⟩, hu, h⟩ := bind_eq_ok.mp h
    cases h
    exact recorded_search hu
  | commit | push =>
    cases h
    exact Noted.quiet (noted_of_record rfl)
  | revert =>
    obtain ⟨u, hu, h⟩ := bind_eq_ok.mp h
    cases h
    exact (noted_revert hu).quiet
  | pop =>
    obtain ⟨u, hu, h⟩ := bind_eq_ok.mp h
    cases h
    have hsame : t.record = s.record := (record_inspectAll hu).trans rfl
    exact (noted_of_record hsame).quiet

/-! ### Transcripts -/

/-- The states that calls lead to from a solver without variables, with these calls and the conflict that each of them
    answered, the latest first. -/
inductive Transcript (settings : Settings) : List (Action τ × Option (Conflict τ)) → Solver τ → Prop where
  | new : Transcript settings [] (new settings)
  | act {ps : List (Action τ × Option (Conflict τ))} {s t : Solver τ} {answer : Option (Conflict τ)}
      (h : Transcript settings ps s) (a : Action τ) (ht : a.apply s = .ok (answer, t)) :
      Transcript settings ((a, answer) :: ps) t

def Action.isSearch : Action τ → Bool
  | search _ _ _ => true
  | _ => false

def Action.isAssertion : Action τ → Bool
  | assert _ => true
  | _ => false

/-- Only assertions and searches answer conflicts. -/
theorem Action.of_answer {a : Action τ} (h : a.apply s = .ok (some c, t)) :
    (a.isAssertion = true ∧ a.isSearch = false) ∨ (a.isAssertion = false ∧ a.isSearch = true) := by
  cases a with
  | assert a => exact Or.inl ⟨rfl, rfl⟩
  | search budget b n => exact Or.inr ⟨rfl, rfl⟩
  | register x => cases h
  | commit => cases h
  | push => cases h
  | addRow x d | update x v | pivot l e v | revert | pop =>
    obtain ⟨u, -, h⟩ := bind_eq_ok.mp h
    cases h

variable {settings : Settings} {ps : List (Action τ × Option (Conflict τ))}

theorem Transcript.settings_eq (h : Transcript settings ps s) : s.settings = settings := by
  induction h with
  | new => rfl
  | act _ a ht ih => exact (Action.recorded ht).settings.trans ih

theorem Transcript.reported_eq (h : Transcript settings ps s) : s.reported = ps.filterMap (·.2) := by
  induction h with
  | new => rfl
  | @act ps s t answer _ a ht ih =>
    rw [(Action.recorded ht).reported, ih]
    cases answer <;> rfl

theorem Transcript.length_reported (h : Transcript settings ps s) : s.reported.length =
    ps.countP (fun p => p.1.isAssertion && p.2.isSome) + ps.countP (fun p => p.1.isSearch && p.2.isSome) := by
  induction h with
  | new => rfl
  | @act ps s t answer _ a ht ih =>
    rw [(Action.recorded ht).reported, List.length_append, ih, List.countP_cons, List.countP_cons]
    cases answer with
    | none => simp
    | some c =>
      obtain ⟨ha, hs⟩ | ⟨ha, hs⟩ := Action.of_answer ht
      · simp [ha, hs]
        omega
      · simp [ha, hs]
        omega

theorem Transcript.conflicts_le (h : Transcript settings ps s) :
    s.tally.conflicts ≤ s.reported.length ∧ s.reported.length ≤ s.tally.conflicts + s.tally.earlyConflicts ∧
      (settings.earlyScan = false → s.tally.conflicts = s.reported.length) := by
  induction h with
  | new => exact ⟨Nat.le_refl 0, Nat.le_refl 0, fun _ => rfl⟩
  | @act ps s t answer h a ht ih =>
    obtain ⟨hleast, hmost, hexact⟩ := ih
    obtain ⟨-, hreported, hleast', hmost', hcounted⟩ := Action.recorded ht
    rw [hreported, List.length_append]
    refine ⟨by omega, by omega, fun hoff => ?_⟩
    rw [hcounted (h.settings_eq ▸ hoff), hexact hoff, Nat.add_comm]

/-- The conflicts reported are those answered by assertions and by searches, in their order. `Tally.conflicts` never counts more,
    and the conflicts of the early scan make up for the difference; so it counts all if the scan is off. -/
theorem Transcript.accounts (h : Transcript settings ps s) :
    s.reported = ps.filterMap (·.2) ∧
      s.reported.length =
        ps.countP (fun p => p.1.isAssertion && p.2.isSome) + ps.countP (fun p => p.1.isSearch && p.2.isSome) ∧
      s.tally.conflicts ≤ s.reported.length ∧ s.reported.length ≤ s.tally.conflicts + s.tally.earlyConflicts ∧
      (settings.earlyScan = false → s.tally.conflicts = s.reported.length) :=
  ⟨h.reported_eq, h.length_reported, h.conflicts_le⟩

/-- Without the scan: an assertion is refused, a search finds a row that cannot reach its bound, and both conflicts are counted. -/
theorem Transcript.accounts_of_sum : ∃ (ps : List (Action Nat × Option (Conflict Nat))) (s : Solver Nat),
    Transcript ⟨false, none, false⟩ ps s ∧ ps.map (·.2) = [some ⟨[2, 0, 1]⟩, none, some ⟨[0, 9]⟩, none, none, none] ∧
      s.reported = [⟨[2, 0, 1]⟩, ⟨[0, 9]⟩] ∧ s.tally.conflicts = s.reported.length := by
  have hrun : (do
      let s ← (Solver.new ⟨false, none, false⟩).addRow 2 [(0, 1), (1, 1)]
      let (a₂, s) ← s.assertBound .upper 0 (.ofRat 0) 0
      let (a₃, s) ← s.assertBound .upper 1 (.ofRat 0) 1
      let (a₄, s) ← s.assertBound .lower 0 (.ofRat 1) 9
      let (a₅, s) ← s.assertBound .lower 2 (.ofRat 2) 2
      let (o, _, _) ← s.repairUpTo 9 .unlimited ()
      return [o.conflict?, a₅, a₄, a₃, a₂]) =
      (.ok [some ⟨[2, 0, 1]⟩, none, some ⟨[0, 9]⟩, none, none] : Except Fault (List (Option (Conflict Nat)))) := by
    decide +kernel
  obtain ⟨s₁, h₁, hrun⟩ := bind_eq_ok.mp hrun
  obtain ⟨⟨a₂, s₂⟩, h₂, hrun⟩ := bind_eq_ok.mp hrun
  obtain ⟨⟨a₃, s₃⟩, h₃, hrun⟩ := bind_eq_ok.mp hrun
  obtain ⟨⟨a₄, s₄⟩, h₄, hrun⟩ := bind_eq_ok.mp hrun
  obtain ⟨⟨a₅, s₅⟩, h₅, hrun⟩ := bind_eq_ok.mp hrun
  obtain ⟨⟨o, b, s₆⟩, h₆, hanswers⟩ := bind_eq_ok.mp hrun
  have hnew : Transcript ⟨false, none, false⟩ [] (Solver.new ⟨false, none, false⟩ : Solver Nat) := .new
  have hs := ((((hnew.act (.addRow 2 [(0, 1), (1, 1)])
    (show (Solver.new _).addRow _ _ >>= _ = _ from bind_eq_ok.mpr ⟨s₁, h₁, rfl⟩)).act
    (.assert (.bound .upper 0 (.ofRat 0) 0)) h₂).act (.assert (.bound .upper 1 (.ofRat 0) 1)) h₃).act
    (.assert (.bound .lower 0 (.ofRat 1) 9)) h₄).act (.assert (.bound .lower 2 (.ofRat 2) 2)) h₅
  have ht := hs.act (.search .unlimited () 9) (bind_eq_ok.mpr ⟨_, h₆, rfl⟩)
  obtain ⟨hreported, -, -, -, hall⟩ := ht.accounts
  have hanswers' := Except.ok.inj hanswers
  simp only [List.cons.injEq, and_true] at hanswers'
  obtain ⟨h₆', h₅', h₄', h₃', h₂'⟩ := hanswers'
  refine ⟨_, s₆, ht, ?_, ?_, hall rfl⟩
  · simp [h₆', h₅', h₄', h₃', h₂']
  · rw [hreported]
    simp [h₆', h₅', h₄', h₃', h₂']

/-- The scan finds two violated rows, one of which cannot reach its bound. The conflict is reported and not counted. -/
theorem Transcript.scanned_uncounted : ∃ (ps : List (Action Nat × Option (Conflict Nat))) (s : Solver Nat),
    Transcript .standard ps s ∧ s.reported = [⟨[2, 0, 1]⟩] ∧
      ps.countP (fun p => p.1.isAssertion && p.2.isSome) + ps.countP (fun p => p.1.isSearch && p.2.isSome) = 1 ∧
      s.tally.conflicts = 0 := by
  have hrun : (do
      let s ← (Solver.new .standard).addRow 2 [(0, 1), (1, 1)]
      let s ← s.addRow 3 [(4, 1)]
      let (a₃, s) ← s.assertBound .upper 0 (.ofRat 0) 0
      let (a₄, s) ← s.assertBound .upper 1 (.ofRat 0) 1
      let (a₅, s) ← s.assertBound .lower 2 (.ofRat 1) 2
      let (a₆, s) ← s.assertBound .lower 3 (.ofRat 1) 3
      let (o, _, s) ← s.repairUpTo 9 .unlimited ()
      return ([o.conflict?, a₆, a₅, a₄, a₃], s.reported, s.tally.conflicts)) =
      (.ok ([some ⟨[2, 0, 1]⟩, none, none, none, none], [⟨[2, 0, 1]⟩], 0) :
        Except Fault (List (Option (Conflict Nat)) × List (Conflict Nat) × Nat)) := by decide +kernel
  obtain ⟨s₁, h₁, hrun⟩ := bind_eq_ok.mp hrun
  obtain ⟨s₂, h₂, hrun⟩ := bind_eq_ok.mp hrun
  obtain ⟨⟨a₃, s₃⟩, h₃, hrun⟩ := bind_eq_ok.mp hrun
  obtain ⟨⟨a₄, s₄⟩, h₄, hrun⟩ := bind_eq_ok.mp hrun
  obtain ⟨⟨a₅, s₅⟩, h₅, hrun⟩ := bind_eq_ok.mp hrun
  obtain ⟨⟨a₆, s₆⟩, h₆, hrun⟩ := bind_eq_ok.mp hrun
  obtain ⟨⟨o, b, s₇⟩, h₇, hanswers⟩ := bind_eq_ok.mp hrun
  have hanswers' := Except.ok.inj hanswers
  simp only [Prod.mk.injEq, List.cons.injEq, and_true] at hanswers'
  obtain ⟨⟨h₇', h₆', h₅', h₄', h₃'⟩, hreported, hconflicts⟩ := hanswers'
  have hnew : Transcript .standard [] (Solver.new .standard : Solver Nat) := .new
  have hs := (((((hnew.act (.addRow 2 [(0, 1), (1, 1)])
    (show (Solver.new _).addRow _ _ >>= _ = _ from bind_eq_ok.mpr ⟨s₁, h₁, rfl⟩)).act (.addRow 3 [(4, 1)])
    (show s₁.addRow _ _ >>= _ = _ from bind_eq_ok.mpr ⟨s₂, h₂, rfl⟩)).act
    (.assert (.bound .upper 0 (.ofRat 0) 0)) h₃).act (.assert (.bound .upper 1 (.ofRat 0) 1)) h₄).act
    (.assert (.bound .lower 2 (.ofRat 1) 2)) h₅).act (.assert (.bound .lower 3 (.ofRat 1) 3)) h₆
  have ht := hs.act (.search .unlimited () 9) (bind_eq_ok.mpr ⟨_, h₇, rfl⟩)
  refine ⟨_, s₇, ht, hreported, ?_, hconflicts⟩
  simp [Action.isAssertion, Action.isSearch, h₇', h₆', h₅', h₄', h₃']

end Solver

end LinReal
