import LinReal.Text.Words

/-! Lines and words of texts that are put together. A separator between two texts separates their pieces, so the words of a line are
    those of its parts on both sides of a blank, and the lines of a text those of its parts around a line feed. -/

namespace LinReal.Text

/-! ### Pieces -/

section Pieces

variable {α : Type} {p : α → Bool} {as bs piece : List α} {sep : α}

theorem pieces_cons (p : α → Bool) (a : α) (as : List α) :
    pieces p (a :: as) = if p a then [] :: pieces p as else (pieces p as).modifyHead (a :: ·) := by
  simp only [pieces, cut]
  split <;> rfl

theorem pieces_ne_nil (p : α → Bool) (as : List α) : pieces p as ≠ [] := List.cons_ne_nil _ _

/-- A separator separates what stands before it from what stands after it. -/
theorem pieces_append (h : p sep = true) : pieces p (as ++ sep :: bs) = pieces p as ++ pieces p bs := by
  induction as with
  | nil => rw [List.nil_append, pieces_cons, if_pos h]; rfl
  | cons a as ih =>
    rw [List.cons_append, pieces_cons, pieces_cons, ih]
    split
    · rfl
    · obtain ⟨piece, rest, hpieces⟩ := List.exists_cons_of_ne_nil (pieces_ne_nil p as)
      rw [hpieces]
      rfl

theorem pieces_of_forall_not (h : ∀ a ∈ as, p a = false) : pieces p as = [as] := by
  induction as with
  | nil => rfl
  | cons a as ih =>
    obtain ⟨ha, has⟩ := List.forall_mem_cons.mp h
    rw [pieces_cons, ih has, ha]
    rfl

theorem not_of_mem_pieces (h : piece ∈ pieces p as) : ∀ a ∈ piece, p a = false := by
  induction as generalizing piece with
  | nil =>
    obtain rfl := List.mem_singleton.mp h
    exact fun a ha => by cases ha
  | cons a as ih =>
    obtain ⟨first, rest, hpieces⟩ := List.exists_cons_of_ne_nil (pieces_ne_nil p as)
    rw [hpieces] at ih
    rw [pieces_cons, hpieces] at h
    split at h
    · rcases List.mem_cons.mp h with rfl | h
      · exact fun b hb => by cases hb
      · exact ih h
    · rename_i ha
      rcases List.mem_cons.mp h with rfl | h
      · exact List.forall_mem_cons.mpr ⟨Bool.eq_false_iff.mpr ha, ih List.mem_cons_self⟩
      · exact ih (List.mem_cons_of_mem _ h)

end Pieces

/-! ### Words -/

/-- A text that can be a word of a line. -/
structure IsWord (w : String) : Prop where
  nonempty : w.toList ≠ []
  solid : ∀ c ∈ w.toList, isBlank c = false

variable {w line s t : String}

theorem isWord_of_mem_words (h : w ∈ words line) : IsWord w := by
  obtain ⟨cs, hcs, rfl⟩ := List.mem_map.mp h
  obtain ⟨hpiece, hne⟩ := List.mem_filter.mp hcs
  rw [← String.toList_ofList (l := cs)] at hne hpiece
  exact ⟨by simpa using hne, not_of_mem_pieces hpiece⟩

theorem IsWord.words_eq (h : IsWord w) : words w = [w] := by
  have hkept : [w.toList].filter (fun v => !v.isEmpty) = [w.toList] :=
    List.filter_eq_self.mpr (by simpa using h.nonempty)
  rw [words, pieces_of_forall_not h.solid, hkept, List.map_singleton, String.ofList_toList]

theorem isWord_iff : IsWord w ↔ words w = [w] :=
  ⟨IsWord.words_eq, fun h => isWord_of_mem_words (h ▸ List.mem_singleton_self w)⟩

theorem IsWord.feed_not_mem (h : IsWord w) : '\n' ∉ w.toList := fun hfeed => by
  cases h.solid _ hfeed

theorem isBlank_of_isDigit {c : Char} (h : c.isDigit = true) : isBlank c = false := by
  have hrange : 48 ≤ c.toNat ∧ c.toNat ≤ 57 := by
    simpa [Char.isDigit, UInt32.le_iff_toNat_le] using h
  simp [isBlank, blankRanges]
  omega

theorem words_append_blank (s t : String) : words (s ++ " " ++ t) = words s ++ words t := by
  have hlist : (s ++ " " ++ t).toList = s.toList ++ ' ' :: t.toList := by simp
  rw [words, hlist, pieces_append (by decide), List.filter_append, List.map_append]
  rfl

/-! ### Lines -/

theorem lines_append_feed (s t : String) : lines (s ++ "\n" ++ t) = lines s ++ lines t := by
  have hlist : (s ++ "\n" ++ t).toList = s.toList ++ '\n' :: t.toList := by simp
  rw [lines, hlist, pieces_append (by decide), List.map_append]
  rfl

theorem lines_of_not_mem (h : '\n' ∉ s.toList) : lines s = [s] := by
  have hpieces : pieces (· = '\n') s.toList = [s.toList] :=
    pieces_of_forall_not fun c hc => decide_eq_false fun he => h (he ▸ hc)
  simp [lines, hpieces]

/-- The text with its last line ended. -/
def ended (text : String) : String := if text.toList.getLast?.all (· = '\n') then text else text ++ "\n"

theorem ended_cases (text : String) :
    ended text = text ++ "\n" ∨ (text = "" ∧ ended text = "") ∨ ∃ t, text = t ++ "\n" ∧ ended text = t ++ "\n" := by
  unfold ended
  split
  · rename_i hlast
    right
    rcases List.eq_nil_or_concat text.toList with hnil | ⟨init, c, hconcat⟩
    · obtain rfl := String.toList_eq_nil_iff.mp hnil
      exact Or.inl ⟨rfl, rfl⟩
    · rw [hconcat, List.concat_eq_append, List.getLast?_append] at hlast
      obtain rfl : c = '\n' := by simpa using hlast
      have htext : text = String.ofList init ++ "\n" := by
        rw [← String.toList_inj, hconcat]
        simp
      exact Or.inr ⟨_, htext, htext⟩
  · exact Or.inl rfl

end LinReal.Text
