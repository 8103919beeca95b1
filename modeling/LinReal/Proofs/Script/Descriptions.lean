import LinReal.Proofs.Numeral
import LinReal.Proofs.Script.Names

/-! Descriptions of bounds. The line that asserts a described bound is read as a bound for the same variable with the same relation and
    constant, wherever it is added to the end of a script that was read. -/

namespace LinReal

open Text

theorem Relation.isWord_text (r : Relation) : IsWord r.text := by
  cases r <;> exact isWord_iff.mpr rfl

namespace Script

variable {s s' : Script} {l : Literal} {i : Nat} {name d line text : String} {lines : List (Option String)}

/-! ### Descriptions -/

theorem describe_eq_ok (hl : s.literals[i]? = some l) (hname : s.names[l.var]? = some name) :
    s.describe i = .ok (name ++ " " ++ l.relation.text ++ " " ++ Numeral.write l.constant) := by
  simp only [describe, literal, hl, ok_bind, hname]
  rfl

/-- The words of a line that asserts a described bound. -/
theorem words_description (l : Literal) (hname : IsWord name) :
    words ("b" ++ " " ++ (name ++ " " ++ l.relation.text ++ " " ++ Numeral.write l.constant)) =
      ["b", name, l.relation.text, Numeral.write l.constant] := by
  have hb : words "b" = ["b"] := rfl
  simp only [words_append_blank, hb, hname.words_eq, l.relation.isWord_text.words_eq,
    (Numeral.isWord_write l.constant).words_eq]
  rfl

theorem feed_not_mem_description (hname : IsWord name) :
    '\n' ∉ ("b" ++ " " ++ (name ++ " " ++ l.relation.text ++ " " ++ Numeral.write l.constant)).toList := by
  have hb : '\n' ∉ "b".toList := by decide
  have hblank : '\n' ∉ " ".toList := by decide
  simp only [String.toList_append, List.mem_append, hb, hblank, hname.feed_not_mem, l.relation.isWord_text.feed_not_mem,
    (Numeral.isWord_write l.constant).feed_not_mem, or_self, not_false_eq_true]

/-- A reader that has read the names of a script reads the line of a described bound as that bound. -/
theorem line_description {r : Reader} (hnamed : r.script.Named) (hname : r.script.names[l.var]? = some name) :
    r.line (words ("b" ++ " " ++ (name ++ " " ++ l.relation.text ++ " " ++ Numeral.write l.constant))) =
      .ok { r with script := r.script.withBound l } := by
  have hlookUp : r.lookUp name = .ok l.var := by
    rw [Reader.lookUp, (hnamed.indexed name l.var).mpr hname]
  have hnumber : Reader.number (Numeral.write l.constant) = .ok l.constant := by
    rw [Reader.number, Numeral.read?_write]
  rw [words_description l (hnamed.isWord hname), Reader.line_bound _ hlookUp (Relation.read?_text l.relation), hnumber]
  rfl

theorem ofLines_description (h : ofLines lines = .ok s) (hl : s.literals[i]? = some l) (hd : s.describe i = .ok d) :
    ofLines (lines ++ [some ("b" ++ " " ++ d)]) = .ok (s.withBound l) := by
  have hnamed := named_of_ofLines h
  obtain ⟨r, hr, rfl⟩ := ofLines_eq_ok.mp h
  obtain ⟨name, hname⟩ : ∃ name, r.script.names[l.var]? = some name := by
    cases hname : r.script.names[l.var]? with
    | none => simp [describe, literal, hl, ok_bind, hname] at hd
    | some name => exact ⟨name, rfl⟩
  obtain rfl := Except.ok.inj ((describe_eq_ok hl hname).symm.trans hd)
  refine ofLines_eq_ok.mpr ⟨{ r with script := r.script.withBound l }, ?_, rfl⟩
  rw [Reader.lines_append, hr, ok_bind, Reader.lines, line_description hnamed hname]
  rfl

/-! ### Texts with one more line -/

theorem read_append_feed (t : String) : read (t ++ "\n") = read t := by
  have hlines : Text.lines (t ++ "\n") = Text.lines t ++ [""] := by
    rw [← String.append_empty (s := t ++ "\n"), lines_append_feed]
    rfl
  rw [read, read, hlines, List.map_append, ofLines, ofLines, Reader.lines_append]
  cases Reader.start.lines 1 ((Text.lines t).map some) <;> rfl

theorem read_append_line (t : String) (hline : '\n' ∉ line.toList) :
    read (t ++ "\n" ++ line) = ofLines ((Text.lines t).map some ++ [some line]) := by
  rw [read, lines_append_feed, List.map_append, lines_of_not_mem hline]
  rfl

/-- A line that can be added to the lines of a script can be added to its text. -/
theorem read_ended (hadd : ∀ {lines}, ofLines lines = .ok s → ofLines (lines ++ [some line]) = .ok s')
    (hline : '\n' ∉ line.toList) (h : read text = .ok s) : read (ended text ++ line) = .ok s' := by
  rcases ended_cases text with hended | ⟨rfl, hended⟩ | ⟨t, rfl, hended⟩
  · rw [hended, read_append_line _ hline]
    exact hadd h
  · -- A text without a character has one line, which is empty and says nothing.
    have hempty : ofLines [] = .ok s := h
    have hlone : read line = ofLines [some line] := by
      rw [read, lines_of_not_mem hline]
      rfl
    rw [hended, String.empty_append, hlone]
    exact hadd hempty
  · rw [hended, read_append_line _ hline]
    exact hadd ((read_append_feed t).symm.trans h)

/-- Descriptions read back. The line of a described bound, added to the end of a script that was read, adds the same bound again and
    nothing else; in a text, the last line is ended first, and the line that is added may be ended too. -/
theorem reads_description (h : ofLines lines = .ok s) (hi : i < s.literals.size) :
    ∃ l d, s.literals[i]? = some l ∧ s.describe i = .ok d ∧
      ofLines (lines ++ [some ("b" ++ " " ++ d)]) = .ok (s.withBound l) ∧
      ∀ text, lines = (Text.lines text).map some → ∀ ending ∈ ["", "\n"],
        read (ended text ++ ("b" ++ " " ++ d) ++ ending) = .ok (s.withBound l) := by
  obtain ⟨l, hl, hvar⟩ := (wellFormed_of_ofLines h).exists_literal hi
  have hname : s.names[l.var]? = some s.names[l.var] := Array.getElem?_eq_getElem hvar
  have hd := describe_eq_ok hl hname
  refine ⟨l, _, hl, hd, ofLines_description h hl hd, ?_⟩
  rintro text rfl ending hending
  have hread := read_ended (fun h => ofLines_description h hl hd) (feed_not_mem_description ((named_of_ofLines h).isWord hname)) h
  rcases List.mem_pair.mp hending with rfl | rfl
  · rw [String.append_empty]
    exact hread
  · rw [read_append_feed]
    exact hread

/-- A variable may be called like a relation, and a constant may have been written as a decimal. -/
theorem reads_description_of_sign : ∃ s, read "v b >= 1/2\nb >= == 0.50" = .ok s ∧ s.describe 0 = .ok ">= = 1/2" ∧
    read (ended "v b >= 1/2\nb >= == 0.50" ++ ("b" ++ " " ++ ">= = 1/2") ++ "\n") = .ok (s.withBound ⟨1, .eq, 1 / 2⟩) := by
  obtain ⟨s, hs⟩ : ∃ s : Script, s = ⟨#["b", ">=", "1/2"], .ofList [("b", 0), (">=", 1), ("1/2", 2)],
      #[⟨1, .eq, 1 / 2⟩], #[.bound 0]⟩ := ⟨_, rfl⟩
  have hread : read "v b >= 1/2\nb >= == 0.50" = .ok s := by
    rw [hs]
    decide +kernel
  have hdescribe : s.describe 0 = .ok ">= = 1/2" := by
    rw [hs]
    decide +kernel
  have hfirst : s.literals[0]? = some ⟨1, .eq, 1 / 2⟩ := by
    rw [hs]
    rfl
  obtain ⟨hsize, -⟩ := Array.getElem?_eq_some_iff.mp hfirst
  obtain ⟨l, d, hl, hd, -, htext⟩ := reads_description hread hsize
  obtain rfl := Option.some.inj (hl.symm.trans hfirst)
  obtain rfl := Except.ok.inj (hd.symm.trans hdescribe)
  exact ⟨s, hread, hdescribe, htext _ rfl "\n" (by decide)⟩

end Script

end LinReal
