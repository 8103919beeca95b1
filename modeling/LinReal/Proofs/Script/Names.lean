import LinReal.Proofs.Script.Reading
import LinReal.Proofs.Text

/-! Names of variables. A script that was read calls its variables by words, no two of them by the same, so the name of a variable
    leads back to it. Only a line that declares variables adds names. -/

namespace LinReal

namespace Script

variable {s : Script} {x : Var} {name : String}

/-- No two variables have the same name, as the index has only one variable under it. -/
theorem Indexed.nodup (h : s.Indexed) : s.names.toList.Nodup := by
  rw [List.nodup_iff_pairwise_ne, List.pairwise_iff_getElem]
  intro x y hx hy hlt hsame
  have hleads : ∀ {z : Nat} (hz : z < s.names.toList.length), s.varNamed? s.names.toList[z] = some z := fun hz =>
    (h _ _).mpr (by rw [← Array.getElem?_toList, List.getElem?_eq_getElem hz])
  have hback := hleads hx
  rw [hsame, hleads hy] at hback
  exact hlt.ne' (Option.some.inj hback)

/-- The names are words, and the index is in step with them. -/
structure Named (s : Script) : Prop where
  indexed : s.Indexed
  words : ∀ name ∈ s.names.toList, Text.IsWord name

theorem Named.isWord (h : s.Named) (hx : s.names[x]? = some name) : Text.IsWord name := by
  obtain ⟨hlt, rfl⟩ := Array.getElem?_eq_some_iff.mp hx
  exact h.words _ (Array.getElem_mem_toList hlt)

end Script

namespace Reader

variable {r r' : Reader} {words : List String}

theorem names_row (hr : r.row words = .ok r') : r'.script.names = r.script.names := by
  obtain ⟨name, terms, basic, d, -, -, -, -, -, rfl⟩ := row_inv hr
  rfl

theorem names_bound (hr : r.bound words = .ok r') : r'.script.names = r.script.names := by
  obtain ⟨name, relation, constant, x, rel, q, -, -, -, -, rfl⟩ := bound_inv hr
  rfl

theorem names_declare {name : String} (hr : r.declare name = .ok r') :
    r'.script.names.toList = r.script.names.toList ++ [name] := by
  unfold Reader.declare at hr
  split at hr
  · cases hr
  · cases hr
    exact Array.toList_push

/-- The names that one line declares come after those before it. -/
theorem names_declareAll (hr : words.foldlM Reader.declare r = .ok r') :
    r'.script.names.toList = r.script.names.toList ++ words := by
  induction words generalizing r with
  | nil =>
    cases hr
    exact (List.append_nil _).symm
  | cons name words ih =>
    rw [List.foldlM_cons] at hr
    obtain ⟨r₁, h₁, hr⟩ := bind_eq_ok.mp hr
    rw [ih hr, names_declare h₁, List.append_assoc, List.singleton_append]

theorem words_line (h : ∀ name ∈ r.script.names.toList, Text.IsWord name) (hwords : ∀ w ∈ words, Text.IsWord w)
    (hr : r.line words = .ok r') : ∀ name ∈ r'.script.names.toList, Text.IsWord name := by
  have kept : r'.script.names = r.script.names → ∀ name ∈ r'.script.names.toList, Text.IsWord name := fun hnames => hnames ▸ h
  unfold Reader.line at hr
  split at hr
  · cases hr
    exact h
  · cases hr
    exact h
  · rw [names_declareAll hr, List.forall_mem_append]
    exact ⟨h, fun w hw => hwords w (List.mem_cons_of_mem _ hw)⟩
  · exact kept (names_row hr)
  · exact kept (names_bound hr)
  · cases hr
    exact kept rfl
  · split at hr
    · cases hr
    · cases hr
      exact kept rfl
  · cases hr
    exact kept rfl
  · cases hr

end Reader

/-- The names of a script that was read are words, and its index leads from each of them to the variable that is called so. -/
theorem Script.named_of_ofLines {s : Script} {lines : List (Option String)} (h : Script.ofLines lines = .ok s) : s.Named := by
  refine ⟨indexed_of_ofLines h, ?_⟩
  obtain ⟨r, hr, rfl⟩ := Script.ofLines_eq_ok.mp h
  refine Reader.lines_invariant (P := fun r => ∀ name ∈ r.script.names.toList, Text.IsWord name)
    (fun hwords hline => ?_) (fun name hname => by cases hname) hr
  exact Reader.words_line hwords (fun _ hw => Text.isWord_of_mem_words hw) hline

end LinReal
