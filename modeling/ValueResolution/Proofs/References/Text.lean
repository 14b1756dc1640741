import Mathlib.Data.List.TakeWhile
import Mathlib.Tactic.Common
import ValueResolution.Reference
/-!
# Reading back the text of a reference

Every text is a reference, and a reference that was read from a text is read back from the text it
writes. What it writes is the text itself, with one exception: a level that is `0` or not in its
usual decimal spelling is respelled (`Reference.Respelled`). Both halves are
`Reference.ofText_text_ofText`.

A text is compared with what is written for it form by form (`Reference.text_ofText`). Only the
level form does not carry its text along: it keeps the number, and forgets how it was spelled.
-/

set_option autoImplicit false

namespace ValueResolution

/-! ## Numerals and paths -/

theorem Text.lt_of_index? {cs : List Char} {n : Nat} (h : Text.index? cs = some n) :
    n < Text.indexBound := by
  simpa using (Option.filter_eq_some_iff.1 h).2

/-- The spelling of a position has no slash in it. -/
theorem Text.slash_notMem_of_index? {cs : List Char} {n : Nat} (h : Text.index? cs = some n) :
    '/' ∉ cs := by
  have hdigits {ds : List Char} (hds : Text.numeral? ds = some n) : '/' ∉ ds := by
    intro hmem
    simp only [Text.numeral?, Text.isNumeral, Option.ite_none_right_eq_some, Bool.and_eq_true,
      List.all_eq_true] at hds
    exact absurd (hds.1.2 _ hmem) (by decide)
  have hread := (Option.filter_eq_some_iff.1 h).1
  split at hread
  · simpa using hdigits hread
  · exact hdigits hread

/-- A dotted text is read into the path that has it. -/
theorem Path.text_ofText (text : String) : (Path.ofText text).text = text := by
  unfold Path.ofText
  split
  · rename_i hempty
    rw [String.isEmpty_iff.1 hempty]
    rfl
  · refine String.ext ?_
    simp [Path.text, String.toList_intercalate, Function.comp_def, Key.text,
      List.intercalate_splitOn]

namespace Reference

/-! ## What is written -/

theorem text_root (path : String) : (root path).text = "$" ++ path := by
  simp [text, root, Path.text_ofText]

theorem text_level_zero (path : String) : (level 0 path).text = "/" ++ path := by
  simp [text, level, Path.text_ofText]

theorem text_level {n : Nat} (hn : n ≠ 0) (path : String) :
    (level n path).text = "@" ++ n.repr ++ "/" ++ path := by
  obtain ⟨m, rfl⟩ := Nat.exists_eq_succ_of_ne_zero hn
  simp [text, level, Path.text_ofText]

theorem text_relative (carets : Nat) (path : String) :
    (relative (carets + 1) path).text = String.ofList (List.replicate carets '^') ++ path := by
  simp [text, relative, Path.text_ofText]

/-! ## What is read -/

theorem levelOfChars?_append {digits : List Char} (h : '/' ∉ digits) (path : List Char) :
    levelOfChars? (digits ++ '/' :: path) =
      (Text.index? digits).map fun n => level n (String.ofList path) := by
  have hall : ∀ c ∈ digits, (c != '/') = true := fun c hc =>
    bne_iff_ne.2 fun heq => h (heq ▸ hc)
  simp [levelOfChars?, List.dropWhile_append_of_pos hall, List.takeWhile_append_of_pos hall]

theorem levelOfChars?_of_notMem {cs : List Char} (h : '/' ∉ cs) : levelOfChars? cs = none := by
  have hnil : cs.dropWhile (· != '/') = [] :=
    List.dropWhile_eq_nil_iff.2 fun c hc => bne_iff_ne.2 fun heq => h (heq ▸ hc)
  simp [levelOfChars?, hnil]

/-- What is read as a level reference is a position, a slash and a path. -/
theorem levelOfChars?_eq_some {cs : List Char} {r : Reference} (h : levelOfChars? cs = some r) :
    ∃ digits path n, cs = digits ++ '/' :: path ∧ Text.index? digits = some n ∧
      r = level n (String.ofList path) := by
  by_cases hslash : '/' ∈ cs
  · obtain ⟨digits, path, rfl, hdigits⟩ := List.eq_append_cons_of_mem hslash
    rw [levelOfChars?_append hdigits] at h
    obtain ⟨n, hn, rfl⟩ := Option.map_eq_some_iff.1 h
    exact ⟨digits, path, n, rfl, hn, rfl⟩
  · rw [levelOfChars?_of_notMem hslash] at h
    cases h

theorem ofText_slash (path : String) : ofText ("/" ++ path) = level 0 path := by
  simp [ofText, ofChars]

theorem ofText_at {digits : String} {n : Nat} (h : Text.index? digits.toList = some n)
    (path : String) : ofText ("@" ++ digits ++ "/" ++ path) = level n path := by
  have hread := levelOfChars?_append (Text.slash_notMem_of_index? h) path.toList
  simp [ofText, ofChars, hread, h]

/-! ## Both ways -/

/-- A relative reference is written with the characters it is read from. -/
theorem text_relativeOfChars (cs : List Char) : (relativeOfChars cs).text = String.ofList cs := by
  have hcarets : List.replicate (cs.takeWhile (· == '^')).length '^' =
      cs.takeWhile (· == '^') :=
    (List.eq_replicate_of_mem fun c hc => by simpa using List.mem_takeWhile_imp hc).symm
  rw [relativeOfChars, text_relative, hcarets, ← String.ofList_append,
    List.takeWhile_append_dropWhile]

/-- A level reference is read back, whatever its level is. -/
theorem ofText_text_level {n : Nat} (hn : n < Text.indexBound) (path : String) :
    ofText (level n path).text = level n path := by
  by_cases hzero : n = 0
  · rw [hzero, text_level_zero, ofText_slash]
  · rw [text_level hzero, ofText_at (Text.index?_repr hn)]

/-- The text of a level reference whose level is zero or not in its usual spelling. -/
def Respelled (text : String) : Prop :=
  ∃ digits path n, text = "@" ++ digits ++ "/" ++ path ∧ Text.index? digits.toList = some n ∧
    (digits = "0" ∨ digits ≠ n.repr)

/-- What is written for a respelled text is another text. -/
theorem Respelled.text_ne {text : String} (h : Respelled text) : (ofText text).text ≠ text := by
  obtain ⟨digits, path, n, rfl, hn, hdigits⟩ := h
  rw [ofText_at hn]
  intro heq
  by_cases hzero : n = 0
  · rw [hzero, text_level_zero] at heq
    simpa using congrArg String.toList heq
  · rw [text_level hzero] at heq
    have hspelling : n.repr = digits := by
      simpa [String.ext_iff] using congrArg String.toList heq
    rcases hdigits with rfl | hne
    · exact hzero (Option.some.inj hn).symm
    · exact hne hspelling.symm

/-- The other texts are written as they are, form by form. -/
theorem text_ofText {text : String} (h : ¬ Respelled text) : (ofText text).text = text := by
  obtain ⟨cs, rfl⟩ : ∃ cs, text = String.ofList cs := ⟨text.toList, by simp⟩
  rw [ofText, String.toList_ofList]
  unfold ofChars
  split
  · exact (text_root _).trans (String.ext (by simp))
  · exact (text_level_zero _).trans (String.ext (by simp))
  · rename_i rest
    cases hlevel : levelOfChars? rest with
    | none => exact text_relativeOfChars _
    | some r =>
      obtain ⟨digits, path, n, rfl, hn, rfl⟩ := levelOfChars?_eq_some hlevel
      have htext : String.ofList ('@' :: (digits ++ '/' :: path)) =
          "@" ++ String.ofList digits ++ "/" ++ String.ofList path := String.ext (by simp)
      have hdigits : String.ofList digits ≠ "0" ∧ String.ofList digits = n.repr := by
        simpa [not_or] using fun hd => h ⟨_, _, n, htext, by simpa using hn, hd⟩
      obtain ⟨hzero, hspelling⟩ := hdigits
      rw [Option.getD_some, htext, hspelling]
      exact text_level (by rintro rfl; exact hzero hspelling) _
  · exact text_relativeOfChars _

/-- A reference that was read from a text is read back from the text it writes, which is the same
text unless the level of a level reference is respelled. -/
theorem ofText_text_ofText (text : String) :
    ofText (ofText text).text = ofText text ∧
      ((ofText text).text = text ↔ ¬ Respelled text) := by
  refine ⟨?_, fun heq h => h.text_ne heq, text_ofText⟩
  by_cases h : Respelled text
  · obtain ⟨digits, path, n, rfl, hn, -⟩ := h
    rw [ofText_at hn]
    exact ofText_text_level (Text.lt_of_index? hn) path
  · rw [text_ofText h]

example : (ofText "@+07/a.b").text = "@7/a.b" := by decide
example : (ofText "@2.5/a..b").text = "@2.5/a..b" := by decide

end Reference

end ValueResolution
