import ValueResolution.Scope
import ValueResolution.Schema.Order
/-!
# References inside and out of a tree

A reference made in a tree either is anchored at one of the containers of the tree, and then reads
the place `Reference.inside?` of it, or at the container that `Reference.escape?` is anchored at as
seen from the place of the tree (`Scope.frame?_localize_outside`). In the outermost tree, and for
references that do not count from the outermost container, the former are those with a target.
-/

set_option autoImplicit false

namespace ValueResolution

namespace Reference

/-- The place read from `place` in a tree that stands inside `around` containers, if the reference
is anchored in that tree. -/
def inside? (r : Reference) (around : Nat) (place : Path) : Option Path :=
  match r.anchor with
  | .root => none
  | .relative up =>
    if 1 ≤ up ∧ up ≤ place.length then
      some (place.take (place.length - up) ++ r.path)
    else none
  | .level depth =>
    if around ≤ depth ∧ depth < around + place.length then
      some (place.take (depth - around) ++ r.path)
    else none

/-- In the outermost tree the place is the target. -/
theorem inside?_zero (r : Reference) (place : Path) : r.inside? 0 place = r.target? place := by
  obtain ⟨anchor, path⟩ := r
  cases anchor with
  | root => rfl
  | relative up => rfl
  | level depth => simp [inside?, target?]

theorem inside?_of_not_level {r : Reference} (h : r.isLevel = false) (around : Nat)
    (place : Path) : r.inside? around place = r.target? place := by
  obtain ⟨anchor, path⟩ := r
  cases anchor with
  | root => rfl
  | relative up => rfl
  | level depth => simp [isLevel] at h

/-- The place begins where a container around the reference stands, and the anchor selects that
container. -/
theorem inside?_eq_some {r : Reference} {around : Nat} {place target : Path}
    (h : r.inside? around place = some target) : ∃ k < place.length,
      target = place.take k ++ r.path ∧
      ∀ (scope : Scope) (frames : List Frame), scope.frames.length = around →
        frames.length = place.length → (scope.localize place frames).frame? r.anchor =
          frames[place.length - (k + 1)]? := by
  obtain ⟨anchor, path⟩ := r
  cases anchor with
  | root => simp [inside?] at h
  | relative up =>
    simp only [inside?, Option.ite_none_right_eq_some, Option.some.injEq] at h
    obtain ⟨⟨hpos, hle⟩, rfl⟩ := h
    obtain ⟨up, rfl⟩ := Nat.exists_eq_add_of_le' hpos
    refine ⟨place.length - (up + 1), by omega, rfl, fun scope frames _ hlen => ?_⟩
    have hindex : place.length - (place.length - (up + 1) + 1) = up := by omega
    rw [hindex, Scope.frame?, Scope.localize, List.getElem?_append_left (by omega)]
  | level depth =>
    simp only [inside?, Option.ite_none_right_eq_some, Option.some.injEq] at h
    obtain ⟨⟨hge, hlt⟩, rfl⟩ := h
    refine ⟨depth - around, by omega, rfl, fun scope frames haround hlen => ?_⟩
    have hindex : frames.length + scope.frames.length - (depth + 1) =
        place.length - (depth - around + 1) := by omega
    rw [Scope.frame?, Scope.localize, List.length_append, if_pos (by omega), hindex,
      List.getElem?_append_left (by omega)]

/-- Leaving a tree changes the anchor only. -/
theorem path_of_escape? {r out : Reference} {depth : Nat} (h : r.escape? depth = some out) :
    out.path = r.path := by
  obtain ⟨anchor, path⟩ := r
  cases anchor with
  | root => simp [escape?] at h
  | relative up =>
    simp only [escape?, Option.ite_none_right_eq_some, Option.some.injEq] at h
    exact h.2 ▸ rfl
  | level depth =>
    simp only [escape?, Option.some.injEq] at h
    exact h ▸ rfl

/-- Leaving a tree does not change which references count from the outermost container. -/
theorem isLevel_of_escape? {r out : Reference} {depth : Nat} (h : r.escape? depth = some out) :
    out.isLevel = r.isLevel := by
  obtain ⟨anchor, path⟩ := r
  cases anchor with
  | root => simp [escape?] at h
  | relative up =>
    simp only [escape?, Option.ite_none_right_eq_some, Option.some.injEq] at h
    exact h.2 ▸ rfl
  | level depth =>
    simp only [escape?, Option.some.injEq] at h
    exact h ▸ rfl

end Reference

/-- A reference that is not anchored in the tree is anchored where it is as it leaves the tree. -/
theorem Scope.frame?_localize_outside {r : Reference} {scope : Scope} {place : Path}
    {frames : List Frame} (hlen : frames.length = place.length)
    (h : r.inside? scope.frames.length place = none) :
    (scope.localize place frames).frame? r.anchor =
      (r.escape? place.length).bind fun out => scope.frame? out.anchor := by
  obtain ⟨anchor, path⟩ := r
  cases anchor with
  | root => rfl
  | relative up =>
    cases up with
    | zero => rfl
    | succ up =>
      have hout : place.length < up + 1 := by
        refine Nat.lt_of_not_le fun hle => ?_
        simp [Reference.inside?, hle] at h
      have hup : up + 1 - place.length = up - place.length + 1 := by omega
      simp only [Reference.escape?, if_pos hout, Option.bind_some, hup]
      rw [Scope.frame?, Scope.frame?, Scope.localize, List.getElem?_append_right (by omega), hlen]
  | level depth =>
    simp only [Reference.escape?, Option.bind_some, Scope.frame?, Scope.localize,
      List.length_append]
    by_cases hlt : depth < scope.frames.length
    · have hindex : frames.length + scope.frames.length - (depth + 1) - frames.length =
          scope.frames.length - (depth + 1) := by omega
      rw [if_pos (by omega), if_pos hlt, List.getElem?_append_right (by omega), hindex]
    · have hge : ¬ depth < frames.length + scope.frames.length := by
        intro hin
        have hin' : depth < scope.frames.length + place.length := by omega
        simp [Reference.inside?, Nat.not_lt.1 hlt, hin'] at h
      rw [if_neg hge, if_neg hlt]

end ValueResolution
