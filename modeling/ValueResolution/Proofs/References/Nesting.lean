import ValueResolution.Proofs.References.Made
/-!
# References of nested trees

A tree stands at a place of another tree, and a reference is made at a path below that place. Seen
from the outer tree it is made at the place followed by the path, and what it reads there is told by
the nested tree alone (`Reference.target?_nested`). Counting containers upward, it either stops
inside, and then reads behind the place what it reads in the nested tree
(`Reference.target?_append_of_le`), or it goes past the root of the nested tree, and then reads what
it reads as it leaves this tree, made from the place (`Reference.target?_append_of_lt`). The root of
the nested tree itself is the last container inside; a reference that counts no container reads
nothing either way.
-/

set_option autoImplicit false

namespace ValueResolution.Reference

variable {up : Nat} {place path rest : Path}

/-- A reference that stays in the nested tree reads there what it reads. -/
theorem target?_append_of_le (h : up ≤ path.length) :
    (⟨.relative up, rest⟩ : Reference).target? (place ++ path) =
      ((⟨.relative up, rest⟩ : Reference).target? path).map (place ++ ·) := by
  by_cases hpos : 1 ≤ up
  · have hlen : (place ++ path).length - up = place.length + (path.length - up) := by
      rw [List.length_append]
      omega
    have hle : up ≤ (place ++ path).length := by
      rw [List.length_append]
      omega
    simp only [target?]
    rw [if_pos ⟨hpos, hle⟩, if_pos ⟨hpos, h⟩, hlen, List.take_length_add_append,
      List.append_assoc, Option.map_some]
  · simp [target?, hpos]

/-- A reference that goes past the root of the nested tree counts on from the place. -/
theorem target?_append_of_lt (h : path.length < up) :
    (⟨.relative up, rest⟩ : Reference).target? (place ++ path) =
      (⟨.relative (up - path.length), rest⟩ : Reference).target? place := by
  have hlen : (place ++ path).length - up = place.length - (up - path.length) := by
    rw [List.length_append]
    omega
  have hiff : (1 ≤ up ∧ up ≤ (place ++ path).length) ↔
      (1 ≤ up - path.length ∧ up - path.length ≤ place.length) := by
    rw [List.length_append]
    omega
  simp only [target?]
  rw [hlen, List.take_append_of_le_length (Nat.sub_le _ _)]
  simp only [hiff]

/-- What a reference reads that does not count from the outermost container is told by the nested
tree it is made in: what it reads from the place of that tree as it leaves it, and if it does not
leave it, what it reads inside; neither reads anything where the other does not. And leaving one
tree after another is leaving one that is as deep as both. -/
theorem target?_nested (r : Reference) :
    (r.isLevel = false → ∀ place path : Path, r.target? (place ++ path) =
      match r.escape? path.length with
      | some out => out.target? place
      | none => (r.target? path).map (place ++ ·)) ∧
    ∀ d e : Nat, ((r.escape? d).bind fun out => out.escape? e) = r.escape? (d + e) := by
  refine ⟨fun hr place path => ?_, fun d e => by rw [escape?_escape?, Nat.add_comm]⟩
  obtain ⟨anchor, rest⟩ := r
  cases anchor with
  | root => rfl
  | level depth => cases hr
  | relative up =>
    by_cases hout : path.length < up
    · simp only [escape?, if_pos hout]
      exact target?_append_of_lt hout
    · simp only [escape?, if_neg hout]
      exact target?_append_of_le (Nat.not_lt.1 hout)

/-- Two containers upward: the root of the nested tree from a path of two keys, the container around
that tree from a path of one. -/
theorem target?_nested_boundary :
    let r : Reference := ⟨.relative 2, [.field "x"]⟩
    let place : Path := [.field "n", .index 0]
    r.isLevel = false ∧
      r.target? (place ++ [.field "a", .field "b"]) = some (place ++ [.field "x"]) ∧
      r.target? (place ++ [.field "a"]) = some [.field "n", .field "x"] ∧
      ((r.escape? 1).bind fun out => out.escape? 1) = none := by
  intro r place
  obtain ⟨hread, hescape⟩ := target?_nested r
  exact ⟨rfl, hread rfl place _, hread rfl place _, hescape 1 1⟩

end ValueResolution.Reference
