import ValueResolution.Proofs.Likeness.Pass
import ValueResolution.Proofs.References.Nesting
/-!
# Trees at a place of another tree

What is resolved behind a place of a tree can also stand in a tree of its own at that place. The
references made there have the same targets in the tree around (`Reference.target?_append`,
`Reference.target?_of_escape?`), and a step in the one tree agrees with the step in the other when
both read the same below the place and around it (`Step.Faces.agree_nested`).
-/

set_option autoImplicit false

namespace ValueResolution

variable {R : Value → Value → Prop}

/-! ## References from behind a place -/

namespace Path

/-- A path that overlaps one behind a place overlaps the place. -/
theorem overlaps_of_append {p q target : Path} (h : overlaps (p ++ q) target = true) :
    overlaps p target = true := by
  induction p generalizing target with
  | nil => exact rfl
  | cons a p ih =>
    cases target with
    | nil => rfl
    | cons b target =>
      simp only [List.cons_append, overlaps, Bool.and_eq_true] at h ⊢
      exact ⟨h.1, ih h.2⟩

end Path

namespace Reference

variable {r out : Reference} {place path target : Path}

/-- A reference with a target in a tree has that target in every tree around it, unless it counts
from the outermost container. -/
theorem target?_append (hr : r.isLevel = false) (h : r.target? path = some target) (place : Path) :
    r.target? (place ++ path) = some (place ++ target) := by
  obtain ⟨anchor, rest⟩ := r
  cases anchor with
  | root => simp [target?] at h
  | level depth => simp [isLevel] at hr
  | relative up =>
    have hle : up ≤ path.length := by
      simp only [target?, Option.ite_none_right_eq_some] at h
      exact h.1.2
    rw [target?_append_of_le hle, h, Option.map_some]

/-- The target of a reference as it leaves a tree is the one it has in the tree around. -/
theorem target?_of_escape? (ho : r.escape? path.length = some out)
    (h : out.target? place = some target) : r.target? (place ++ path) = some target := by
  obtain ⟨anchor, rest⟩ := r
  cases anchor with
  | root => simp [escape?] at ho
  | level depth =>
    obtain rfl := Option.some.inj ho
    simp only [target?, Option.ite_none_right_eq_some, Option.some.injEq] at h ⊢
    obtain ⟨hlt, rfl⟩ := h
    refine ⟨by rw [List.length_append]; omega, ?_⟩
    rw [List.take_append_of_le_length (Nat.le_of_lt hlt)]
  | relative up =>
    simp only [escape?, Option.ite_none_right_eq_some, Option.some.injEq] at ho
    obtain ⟨hlt, rfl⟩ := ho
    exact (target?_append_of_lt hlt).trans h

end Reference

/-! ## Steps behind a place -/

namespace Step

variable {f g h : Step} {scope : Scope} {t u v part : Tree Slot} {place path : Path}

/-- A step behind a place faces the part there, from a scope that faces the whole at the place. -/
theorem Faces.split (hf : f.Faces scope t) (hpath : f.path = place ++ path)
    (hpart : t.at? place = some part) (r : Resolution) :
    ∃ mid, Faces ⟨place, mid, r⟩ scope t ∧ Faces ⟨path, f.scope, r⟩ mid part := by
  obtain ⟨frames, hscope, hlen, hread⟩ := hf
  rw [hpath, List.length_append] at hlen hread
  obtain ⟨inner, outer, rfl, hinner, houter⟩ : ∃ inner outer, frames = inner ++ outer ∧
      inner.length = path.length ∧ outer.length = place.length :=
    ⟨frames.take path.length, frames.drop path.length, (List.take_append_drop _ _).symm,
      by rw [List.length_take]; omega, by rw [List.length_drop]; omega⟩
  have hmid : Faces ⟨place, scope.localize place outer, r⟩ scope t := by
    refine ⟨outer, rfl, houter, fun k (hk : k < place.length) => ?_⟩
    obtain ⟨frame, hframe, hread⟩ := hread k (by omega)
    have hindex : place.length + path.length - (k + 1) - inner.length =
        place.length - (k + 1) := by
      omega
    rw [List.getElem?_append_right (by omega), hindex] at hframe
    refine ⟨frame, hframe, fun q => ?_⟩
    rw [hread, List.take_append_of_le_length (Nat.le_of_lt hk)]
  refine ⟨_, hmid, inner, ?_, hinner, fun k (hk : k < path.length) => ?_⟩
  · rw [hscope, hpath]
    simp only [Scope.localize, List.append_assoc]
  · obtain ⟨frame, hframe, hread⟩ := hread (place.length + k) (by omega)
    have hindex : place.length + path.length - (place.length + k + 1) = path.length - (k + 1) := by
      omega
    rw [hindex, List.getElem?_append_left (by omega)] at hframe
    refine ⟨frame, hframe, fun q => ?_⟩
    rw [hread, List.take_length_add_append, List.append_assoc, Tree.read_append hpart]

/-- A step behind a place agrees with one in a tree of its own that stands there, on what the latter
reads in its tree and what leaves it. -/
theorem Faces.agree_nested {refs : List Reference} (hf : f.Faces scope t) (hg : g.Faces scope u)
    (hh : h.Faces g.scope v) (hpath : f.path = g.path ++ h.path)
    (hpart : t.at? g.path = some part) (hframes : scope.frames = [])
    (hinput : R scope.input scope.input) (hsubject : Option.Rel R scope.subject scope.subject)
    (hlevel : ∀ r ∈ refs, r.isLevel = false)
    (hin : ∀ r ∈ refs, ∀ target, r.target? h.path = some target →
      Option.Rel R (part.read target) (v.read target))
    (hout : ∀ r ∈ refs, ∀ out, r.escape? h.path.length = some out →
      ∀ target, out.target? g.path = some target → Option.Rel R (t.read target) (u.read target)) :
    Scope.Agree R refs f.scope h.scope := by
  obtain ⟨mid, hmid, hinner⟩ := hf.split hpath hpart f.resolution
  have houter : Scope.Agree R (refs.filterMap fun r => r.escape? h.path.length) mid g.scope := by
    refine hmid.agree_outermost hg rfl hframes hinput hsubject fun out hmem target ht => ?_
    obtain ⟨r, hr, ho⟩ := List.mem_filterMap.1 hmem
    exact hout r hr out ho target ht
  refine hinner.agree hh rfl houter (fun r hr target ht => ?_)
    fun r hr out ho => List.mem_filterMap.2 ⟨r, hr, ho⟩
  rw [Reference.inside?_of_not_level (hlevel r hr)] at ht
  exact hin r hr target ht

end Step

end ValueResolution
