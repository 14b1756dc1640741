import ValueResolution.Proofs.Store.Sharing
/-!
# Updates by copying, without shared branches

What an update does to the tree it works on, when no container of that tree stands in two places
(`Draft.Sound`). An update keeps it so (`Draft.Reworks.sound`). Writing a leaf at a path that leads
somewhere is `Tree.put` on the tree (`Draft.update_put`), and taking away what is there is
`Tree.strip` (`Draft.update_strip`).
-/

set_option autoImplicit false

namespace ValueResolution

namespace Draft

open Store

variable {σ α : Type} [Store σ α]

/-- A draft of the tree `u`: the store holds it, no part of it stands in two places, and the
copies can be changed. -/
structure Sound (d : Draft σ) (u : Unfolding α) : Prop where
  holds : Holds d.store u
  nodup : u.ids.Nodup
  writable : ∀ i ∈ d.copies, isWritable d.store i = true

variable {d d' : Draft σ} {u u' v : Unfolding α}

theorem Sound.keeps (h : Sound d u) : Keeps d u.entries :=
  ⟨h.holds, fun i _ => List.nodup_iff_count_le_one.1 h.nodup i, h.writable⟩

theorem Reworks.sound (hr : Reworks d u.entries d' u'.entries) (h : Sound d u) : Sound d' u' where
  holds := hr.holds
  nodup := List.nodup_iff_count_le_one.2 fun i => by
    rcases Nat.lt_or_ge i (size d.store) with hlt | hge
    · exact (hr.old i hlt).trans (List.nodup_iff_count_le_one.1 h.nodup i)
    · exact hr.new i hge
  writable := hr.writable

variable [LawfulStore σ]

/-- Writing a leaf at a path that leads somewhere. -/
theorem update_put (h : Sound d u) (a : α) {path : Path} (hv : u.at? path = some v) :
    ∃ d' u', d.update u.id path (.put (.leaf a)) = (d', .ok (some u'.id)) ∧ Sound d' u' ∧
      u'.tree = u.tree.put a path := by
  cases path with
  | nil =>
    obtain ⟨new, hid, htree, -, -, hstage⟩ := stage_reworks d (some a)
    obtain ⟨u', rfl, htree'⟩ := Option.map_eq_some_iff.1 htree
    exact ⟨_, u', Prod.ext rfl (congrArg Except.ok hid), (hstage _ h.keeps).2.sound h, htree'⟩
  | cons key rest =>
    obtain ⟨d', u', hr, -, -, hrev⟩ := update_reworks h.keeps (some a) key rest
    have hat : u.tree.at? (key :: rest) = some v.tree := by
      rw [Unfolding.at?_tree, hv]
      rfl
    rw [Option.map_some, Tree.revise?_put hat] at hrev
    exact ⟨d', u', hrev.2, hr.sound h, hrev.1⟩

/-- Taking away what is at a path that leads somewhere inside the tree. -/
theorem update_strip (h : Sound d u) {path : Path} (hne : path ≠ []) (hv : u.at? path = some v) :
    ∃ d' u', d.update u.id path .strip = (d', .ok (some u'.id)) ∧ Sound d' u' ∧
      u'.tree = u.tree.strip path := by
  obtain ⟨key, rest, rfl⟩ := List.exists_cons_of_ne_nil hne
  obtain ⟨d', u', hr, -, -, hrev⟩ := update_reworks h.keeps none key rest
  have hat : u.tree.at? (key :: rest) = some v.tree := by
    rw [Unfolding.at?_tree, hv]
    rfl
  rw [Option.map_none, Tree.revise?_strip hat] at hrev
  exact ⟨d', u', hrev.2, hr.sound h, hrev.1⟩

end Draft

end ValueResolution
