import ValueResolution.Proofs.Reading
import ValueResolution.Proofs.Store.Ways
/-!
# Reading through a frame

Reading at a path below a container comes to the same as building the value of the container and
following the path in it (`Frame.read_eq_reach`), wherever the path ends and however its keys are
written: inside the value of a slot, at a position that is named by a field, at a field that is
named by a position, or nowhere. The two go different ways. Reading looks a key up among the
entries, and goes over to the value of a slot when it comes to one; building leaves empty slots out
first.

In a mapping an empty slot leaves no field, and its name finds nothing in either way. In a sequence
it would move the items behind it, so no sequence below the container may list one
(`Store.Gapless`).
-/

set_option autoImplicit false

namespace ValueResolution

open Store Relation

namespace Store

/-- No sequence that can be reached from the root lists an empty slot. -/
def Gapless {σ : Type} [Store σ Slot] (s : σ) (root : NodeId) : Prop :=
  ∀ i items, ReflTransGen (Links s) root i → get? s i = some (.seq items) →
    ∀ j ∈ items, get? s j ≠ some (.leaf none)

variable {σ : Type} [Store σ Slot] {s : σ} {root j : NodeId}

theorem Gapless.below (h : Gapless s root) (hj : Links s root j) : Gapless s j :=
  fun i items hi => h i items (.head hj hi)

/-- An unfolding has a value unless it is an empty slot. -/
theorem Holds.exists_value {u : Unfolding Slot} (h : Holds s u)
    (hne : get? s u.id ≠ some (.leaf none)) : ∃ v, (u.tree.value fun slot => slot) = some v := by
  cases u with
  | leaf i slot =>
    cases slot with
    | none => exact absurd h.root hne
    | some v => exact ⟨v, rfl⟩
  | map i children => exact ⟨_, by rw [Unfolding.tree_map, Tree.value]⟩
  | seq i items => exact ⟨_, by rw [Unfolding.tree_seq, Tree.value]⟩

/-- Where names are not repeated and sequences list no empty slots, the tree is aligned. -/
theorem Holds.aligned {u : Unfolding Slot} (h : Holds s u) (htidy : Tidy s)
    (hgapless : Gapless s u.id) : u.tree.Aligned := by
  induction u using Unfolding.induction with
  | leaf i slot => exact .leaf slot
  | map i children ih =>
    rw [Unfolding.tree_map]
    have hdistinct : Fields.Distinct (Fields.mapEntries Unfolding.tree children) := by
      simpa [Fields.Distinct, Fields.names, Fields.mapEntries, Function.comp_def] using
        htidy _ _ h.root
    refine .map (Tree.at?_fields _ hdistinct) fun c hc => ?_
    obtain ⟨⟨name, v⟩, hv, rfl⟩ := List.mem_map.1 hc
    have hlink : Links s i v.id := links_of_mem_map h.root (c := (name, v.id))
      (List.mem_map_of_mem (f := fun c => (c.1, c.2.id)) hv)
    exact ih _ hv (h.of_mem_map hv) (hgapless.below hlink)
  | seq i items ih =>
    rw [Unfolding.tree_seq]
    refine .seq (Tree.getElem?_values fun t ht => ?_) fun t ht => ?_
    · obtain ⟨v, hv, rfl⟩ := List.mem_map.1 ht
      exact (h.of_mem_seq hv).exists_value
        (hgapless i _ .refl h.root v.id (List.mem_map_of_mem hv))
    · obtain ⟨v, hv, rfl⟩ := List.mem_map.1 ht
      have hlink : Links s i v.id := links_of_mem_seq h.root (List.mem_map_of_mem hv)
      exact ih v hv (h.of_mem_seq hv) (hgapless.below hlink)

end Store

/-- Reading at a path is building the value and following the path in it. Both succeed where no loop
can be reached, and find the same where sequences list no empty slots. -/
theorem Frame.read_eq_reach (f : Frame) (hacyclic : Acyclic f.store f.id) (htidy : Tidy f.store)
    (hgapless : Gapless f.store f.id) (path : Path) :
    ∃ v?, materialize f.store f.id (fun slot => slot) = .ok v? ∧
      f.read path = .ok (v?.bind fun v => v.reach path) := by
  obtain ⟨store, id⟩ := f
  obtain ⟨-, u, hu, rfl, -⟩ := exists_unfolds_iff.2 hacyclic
  refine ⟨_, hu.materialize _, ?_⟩
  rw [(hu.aligned htidy hgapless).reach_value path]
  exact hu.follow path

/-- A mapping with an empty slot, and with a sequence whose two items are one literal. -/
def literalTwice : Overlay Slot where
  base := ⟨#[.leaf (some (.object [("k", .array [.whole 10, .whole 20])])), .leaf none]⟩
  fresh := #[.seq [0, 0], .map [("pending", 1), ("0", 2)]]

/-- A position that names a field, a field that names a position, and two keys inside of a literal.
-/
theorem Frame.read_eq_reach_literal :
    let f : Frame := ⟨literalTwice, 3⟩
    let path : Path := [.index 0, .field "+1", .field "k", .index 1]
    Acyclic f.store f.id ∧ Tidy f.store ∧ Gapless f.store f.id ∧
      (∃ v?, materialize f.store f.id (fun slot => slot) = .ok v? ∧
        f.read path = .ok (v?.bind fun v => v.reach path)) ∧
      f.read path = .ok (some (.whole 20)) ∧ f.read [.field "pending"] = .ok none := by
  intro f path
  have hentries : ∀ i : Nat, i < 4 → ∀ e ∈ get? literalTwice i, (∀ x ∈ e.children, x.2 < i) ∧
      (∀ children, e = .map children → Fields.Distinct children) ∧
      ∀ items, e = .seq items → ∀ j ∈ items, j = 0 := by
    intro i hi e he
    obtain rfl | rfl | rfl | rfl : i = 0 ∨ i = 1 ∨ i = 2 ∨ i = 3 := by omega
    all_goals
      simp only [literalTwice, Overlay.get?_eq] at he
      obtain rfl := Option.some.inj he
      simp [Entry.children, Fields.Distinct, Fields.names]
  have hacyclic : Acyclic literalTwice 3 := by
    refine acyclic_of_lt (fun i j hij => ?_) (by decide)
    obtain ⟨e, key, he, hmem⟩ := hij
    exact (hentries i (lt_size_of_get? he) e he).1 _ hmem
  have htidy : Tidy literalTwice := fun i children he =>
    (hentries i (lt_size_of_get? he) _ he).2.1 _ rfl
  have hgapless : Gapless literalTwice 3 := fun i items _ he j hj => by
    obtain rfl := (hentries i (lt_size_of_get? he) _ he).2.2 _ rfl j hj
    exact fun h => by cases h
  exact ⟨hacyclic, htidy, hgapless, Frame.read_eq_reach f hacyclic htidy hgapless path, rfl, rfl⟩

end ValueResolution
