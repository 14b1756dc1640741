import Mathlib.Data.List.Pairwise
import ValueResolution.Proofs.Store.Children
/-!
# Walks through a store

A walk follows a path child by child (`Store.reach?`). It meets an entry when it passes through it
or ends where the entry is below (`Store.Meets`). Where no entry stands in two places, a walk meets
a leaf exactly when it follows the place of the leaf, and then the two paths overlap exactly when
the walk names every position by its numeral (`Store.Holds.overlaps_iff_spelled`). A position named
otherwise is reached all the same, so that is a condition on the walk and not on the store.
-/

set_option autoImplicit false

namespace ValueResolution

namespace Store

variable {σ α : Type} [Store σ α]

/-- The entry at the end of a path from `id`. -/
def reach? (s : σ) : NodeId → Path → Option NodeId
  | id, [] => some id
  | id, key :: rest => (child? s id key).bind fun child => reach? s child rest

/-- The walk along a path passes through the entry `target`, or ends where that is below. -/
def Meets (s : σ) (start : NodeId) (path : Path) (target : NodeId) : Prop :=
  (∃ q rest, path = q ++ rest ∧ reach? s start q = some target) ∨
    ∃ last q, reach? s start path = some last ∧ reach? s last q = some target

/-- The walk along a path names every position that it goes to by its numeral. -/
def Spelled (s : σ) : NodeId → Path → Prop
  | _, [] => True
  | id, key :: rest =>
    (∀ items i, get? s id = some (.seq items) → key.index? = some i → i < items.length →
      key.text = i.repr) ∧ ∀ child, child? s id key = some child → Spelled s child rest

end Store

namespace Unfolding

variable {α : Type} {u : Unfolding α}

/-- Two children that share an entry are the same one. -/
theorem child?_of_shared (hn : u.ids.Nodup) {a b : Key} {v w : Unfolding α}
    (hv : u.child? a = some v) (hw : u.child? b = some w) {i : Nat} (hiv : i ∈ v.ids)
    (hiw : i ∈ w.ids) : (∃ j children, u = map j children ∧ a.text = b.text) ∨
      ∃ j items k, u = seq j items ∧ a.index? = some k ∧ b.index? = some k := by
  rw [ids_eq] at hn
  have hn := (List.nodup_cons.1 hn).2
  cases u with
  | leaf j x => simp [child?] at hv
  | map j children =>
    refine Or.inl ⟨j, children, rfl, ?_⟩
    rw [inner, List.map_flatMap, List.nodup_flatMap] at hn
    by_contra hne
    have hsymm : Std.Symm (Function.onFun List.Disjoint fun c : String × Unfolding α =>
        c.2.entries.map Prod.fst) := ⟨fun _ _ h _ hx hy => h hy hx⟩
    have hdisjoint := hn.2.forall (Fields.mem_of_at? hv) (Fields.mem_of_at? hw)
      (fun heq => hne (Prod.mk.inj heq).1)
    exact hdisjoint hiv hiw
  | seq j items =>
    obtain ⟨k, hk, hv⟩ := Option.bind_eq_some_iff.1 hv
    obtain ⟨l, hl, hw⟩ := Option.bind_eq_some_iff.1 hw
    refine Or.inr ⟨j, items, k, rfl, hk, ?_⟩
    rw [inner, List.map_flatMap, List.nodup_flatMap] at hn
    obtain ⟨hklt, rfl⟩ := List.getElem?_eq_some_iff.1 hv
    obtain ⟨hllt, rfl⟩ := List.getElem?_eq_some_iff.1 hw
    have hpairwise := List.pairwise_iff_getElem.1 hn.2
    rcases Nat.lt_trichotomy k l with hlt | rfl | hgt
    · exact absurd hiw (hpairwise k l hklt hllt hlt hiv)
    · exact hl
    · exact absurd hiv (hpairwise l k hllt hklt hgt hiw)

theorem mem_ids_of_at? {v : Unfolding α} {path : Path} (h : u.at? path = some v) :
    v.id ∈ u.ids := by
  induction path generalizing u with
  | nil =>
    obtain rfl := Option.some.inj h
    exact u.id_mem_ids
  | cons key rest ih =>
    obtain ⟨child, hc, hv⟩ := Option.bind_eq_some_iff.1 h
    exact ids_child_subset hc (ih hv)

/-- The walk along a path passes through the entry `i`, or ends where that is below. -/
def Meets (u : Unfolding α) (path : Path) (i : Nat) : Prop :=
  (∃ q rest v, path = q ++ rest ∧ u.at? q = some v ∧ v.id = i) ∨
    ∃ v q w, u.at? path = some v ∧ v.at? q = some w ∧ w.id = i

theorem Meets.mem_ids {path : Path} {i : Nat} (h : u.Meets path i) : i ∈ u.ids := by
  rcases h with ⟨q, rest, v, -, hv, rfl⟩ | ⟨v, q, w, hv, hw, rfl⟩
  · exact mem_ids_of_at? hv
  · have hall : u.at? (path ++ q) = some w := by
      rw [at?_append, hv]
      exact hw
    exact mem_ids_of_at? hall

theorem Meets.of_cons {key : Key} {rest : Path} {i : Nat} (h : u.Meets (key :: rest) i) :
    u.id = i ∨ ∃ child, u.child? key = some child ∧ child.Meets rest i := by
  rcases h with ⟨q, behind, v, heq, hv, hi⟩ | ⟨v, q, w, hv, hw, hi⟩
  · cases q with
    | nil =>
      obtain rfl := Option.some.inj hv
      exact Or.inl hi
    | cons first q =>
      obtain ⟨rfl, rfl⟩ := List.cons.inj heq
      obtain ⟨child, hc, hv⟩ := Option.bind_eq_some_iff.1 hv
      exact Or.inr ⟨child, hc, Or.inl ⟨q, behind, v, rfl, hv, hi⟩⟩
  · obtain ⟨child, hc, hv⟩ := Option.bind_eq_some_iff.1 hv
    exact Or.inr ⟨child, hc, Or.inr ⟨v, q, w, hv, hw, hi⟩⟩

/-- A walk begun by a way to a container is a walk from there. -/
theorem Meets.append {p q : Path} {v : Unfolding α} {i : Nat} (hv : u.at? p = some v)
    (h : v.Meets q i) : u.Meets (p ++ q) i := by
  rcases h with ⟨q, rest, w, rfl, hw, hi⟩ | ⟨w, q', x, hw, hx, hi⟩
  · refine Or.inl ⟨p ++ q, rest, w, by rw [List.append_assoc], ?_, hi⟩
    rw [at?_append, hv]
    exact hw
  · refine Or.inr ⟨w, q', x, ?_, hx, hi⟩
    rw [at?_append, hv]
    exact hw

/-- A walk that meets a leaf overlaps the place of the leaf exactly when it is spelled. -/
theorem overlaps_iff_spelled (hn : u.ids.Nodup) {place path : Path} {i : Nat} {a : α}
    (hplace : u.tree.Spelled place) (hleaf : u.at? place = some (leaf i a))
    (h : u.Meets path i) : Path.overlaps place path = true ↔ u.tree.Spelled path := by
  induction path generalizing u place with
  | nil =>
    have hspelled : u.tree.Spelled [] := by cases u.tree <;> trivial
    cases place <;> simp [Path.overlaps, hspelled]
  | cons key rest ih =>
    cases place with
    | nil =>
      obtain rfl := Option.some.inj hleaf
      simp [Path.overlaps, Tree.Spelled]
    | cons slot place =>
      obtain ⟨v, hv, hleaf⟩ := Option.bind_eq_some_iff.1 hleaf
      have hiv : i ∈ v.ids := mem_ids_of_at? hleaf
      rcases h.of_cons with rfl | ⟨w, hw, hmeets⟩
      · exact absurd hiv (id_notMem_child hv hn)
      · -- both paths go on inside the same child
        have hgo : v = w → v.tree.Spelled place → ∀ named : Prop,
            (u.tree.Spelled (key :: rest) ↔ named ∧ w.tree.Spelled rest) →
            (slot.text = key.text ↔ named) →
            (Path.overlaps (slot :: place) (key :: rest) = true ↔
              u.tree.Spelled (key :: rest)) := by
          rintro rfl hp named hspelled htext
          rw [hspelled, Path.overlaps, Bool.and_eq_true, Key.sameSlot_iff, htext,
            ih (nodup_child hv hn) hp hleaf hmeets]
        rcases child?_of_shared hn hv hw hiv hmeets.mem_ids with
          ⟨j, children, rfl, htext⟩ | ⟨j, items, k, rfl, hslot, hkey⟩
        · simp only [child?] at hv hw
          rw [tree_map, Tree.spelled_map_iff (Fields.at?_of_mapEntries tree hv)] at hplace
          refine hgo ?_ hplace True ?_ (by simp [htext])
          · exact Option.some.inj (hv.symm.trans (htext ▸ hw))
          · rw [tree_map, Tree.spelled_map_iff (Fields.at?_of_mapEntries tree hw), true_and]
        · simp only [child?, hslot, hkey, Option.bind_some] at hv hw
          have hvt : (items.map tree)[k]? = some v.tree := by rw [List.getElem?_map, hv]; rfl
          have hwt : (items.map tree)[k]? = some w.tree := by rw [List.getElem?_map, hw]; rfl
          rw [tree_seq, Tree.spelled_seq_iff hslot hvt] at hplace
          refine hgo (Option.some.inj (hv.symm.trans hw)) hplace.2 (key.text = k.repr) ?_ ?_
          · rw [tree_seq, Tree.spelled_seq_iff hkey hwt]
          · rw [hplace.1, eq_comm]

end Unfolding

namespace Store

variable {σ α : Type} [Store σ α] {s : σ} {u : Unfolding α}

/-- A walk through a store that holds an unfolding is one through the unfolding. -/
theorem Holds.reach?_eq (h : Holds s u) (path : Path) :
    reach? s u.id path = (u.at? path).map Unfolding.id := by
  induction path generalizing u with
  | nil => rfl
  | cons key rest ih =>
    rw [reach?, h.child?_eq, Unfolding.at?]
    cases hc : u.child? key with
    | none => rfl
    | some child => exact ih (h.child hc)

/-- Both meet the same ids. -/
theorem Holds.meets_iff (h : Holds s u) (path : Path) (i : Nat) :
    Meets s u.id path i ↔ u.Meets path i := by
  simp only [Meets, Unfolding.Meets, h.reach?_eq, Option.map_eq_some_iff]
  constructor
  · rintro (⟨q, rest, heq, v, hv, hi⟩ | ⟨_, q, ⟨v, hv, rfl⟩, hlast⟩)
    · exact Or.inl ⟨q, rest, v, heq, hv, hi⟩
    · rw [(h.at? hv).reach?_eq] at hlast
      obtain ⟨w, hw, hi⟩ := Option.map_eq_some_iff.1 hlast
      exact Or.inr ⟨v, q, w, hv, hw, hi⟩
  · rintro (⟨q, rest, v, heq, hv, hi⟩ | ⟨v, q, w, hv, hw, hi⟩)
    · exact Or.inl ⟨q, rest, heq, v, hv, hi⟩
    · refine Or.inr ⟨_, q, ⟨v, hv, rfl⟩, ?_⟩
      rw [(h.at? hv).reach?_eq, hw, ← hi]
      rfl

/-- And both spell the same paths. -/
theorem Holds.spelled_iff (h : Holds s u) (path : Path) :
    Spelled s u.id path ↔ u.tree.Spelled path := by
  induction path generalizing u with
  | nil =>
    have hspelled : u.tree.Spelled [] := by cases u.tree <;> trivial
    simp [Spelled, hspelled]
  | cons key rest ih =>
    have hchild : (∀ child, child? s u.id key = some child → Spelled s child rest) ↔
        ∀ child, u.child? key = some child → child.tree.Spelled rest := by
      simp only [h.child?_eq, Option.map_eq_some_iff, forall_exists_index, and_imp]
      constructor
      · exact fun hs child hc => (ih (h.child hc)).1 (hs _ child hc rfl)
      · rintro hs _ child hc rfl
        exact (ih (h.child hc)).2 (hs child hc)
    rw [Spelled, hchild, h.root]
    cases u with
    | leaf i a => simp [Unfolding.entry, Unfolding.child?, Tree.Spelled]
    | map i children =>
      simp [Unfolding.entry, Unfolding.child?, Tree.Spelled, Fields.at?_mapEntries]
    | seq i items =>
      simp only [Unfolding.entry, Unfolding.child?, Unfolding.tree_seq, Tree.Spelled]
      constructor
      · rintro ⟨hnamed, hrest⟩ k child hk hc
        rw [List.getElem?_map] at hc
        obtain ⟨v, hv, rfl⟩ := Option.map_eq_some_iff.1 hc
        have hlt : k < items.length := (List.getElem?_eq_some_iff.1 hv).1
        exact ⟨hnamed _ k rfl hk (by simpa using hlt), hrest v (by rw [hk]; exact hv)⟩
      · refine fun hs => ⟨fun ids k hids hk hlt => ?_, fun child hc => ?_⟩
        · obtain rfl : items.map Unfolding.id = ids := by simpa using hids
          have hlt : k < items.length := by simpa using hlt
          exact (hs k items[k].tree hk (by simp [hlt])).1
        · obtain ⟨k, hk, hv⟩ := Option.bind_eq_some_iff.1 hc
          exact (hs k child.tree hk (by simp [hv])).2

end Store

end ValueResolution
