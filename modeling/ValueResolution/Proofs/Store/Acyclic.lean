import Mathlib.Data.Fintype.Order
import Mathlib.Logic.Relation
import ValueResolution.Proofs.Store.Unfolding
/-!
# Roots that unfold

Entries name their children by id, and nothing keeps them from naming each other in a loop. A root
is acyclic (`Store.Acyclic`) when every id that can be reached from it is the id of an entry and no
loop can be reached. Exactly such a root has a tree: since there are finitely many entries, going
down from an acyclic root comes to an end, and the trees of the children make the tree of their
parent (`Store.exists_unfolds_iff`). Branches may be shared; the tree has a copy of such a
branch in each of its places.

A store whose entries only name earlier entries has no loops (`Store.acyclic_of_lt`).
-/

set_option autoImplicit false

namespace ValueResolution

namespace Store

open Relation

variable {σ α : Type} [Store σ α]

/-- The entry `i` names `j` as a child. -/
def Links (s : σ) (i j : NodeId) : Prop := ∃ e key, get? s i = some e ∧ (key, j) ∈ e.children

/-- Going down from a root never leaves the store and never comes back to where it was. -/
structure Acyclic (s : σ) (root : NodeId) : Prop where
  whole : ∀ i, ReflTransGen (Links s) root i → i < size s
  noLoop : ∀ i, ReflTransGen (Links s) root i → ¬ TransGen (Links s) i i

/-- The tree at an id. -/
def Unfolds (s : σ) (id : NodeId) (t : Tree α) : Prop := ∃ u, Holds s u ∧ u.id = id ∧ u.tree = t

theorem Unfolds.unique {s : σ} {id : NodeId} {t t' : Tree α} (h : Unfolds s id t)
    (h' : Unfolds s id t') : t = t' := by
  obtain ⟨u, hu, rfl, rfl⟩ := h
  obtain ⟨v, hv, hid, rfl⟩ := h'
  rw [hu.unique hv hid.symm]

theorem Holds.unfolds {s : σ} {u : Unfolding α} (h : Holds s u) : Unfolds s u.id u.tree :=
  ⟨u, h, rfl, rfl⟩

theorem holds_iff {s : σ} {u : Unfolding α} : Holds s u ↔
    get? s u.id = some u.entry ∧ ∀ x ∈ u.inner, get? s x.1 = some x.2 := by
  rw [Holds, Unfolding.entries_eq, List.forall_mem_cons]

theorem links_of_mem_map {s : σ} {i : NodeId} {children : Fields NodeId}
    (h : get? s i = some (.map children)) {c : String × NodeId} (hc : c ∈ children) :
    Links s i c.2 :=
  ⟨_, .field c.1, h, List.mem_map_of_mem (f := fun c => (Key.field c.1, c.2)) hc⟩

theorem links_of_mem_seq {s : σ} {i : NodeId} {items : List NodeId}
    (h : get? s i = some (.seq items)) {j : NodeId} (hj : j ∈ items) : Links s i j := by
  obtain ⟨k, hk, rfl⟩ := List.getElem_of_mem hj
  exact ⟨_, .index k, h, List.mem_mapIdx.2 ⟨k, hk, rfl⟩⟩

/-- The unfoldings of the children make one of the parent. -/
theorem exists_holds_of_children {s : σ} {i : NodeId} {e : Entry α} (he : get? s i = some e)
    (hchildren : ∀ j, Links s i j → ∃ u, Holds s u ∧ u.id = j) : ∃ u, Holds s u ∧ u.id = i := by
  have : Nonempty (Unfolding α) := ⟨.seq 0 []⟩
  choose! below hbelow using hchildren
  cases e with
  | leaf a => exact ⟨.leaf i a, holds_iff.2 ⟨he, by simp [Unfolding.inner]⟩, rfl⟩
  | map children =>
    have hlinks : ∀ c ∈ children, Holds s (below c.2) ∧ (below c.2).id = c.2 := fun c hc =>
      hbelow _ (links_of_mem_map he hc)
    have hids : Fields.mapEntries Unfolding.id (Fields.mapEntries below children) = children := by
      rw [Fields.mapEntries, Fields.mapEntries, List.map_map]
      refine (List.map_congr_left (g := id) fun c hc => ?_).trans (List.map_id _)
      exact Prod.ext rfl (hlinks c hc).2
    refine ⟨.map i (Fields.mapEntries below children), holds_iff.2 ⟨?_, fun x hx => ?_⟩, rfl⟩
    · rw [Unfolding.entry, hids]
      exact he
    · obtain ⟨_, hmem, hx⟩ := List.mem_flatMap.1 hx
      obtain ⟨c, hc, rfl⟩ := List.mem_map.1 hmem
      exact (hlinks c hc).1 x hx
  | seq items =>
    have hlinks : ∀ j ∈ items, Holds s (below j) ∧ (below j).id = j := fun j hj =>
      hbelow _ (links_of_mem_seq he hj)
    have hids : (items.map below).map Unfolding.id = items := by
      rw [List.map_map]
      exact (List.map_congr_left (g := id) fun j hj => (hlinks j hj).2).trans (List.map_id _)
    refine ⟨.seq i (items.map below), holds_iff.2 ⟨?_, fun x hx => ?_⟩, rfl⟩
    · rw [Unfolding.entry, hids]
      exact he
    · obtain ⟨_, hmem, hx⟩ := List.mem_flatMap.1 hx
      obtain ⟨j, hj, rfl⟩ := List.mem_map.1 hmem
      exact (hlinks j hj).1 x hx

variable {s : σ} {root : NodeId}

/-- Below an acyclic root there is no way down without end. -/
theorem Acyclic.wellFounded (h : Acyclic s root) : WellFounded
    fun j i : { i // ReflTransGen (Links s) root i } => TransGen (Links s) i.1 j.1 := by
  have : Finite { i // ReflTransGen (Links s) root i } :=
    (Set.finite_lt_nat (size s)).subset h.whole
  have : IsTrans { i // ReflTransGen (Links s) root i } fun j i => TransGen (Links s) i.1 j.1 :=
    ⟨fun _ _ _ hab hbc => hbc.trans hab⟩
  have : Std.Irrefl fun j i : { i // ReflTransGen (Links s) root i } =>
      TransGen (Links s) i.1 j.1 :=
    ⟨fun i hi => h.noLoop i.1 i.2 hi⟩
  exact Finite.wellFounded_of_trans_of_irrefl _

theorem Acyclic.exists_unfolds [LawfulStore σ] (h : Acyclic s root) : ∃ t, Unfolds s root t := by
  suffices ∀ i : { i // ReflTransGen (Links s) root i }, ∃ u, Holds s u ∧ u.id = i.1 by
    obtain ⟨u, hu, rfl⟩ := this ⟨root, .refl⟩
    exact ⟨u.tree, hu.unfolds⟩
  intro i
  induction i using h.wellFounded.induction with
  | h i ih =>
  obtain ⟨e, he⟩ := exists_get?_of_lt (h.whole i.1 i.2)
  exact exists_holds_of_children he fun j hj => ih ⟨j, i.2.tail hj⟩ (.single hj)

/-- What an entry names stands in the unfolding of the entry. -/
theorem Holds.of_links {u : Unfolding α} (h : Holds s u) {j : NodeId} (hj : Links s u.id j) :
    ∃ v, Holds s v ∧ v.id = j ∧ v.entries.length < u.entries.length := by
  obtain ⟨e, key, he, hmem⟩ := hj
  obtain rfl := Option.some.inj (h.root.symm.trans he)
  cases u with
  | leaf i a => simp [Unfolding.entry, Entry.children] at hmem
  | map i cs =>
    obtain ⟨_, hnamed, heq⟩ := List.mem_map.1 hmem
    obtain ⟨c, hc, rfl⟩ := List.mem_map.1 hnamed
    exact ⟨c.2, h.of_mem_map hc, (Prod.mk.inj heq).2, Unfolding.length_entries_map hc i⟩
  | seq i ts =>
    obtain ⟨k, hk, heq⟩ := List.mem_mapIdx.1 hmem
    have hk' : k < ts.length := by simpa using hk
    refine ⟨ts[k], h.of_mem_seq (List.getElem_mem hk'), ?_,
      Unfolding.length_entries_seq (List.getElem_mem hk') i⟩
    simpa using (Prod.mk.inj heq).2

/-- Only acyclic roots have a tree. -/
theorem Holds.acyclic [LawfulStore σ] {u : Unfolding α} (h : Holds s u) : Acyclic s u.id := by
  have hbelow : ∀ i j, TransGen (Links s) i j → ∀ v, Holds s v → v.id = i →
      ∃ w, Holds s w ∧ w.id = j ∧ w.entries.length < v.entries.length := by
    intro i j hij v hv hid
    induction hij with
    | single hij => exact hv.of_links (hid ▸ hij)
    | tail _ hjk ih =>
      obtain ⟨w, hw, rfl, hlt⟩ := ih
      obtain ⟨x, hx, hxid, hlt'⟩ := hw.of_links hjk
      exact ⟨x, hx, hxid, hlt'.trans hlt⟩
  have hreached : ∀ i, ReflTransGen (Links s) u.id i → ∃ v, Holds s v ∧ v.id = i := by
    intro i hi
    rcases reflTransGen_iff_eq_or_transGen.1 hi with rfl | hi
    · exact ⟨u, h, rfl⟩
    · obtain ⟨v, hv, hid, -⟩ := hbelow _ _ hi u h rfl
      exact ⟨v, hv, hid⟩
  refine ⟨fun i hi => ?_, fun i hi hloop => ?_⟩
  · obtain ⟨v, hv, rfl⟩ := hreached i hi
    exact hv.id_lt_size
  · obtain ⟨v, hv, rfl⟩ := hreached i hi
    obtain ⟨w, hw, hid, hlt⟩ := hbelow _ _ hloop v hv rfl
    rw [hw.unique hv hid] at hlt
    exact Nat.lt_irrefl _ hlt

/-- The roots that have a tree are the acyclic ones. -/
theorem exists_unfolds_iff [LawfulStore σ] : (∃ t, Unfolds s root t) ↔ Acyclic s root := by
  constructor
  · rintro ⟨_, u, hu, rfl, -⟩
    exact hu.acyclic
  · exact Acyclic.exists_unfolds

/-- A store is acyclic from every root if its entries name earlier ones only. -/
theorem acyclic_of_lt (h : ∀ i j, Links s i j → j < i) (hroot : root < size s) :
    Acyclic s root := by
  have hdown : ∀ i j, TransGen (Links s) i j → j < i := fun i j hij => by
    induction hij with
    | single hij => exact h _ _ hij
    | tail _ hjk ih => exact (h _ _ hjk).trans ih
  refine ⟨fun i hi => ?_, fun i _ hi => Nat.lt_irrefl i (hdown i i hi)⟩
  rcases reflTransGen_iff_eq_or_transGen.1 hi with rfl | hi
  · exact hroot
  · exact (hdown root i hi).trans hroot

end Store

end ValueResolution
