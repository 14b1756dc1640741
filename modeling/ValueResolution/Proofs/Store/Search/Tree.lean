import ValueResolution.Proofs.Store.Search.Graph
/-!
# What a search finds in a tree

Where no container can be reached in two ways, a search finds what is outermost of the entries that
pass: `Unfolding.outermost` lists their paths, a container's children in order. The search takes the
last child first, so it finds them in the reverse of this order (`Store.findPaths_tree`). Here the
test may go by the path as well.

The places on the stack of the walk are unfoldings that are still unseen and share no container
(`Store.Unwalked`), and what the walk finds is what is outermost in each of them, the top of the
stack first (`Store.walk_unwalked`).
-/

set_option autoImplicit false

namespace ValueResolution

namespace Unfolding

variable {α : Type}

/-- The children with their keys, in order. -/
def listed : Unfolding α → List (Key × Unfolding α)
  | leaf _ _ => []
  | map _ children => children.map fun c => (.field c.1, c.2)
  | seq _ items => items.mapIdx fun i u => (.index i, u)

/-- The children with their paths, if the root stands at the given path. -/
def beneath (u : Unfolding α) (path : Path) : List (Path × Unfolding α) :=
  u.listed.map fun c => (path ++ [c.1], c.2)

theorem children_entry (u : Unfolding α) :
    u.entry.children = u.listed.map fun c => (c.1, c.2.id) := by
  cases u with
  | leaf i a => rfl
  | map i children => simp [entry, Entry.children, listed, Fields.mapEntries]
  | seq i items => rw [entry, Entry.children, listed, mapIdx_map, map_mapIdx]

/-- Below the root are the nodes of the children, in order. -/
theorem inner_eq (u : Unfolding α) : u.inner = u.listed.flatMap fun c => c.2.entries := by
  cases u with
  | leaf i a => rfl
  | map i children => simp [inner, listed, List.flatMap_map]
  | seq i items =>
    have hitems : (items.mapIdx fun i u => (Key.index i, u)).map Prod.snd = items := by
      refine List.ext_getElem? fun j => ?_
      simp [Function.comp_def]
    rw [inner, listed, ← List.flatMap_map Prod.snd, hitems]

theorem entries_eq_beneath (u : Unfolding α) (path : Path) :
    u.entries = (u.id, u.entry) :: (u.beneath path).flatMap fun x => x.2.entries := by
  rw [entries_eq, inner_eq, beneath, List.flatMap_map]

/-- The ids of the containers. -/
def containers (u : Unfolding α) : List NodeId :=
  (u.entries.filter fun x => x.2.isContainer).map Prod.fst

/-- The containers are the root and those of the children. -/
theorem containers_eq {u : Unfolding α} (h : u.entry.isContainer = true) (path : Path) :
    u.containers = u.id :: (u.beneath path).flatMap fun x => x.2.containers := by
  rw [containers, entries_eq_beneath u path, List.filter_cons_of_pos (by exact h), List.map_cons,
    List.filter_flatMap, List.map_flatMap]
  rfl

/-- There is nothing beneath a leaf. -/
theorem beneath_leaf {u : Unfolding α} (h : u.entry.isContainer = false) (path : Path) :
    u.beneath path = [] := by
  cases u with
  | leaf i a => rfl
  | map i children => cases h
  | seq i items => cases h

/-! ## What is outermost -/

mutual

/-- The paths of the entries that pass and are in no entry that passes, in the order of the
children, if the root stands at the given path. -/
def outermost (test : Entry α → Path → Bool) : Unfolding α → Path → List Path
  | leaf _ a, path => if test (.leaf a) path then [path] else []
  | map _ children, path =>
    if test (.map (Fields.mapEntries id children)) path then [path]
    else outermostOfFields test children path
  | seq _ items, path =>
    if test (.seq (items.map id)) path then [path] else outermostOfItems test items path 0

/-- What is outermost in the children of a mapping. -/
def outermostOfFields (test : Entry α → Path → Bool) :
    List (String × Unfolding α) → Path → List Path
  | [], _ => []
  | (name, u) :: rest, path =>
    outermost test u (path ++ [.field name]) ++ outermostOfFields test rest path

/-- What is outermost in the items of a sequence from the position `i` on. -/
def outermostOfItems (test : Entry α → Path → Bool) :
    List (Unfolding α) → Path → Nat → List Path
  | [], _, _ => []
  | u :: rest, path, i =>
    outermost test u (path ++ [.index i]) ++ outermostOfItems test rest path (i + 1)

end

variable (test : Entry α → Path → Bool)

theorem outermostOfFields_eq (children : List (String × Unfolding α)) (path : Path) :
    outermostOfFields test children path =
      children.flatMap fun c => c.2.outermost test (path ++ [.field c.1]) := by
  induction children with
  | nil => rfl
  | cons c rest ih => rw [outermostOfFields, ih]; rfl

theorem outermostOfItems_eq (items : List (Unfolding α)) (path : Path) (i : Nat) :
    outermostOfItems test items path i =
      (items.mapIdx fun j u => (Key.index (i + j), u)).flatMap fun c =>
        c.2.outermost test (path ++ [c.1]) := by
  induction items generalizing i with
  | nil => rfl
  | cons u rest ih =>
    rw [outermostOfItems, ih, List.mapIdx_cons, List.flatMap_cons]
    simp only [Nat.add_zero, Nat.add_assoc, Nat.add_comm 1]

/-- What is outermost is the root, or it is outermost in a child. -/
theorem outermost_eq (u : Unfolding α) (path : Path) : u.outermost test path =
    if test u.entry path then [path]
    else (u.beneath path).flatMap fun x => x.2.outermost test x.1 := by
  rw [beneath, List.flatMap_map]
  cases u with
  | leaf i a => rfl
  | map i children =>
    rw [outermost, outermostOfFields_eq, listed, List.flatMap_map]
    rfl
  | seq i items =>
    rw [outermost, outermostOfItems_eq, listed]
    simp only [Nat.zero_add]
    rfl

end Unfolding

namespace Store

variable {σ α : Type} [Store σ α] {s : σ} {test : Entry α → Path → Bool}

/-- What is listed of an entry are its children in the unfolding, with their paths. -/
theorem listed_of_holds {u : Unfolding α} (h : Holds s u) (path : Path) :
    listed s (path, u.id) = (u.beneath path).map fun x => (x.1, x.2.id) := by
  rw [listed_eq h.root, u.children_entry, Unfolding.beneath, List.map_map, List.map_map]
  rfl

theorem Holds.mem_containers {u : Unfolding α} (h : Holds s u) {i : NodeId} {e : Entry α}
    (he : get? s i = some e) (hc : e.isContainer = true) (hi : i ∈ u.ids) : i ∈ u.containers := by
  obtain ⟨⟨j, e'⟩, hx, rfl⟩ := List.mem_map.1 hi
  obtain rfl : e = e' := Option.some.inj (he.symm.trans (h _ hx))
  exact List.mem_map_of_mem (f := Prod.fst) (List.mem_filter.2 ⟨hx, hc⟩)

/-! ## The walk -/

/-- The unfoldings on the stack are there and unseen, and share no container. -/
structure Unwalked (s : σ) (unseen : List NodeId) (stack : List (Path × Unfolding α)) : Prop where
  holds : ∀ x ∈ stack, Holds s x.2
  unseen : ∀ x ∈ stack, ∀ i ∈ x.2.ids, i ∈ unseen
  nodup : (stack.flatMap fun x => x.2.containers).Nodup

namespace Unwalked

variable {unseen : List NodeId} {path : Path} {u : Unfolding α}
variable {rest : List (Path × Unfolding α)}

/-- What is not walked yet stays so when the top of the stack is taken away. -/
theorem tail (h : Unwalked s unseen ((path, u) :: rest)) : Unwalked s unseen rest where
  holds := (List.forall_mem_cons.1 h.holds).2
  unseen := (List.forall_mem_cons.1 h.unseen).2
  nodup := by
    have hnodup := h.nodup
    rw [List.flatMap_cons] at hnodup
    exact (List.nodup_append.1 hnodup).2.1

/-- Going into a container leaves what is below it and what is on the stack besides: neither has the
container in it. -/
theorem enter (h : Unwalked s unseen ((path, u) :: rest)) (hc : u.entry.isContainer = true) :
    Unwalked s (unseen.erase u.id) ((u.beneath path).reverse ++ rest) := by
  obtain ⟨hu, hrest⟩ := List.forall_mem_cons.1 h.holds
  obtain ⟨hinu, hinrest⟩ := List.forall_mem_cons.1 h.unseen
  have hentries : ∀ x ∈ u.beneath path, x.2.entries ⊆ u.entries := by
    intro x hx y hy
    rw [u.entries_eq_beneath path]
    exact List.mem_cons_of_mem _ (List.mem_flatMap.2 ⟨x, hx, hy⟩)
  have hholds : ∀ x ∈ (u.beneath path).reverse ++ rest, Holds s x.2 := by
    intro x hx
    rcases List.mem_append.1 hx with hx | hx
    · exact fun y hy => hu y (hentries x (List.mem_reverse.1 hx) hy)
    · exact hrest x hx
  have hnodup := h.nodup
  rw [List.flatMap_cons, Unfolding.containers_eq hc path, List.cons_append, List.nodup_cons,
    ← List.flatMap_append] at hnodup
  obtain ⟨hout, hnodup⟩ := hnodup
  have hperm := (u.beneath path).reverse_perm.append_right rest
  refine ⟨hholds, fun x hx i hi => ?_, (hperm.flatMap_right _).nodup_iff.2 hnodup⟩
  have hne : i ≠ u.id := by
    rintro rfl
    have hmem := (hholds x hx).mem_containers hu.root hc hi
    exact hout (List.mem_flatMap.2 ⟨x, hperm.subset hx, hmem⟩)
  refine (List.mem_erase_of_ne hne).2 ?_
  rcases List.mem_append.1 hx with hx | hx
  · exact hinu i (List.map_subset _ (hentries x (List.mem_reverse.1 hx)) hi)
  · exact hinrest x hx i hi

/-- All children of a container are unseen when it is gone into. -/
theorem filter_listed (h : Unwalked s unseen ((path, u) :: rest))
    (hc : u.entry.isContainer = true) :
    ((listed s (path, u.id)).filter fun b => (unseen.erase u.id).contains b.2) =
      (u.beneath path).map fun x => (x.1, x.2.id) := by
  rw [listed_of_holds (h.holds _ List.mem_cons_self), List.filter_map]
  congr 1
  refine List.filter_eq_self.2 fun x hx => ?_
  have hmem := (h.enter hc).unseen x (List.mem_append_left _ (List.mem_reverse.2 hx)) _
    x.2.id_mem_ids
  simpa using hmem

end Unwalked

/-- The walk finds what is outermost in each of the unfoldings on the stack. -/
theorem walk_unwalked {unseen : List NodeId} {stack : List (Path × Unfolding α)}
    (h : Unwalked s unseen stack) :
    ((walk s test unseen (stack.map fun x => (x.1, x.2.id))).filter Visit.passed).map Visit.path =
      stack.flatMap fun x => (x.2.outermost test x.1).reverse := by
  induction hsize : (stack.flatMap fun x => x.2.entries).length using Nat.strong_induction_on
    generalizing stack unseen with
  | _ size ih =>
    cases stack with
    | nil => rw [List.map_nil, walk]; rfl
    | cons x rest =>
      obtain ⟨path, u⟩ := x
      have hroot := (h.holds _ List.mem_cons_self).root
      have hid : u.id ∈ unseen := h.unseen _ List.mem_cons_self _ u.id_mem_ids
      rw [List.flatMap_cons, List.length_append, u.entries_eq_beneath path,
        List.length_cons] at hsize
      have hbehind := ih _ (by omega) h.tail rfl
      rw [List.map_cons, List.flatMap_cons, Unfolding.outermost_eq]
      cases ht : test u.entry path with
      | true =>
        rw [walk_passed hroot (fun _ => hid) ht]
        simp [hbehind]
      | false =>
        cases hc : u.entry.isContainer with
        | false =>
          rw [walk_leaf hroot hc ht]
          simp [hbehind, Unfolding.beneath_leaf hc path]
        | true =>
          have hlength : (((u.beneath path).reverse ++ rest).flatMap fun x => x.2.entries).length =
              ((u.beneath path).flatMap fun x => x.2.entries).length +
                (rest.flatMap fun x => x.2.entries).length := by
            rw [← List.length_append, ← List.flatMap_append]
            exact (((u.beneath path).reverse_perm.append_right rest).flatMap_right _).length_eq
          have hinto := ih _ (by omega) (h.enter hc) rfl
          rw [walk_entered hroot hc hid ht, h.filter_listed hc, ← List.map_reverse,
            ← List.map_append, List.filter_cons_of_neg (by simp), hinto, List.flatMap_append,
            if_neg (by simp), List.reverse_flatMap]
          rfl

/-- Where no container can be reached in two ways, a search finds what is outermost of the entries
that pass, in reverse order. -/
theorem findPaths_tree [LawfulStore σ] {u : Unfolding α} (h : Holds s u)
    (hnodup : u.containers.Nodup) (test : Entry α → Path → Bool) :
    findPaths s u.id test = (u.outermost test []).reverse := by
  have hstart : Unwalked s (List.range (size s)) [([], u)] := by
    refine ⟨by simpa using h, fun x hx i hi => ?_, by simpa using hnodup⟩
    obtain rfl := List.mem_singleton.1 hx
    obtain ⟨y, hy, rfl⟩ := List.mem_map.1 hi
    exact List.mem_range.2 (lt_size_of_get? (h y hy))
  simpa [findPaths, visits] using walk_unwalked hstart

end Store

end ValueResolution
