import Mathlib.Data.List.Nodup
import Mathlib.Order.Nat
import Mathlib.Tactic.SplitIfs
import ValueResolution.Proofs.Revision
import ValueResolution.Proofs.Store.Unfolding
/-!
# Changing an unfolding

An unfolding can take another id at its root (`Unfolding.withId`) and another child under a key
that it has (`Unfolding.withChild`), or lose one (`Unfolding.without`). Writing under a key that may
be missing is `Unfolding.place?`; it is what `Entry.place?` does to the entry of the root and what
`Tree.place?` does to the tree. The nodes beside the place stay, and those in it give way to the
nodes of what is written (`Unfolding.entries_place`).
-/

set_option autoImplicit false

namespace ValueResolution

namespace Unfolding

variable {α : Type}

/-! ## Other ids and other children -/

/-- The unfolding with another id at the root. -/
def withId (i : Nat) : Unfolding α → Unfolding α
  | leaf _ a => leaf i a
  | map _ children => map i children
  | seq _ items => seq i items

@[simp] theorem id_withId (u : Unfolding α) (i : Nat) : (u.withId i).id = i := by cases u <;> rfl

@[simp] theorem withId_id (u : Unfolding α) : u.withId u.id = u := by cases u <;> rfl

@[simp] theorem entry_withId (u : Unfolding α) (i : Nat) : (u.withId i).entry = u.entry := by
  cases u <;> rfl

@[simp] theorem inner_withId (u : Unfolding α) (i : Nat) : (u.withId i).inner = u.inner := by
  cases u <;> rfl

@[simp] theorem tree_withId (u : Unfolding α) (i : Nat) : (u.withId i).tree = u.tree := by
  cases u <;> rfl

/-- The unfolding with another child under a key that it has. -/
def withChild (u : Unfolding α) (key : Key) (child : Unfolding α) : Unfolding α :=
  match u with
  | leaf i a => leaf i a
  | map i children => map i (Fields.put children key.text child)
  | seq i items =>
    match key.index? with
    | some j => seq i (items.set j child)
    | none => seq i items

/-- A child stands between the other nodes, and another one takes its place. -/
theorem inner_withChild {u child : Unfolding α} {key : Key} (h : u.child? key = some child) :
    ∃ before behind, u.inner = before ++ child.entries ++ behind ∧
      ∀ other, (u.withChild key other).inner = before ++ other.entries ++ behind := by
  cases u with
  | leaf i a => simp [child?] at h
  | map i children =>
    obtain ⟨before, behind, rfl, hno⟩ := Fields.at?_eq_some_iff.1 h
    refine ⟨before.flatMap fun c => c.2.entries, behind.flatMap fun c => c.2.entries, ?_,
      fun other => ?_⟩
    · simp [inner]
    · simp [withChild, Fields.put_append child other hno, inner]
  | seq i items =>
    obtain ⟨j, hj, hget⟩ := Option.bind_eq_some_iff.1 h
    obtain ⟨hlt, hchild⟩ := List.getElem?_eq_some_iff.1 hget
    refine ⟨(items.take j).flatMap entries, (items.drop (j + 1)).flatMap entries, ?_,
      fun other => ?_⟩
    · conv_lhs => rw [inner, ← List.take_append_drop j items, List.drop_eq_getElem_cons hlt]
      simp [hchild]
    · simp only [withChild, hj, inner]
      rw [List.set_eq_take_append_cons_drop, if_pos hlt]
      simp

@[simp] theorem id_withChild (u : Unfolding α) (key : Key) (child : Unfolding α) :
    (u.withChild key child).id = u.id := by
  cases u with
  | leaf i a => rfl
  | map i children => rfl
  | seq i items =>
    unfold withChild
    cases key.index? <;> rfl

/-- The tree with another child is that of the unfolding with another child. -/
theorem tree_withChild (u : Unfolding α) (key : Key) (child : Unfolding α) :
    (u.withChild key child).tree = u.tree.withChild key child.tree := by
  cases u with
  | leaf i a => rfl
  | map i children =>
    simp only [withChild, tree_map, Tree.withChild]
    rw [Fields.put_mapEntries]
  | seq i items =>
    cases h : key.index? with
    | none => simp [withChild, Tree.withChild, h]
    | some j => simp [withChild, Tree.withChild, h, List.map_set]

/-- Putting a child where it is changes nothing. -/
theorem withChild_self {u child : Unfolding α} {key : Key} (h : u.child? key = some child) :
    u.withChild key child = u := by
  cases u with
  | leaf i a => rfl
  | map i children =>
    obtain ⟨before, behind, rfl, hno⟩ := Fields.at?_eq_some_iff.1 h
    rw [withChild, Fields.put_append child child hno]
  | seq i items =>
    obtain ⟨j, hj, hget⟩ := Option.bind_eq_some_iff.1 h
    obtain ⟨hlt, rfl⟩ := List.getElem?_eq_some_iff.1 hget
    simp [withChild, hj]

/-- The child that was put under a key is found there. -/
theorem child?_withChild {u child : Unfolding α} {key : Key} (h : u.child? key = some child)
    (other : Unfolding α) : (u.withChild key other).child? key = some other := by
  cases u with
  | leaf i a => simp [child?] at h
  | map i children => simp [withChild, child?, Fields.at?_put]
  | seq i items =>
    obtain ⟨j, hj, hget⟩ := Option.bind_eq_some_iff.1 h
    obtain ⟨hlt, -⟩ := List.getElem?_eq_some_iff.1 hget
    simp [withChild, child?, hj, hlt]

/-! ## Ids of children -/

theorem ids_eq (u : Unfolding α) : u.ids = u.id :: u.inner.map Prod.fst := by
  rw [ids, entries_eq, List.map_cons]

/-- Between the ids of the other nodes stand those of the child, whichever it is. -/
theorem ids_withChild {u child : Unfolding α} {key : Key} (h : u.child? key = some child) :
    ∃ before behind, u.ids = u.id :: before ++ child.ids ++ behind ∧
      ∀ other, (u.withChild key other).ids = u.id :: before ++ other.ids ++ behind := by
  obtain ⟨before, behind, hinner, hinner'⟩ := inner_withChild h
  refine ⟨before.map Prod.fst, behind.map Prod.fst, ?_, fun other => ?_⟩
  · rw [ids_eq, hinner, List.map_append, List.map_append]
    rfl
  · rw [ids_eq, hinner', id_withChild, List.map_append, List.map_append]
    rfl

/-- Where no id repeats, a child does not have that of its parent. -/
theorem id_notMem_child {u child : Unfolding α} {key : Key} (h : u.child? key = some child)
    (hn : u.ids.Nodup) : u.id ∉ child.ids := by
  obtain ⟨before, behind, hids, -⟩ := ids_withChild h
  rw [hids, List.nodup_append, List.nodup_append] at hn
  exact fun hmem => hn.1.2.2 _ List.mem_cons_self _ hmem rfl

theorem ids_child_subset {u child : Unfolding α} {key : Key} (h : u.child? key = some child) :
    child.ids ⊆ u.ids :=
  List.map_subset _ (entries_child_subset h)

/-- Where no id repeats, none repeats in a child. -/
theorem nodup_child {u child : Unfolding α} {key : Key} (h : u.child? key = some child)
    (hn : u.ids.Nodup) : child.ids.Nodup := by
  obtain ⟨before, behind, hids, -⟩ := ids_withChild h
  rw [hids, List.nodup_append, List.nodup_append] at hn
  exact hn.1.2.1

/-! ## Losing a child -/

/-- The unfolding without what is under the key. -/
def without (u : Unfolding α) (key : Key) : Unfolding α :=
  match u with
  | leaf i a => leaf i a
  | map i children => map i (Fields.remove children key.text)
  | seq i items =>
    match key.index? with
    | some j => seq i (items.eraseIdx j)
    | none => seq i items

@[simp] theorem id_without (u : Unfolding α) (key : Key) : (u.without key).id = u.id := by
  cases u with
  | leaf i a => rfl
  | map i children => rfl
  | seq i items =>
    unfold without
    cases key.index? <;> rfl

/-- The nodes that stay are those that are not in the child. -/
theorem inner_without {u child : Unfolding α} {key : Key} (h : u.child? key = some child) :
    ∃ before behind, u.inner = before ++ child.entries ++ behind ∧
      (u.without key).inner = before ++ behind := by
  cases u with
  | leaf i a => simp [child?] at h
  | map i children =>
    obtain ⟨before, behind, rfl, hno⟩ := Fields.at?_eq_some_iff.1 h
    refine ⟨before.flatMap fun c => c.2.entries, behind.flatMap fun c => c.2.entries, ?_, ?_⟩
    · simp [inner]
    · simp [without, Fields.remove_append child hno, inner]
  | seq i items =>
    obtain ⟨j, hj, hget⟩ := Option.bind_eq_some_iff.1 h
    obtain ⟨hlt, hchild⟩ := List.getElem?_eq_some_iff.1 hget
    refine ⟨(items.take j).flatMap entries, (items.drop (j + 1)).flatMap entries, ?_, ?_⟩
    · conv_lhs => rw [inner, ← List.take_append_drop j items, List.drop_eq_getElem_cons hlt]
      simp [hchild]
    · simp [without, hj, inner, List.eraseIdx_eq_take_drop_succ]

/-! ## Writing under a key -/

/-- The container with `child` under the key, or without the key if there is no child to write. -/
def place? (u : Unfolding α) (key : Key) (child : Option (Unfolding α)) : Option (Unfolding α) :=
  match u, child with
  | leaf _ _, _ => none
  | map i children, some child => some (map i (Fields.put children key.text child))
  | map i children, none => some (map i (Fields.remove children key.text))
  | seq i items, some child =>
    key.index?.bind fun j =>
      if j < items.length then some (seq i (items.set j child))
      else if j = items.length then some (seq i (items ++ [child]))
      else none
  | seq i items, none =>
    key.index?.bind fun j => if j < items.length then some (seq i (items.eraseIdx j)) else none

/-- The entry can be given another child exactly when the unfolding can. -/
theorem place?_entry_eq (u : Unfolding α) (key : Key) (child : Option (Unfolding α)) :
    u.entry.place? key (child.map id) = (u.place? key child).map entry := by
  cases u with
  | leaf i a => rfl
  | map i children =>
    cases child with
    | none => simp [entry, Entry.place?, place?, Fields.remove_mapEntries]
    | some child => simp [entry, Entry.place?, place?, Fields.put_mapEntries]
  | seq i items =>
    cases hj : key.index? with
    | none => cases child <;> simp [entry, Entry.place?, place?, hj]
    | some j =>
      cases child with
      | none =>
        simp only [entry, Entry.place?, place?, hj, Option.map_none, Option.bind_some,
          List.length_map]
        split_ifs
        · simp [entry, List.eraseIdx_map]
        · rfl
      | some child =>
        simp only [entry, Entry.place?, place?, hj, Option.map_some, Option.bind_some,
          List.length_map]
        split_ifs
        · simp [entry, List.map_set]
        · simp [entry]
        · rfl

/-- So can the tree. -/
theorem place?_tree_eq (u : Unfolding α) (key : Key) (child : Option (Unfolding α)) :
    u.tree.place? key (child.map tree) = (u.place? key child).map tree := by
  cases u with
  | leaf i a => rfl
  | map i children =>
    cases child with
    | none => simp [Tree.place?, place?, Fields.remove_mapEntries]
    | some child => simp [Tree.place?, place?, Fields.put_mapEntries]
  | seq i items =>
    cases hj : key.index? with
    | none => cases child <;> simp [Tree.place?, place?, hj]
    | some j =>
      cases child with
      | none =>
        simp only [tree_seq, Tree.place?, place?, hj, Option.map_none, Option.bind_some,
          List.length_map]
        split_ifs
        · simp [List.eraseIdx_map]
        · rfl
      | some child =>
        simp only [tree_seq, Tree.place?, place?, hj, Option.map_some, Option.bind_some,
          List.length_map]
        split_ifs
        · simp [List.map_set]
        · simp
        · rfl

/-- A child that is there can be replaced. -/
theorem place?_of_child {u child : Unfolding α} {key : Key} (h : u.child? key = some child)
    (other : Unfolding α) : u.place? key (some other) = some (u.withChild key other) := by
  cases u with
  | leaf i a => simp [child?] at h
  | map i children => rfl
  | seq i items =>
    obtain ⟨j, hj, hget⟩ := Option.bind_eq_some_iff.1 h
    obtain ⟨hlt, -⟩ := List.getElem?_eq_some_iff.1 hget
    simp [place?, withChild, hj, hlt]

/-- A child is known to its parent by its id. -/
theorem entry_withChild {u child other : Unfolding α} {key : Key}
    (h : u.child? key = some child) (hid : other.id = child.id) :
    (u.withChild key other).entry = u.entry := by
  have hother := place?_entry_eq u key (some other)
  have hself := place?_entry_eq u key (some child)
  rw [place?_of_child h] at hother hself
  rw [Option.map_some, hid] at hother
  rw [Option.map_some, withChild_self h] at hself
  exact Option.some.inj (hother.symm.trans hself)

/-- A child that is there can be taken out. -/
theorem place?_none_of_child {u child : Unfolding α} {key : Key} (h : u.child? key = some child) :
    u.place? key none = some (u.without key) := by
  cases u with
  | leaf i a => simp [child?] at h
  | map i children => rfl
  | seq i items =>
    obtain ⟨j, hj, hget⟩ := Option.bind_eq_some_iff.1 h
    obtain ⟨hlt, -⟩ := List.getElem?_eq_some_iff.1 hget
    simp [place?, without, hj, hlt]

/-- The nodes of what stands in a place. -/
def nodes (u? : Option (Unfolding α)) : List (Nat × Entry α) := u?.elim [] entries

/-- What is written where nothing stands comes to the end. -/
theorem inner_place_of_none {u v : Unfolding α} {key : Key} {child : Option (Unfolding α)}
    (hc : u.child? key = none) (h : u.place? key child = some v) :
    v.id = u.id ∧ v.inner = u.inner ++ nodes child := by
  cases u with
  | leaf i a => simp [place?] at h
  | map i children =>
    have hno : key.text ∉ Fields.names children := (Fields.at?_eq_none_iff _ _).1 hc
    cases child with
    | none =>
      obtain rfl := Option.some.inj h
      simp [Fields.remove_of_notMem hno, id, nodes]
    | some child =>
      obtain rfl := Option.some.inj h
      simp [Fields.put_of_notMem hno, id, inner, nodes]
  | seq i items =>
    have hno : ∀ j, key.index? = some j → ¬ j < items.length := fun j hj hlt => by
      simp [child?, hj, hlt] at hc
    cases child with
    | none =>
      obtain ⟨j, hj, h⟩ := Option.bind_eq_some_iff.1 h
      rw [if_neg (hno j hj)] at h
      exact absurd h (by simp)
    | some child =>
      obtain ⟨j, hj, h⟩ := Option.bind_eq_some_iff.1 h
      rw [if_neg (hno j hj)] at h
      obtain ⟨-, h⟩ := Option.ite_none_right_eq_some.1 h
      obtain rfl := Option.some.inj h
      simp [id, inner, nodes]

/-- The nodes beside a place stay, and those in it give way to the new ones. -/
theorem inner_place {u v : Unfolding α} {key : Key} {child : Option (Unfolding α)}
    (h : u.place? key child = some v) : v.id = u.id ∧ ∃ side,
      u.inner.Perm (side ++ nodes (u.child? key)) ∧ v.inner.Perm (side ++ nodes child) := by
  have hswap : ∀ a b c : List (Nat × Entry α), (a ++ b ++ c).Perm (a ++ c ++ b) := fun a b c => by
    rw [List.append_assoc, List.append_assoc]
    exact List.perm_append_comm.append_left a
  cases hc : u.child? key with
  | none =>
    obtain ⟨hid, hinner⟩ := inner_place_of_none hc h
    exact ⟨hid, u.inner, by simp [nodes], by rw [hinner]⟩
  | some old =>
    cases child with
    | none =>
      obtain rfl := Option.some.inj ((place?_none_of_child hc).symm.trans h)
      obtain ⟨before, behind, hinner, hinner'⟩ := inner_without hc
      refine ⟨id_without _ _, before ++ behind, ?_, ?_⟩
      · rw [hinner]
        exact hswap _ _ _
      · rw [hinner']
        simp [nodes]
    | some child =>
      obtain rfl := Option.some.inj ((place?_of_child hc child).symm.trans h)
      obtain ⟨before, behind, hinner, hinner'⟩ := inner_withChild hc
      refine ⟨id_withChild _ _ _, before ++ behind, ?_, ?_⟩
      · rw [hinner]
        exact hswap _ _ _
      · rw [hinner']
        exact hswap _ _ _

/-- Placing a child changes the entry of the root and exchanges the nodes of the child; those beside
it stay. -/
theorem entries_place {u v : Unfolding α} {key : Key} {child : Option (Unfolding α)}
    (h : u.place? key child = some v) : v.id = u.id ∧ ∃ side,
      u.entries.Perm ((u.id, u.entry) :: side ++ nodes (u.child? key)) ∧
      v.entries.Perm ((u.id, v.entry) :: side ++ nodes child) := by
  obtain ⟨hid, side, hu, hv⟩ := inner_place h
  refine ⟨hid, side, ?_, ?_⟩
  · rw [entries_eq u]
    exact hu.cons _
  · rw [entries_eq v, hid]
    exact hv.cons _

end Unfolding

end ValueResolution
