import ValueResolution.Proofs.Store.Lawful
import ValueResolution.Proofs.Tree
/-!
# Unfolding a store

An `Unfolding` is a tree whose nodes carry the ids under which a store keeps them. A store holds an
unfolding (`Store.Holds`) when every one of its entries is there; the tree of the unfolding is then
what the store means at its id. There is at most one unfolding of an id (`Store.Holds.unique`), and
no container of it can be reached through itself, so building the plain value succeeds and gives
the value of the tree (`Store.Holds.materialize`). Reading from a frame is reading the tree
(`Store.Holds.follow`).
-/

set_option autoImplicit false

namespace ValueResolution

/-- A tree with the id of every node. -/
inductive Unfolding (α : Type) where
  | leaf (id : Nat) (a : α)
  | map (id : Nat) (children : List (String × Unfolding α))
  | seq (id : Nat) (items : List (Unfolding α))

namespace Unfolding

variable {α : Type}

/-- Induction over an unfolding, with the hypothesis for every child of a container. -/
@[elab_as_elim]
theorem induction {motive : Unfolding α → Prop} (leaf : ∀ id a, motive (leaf id a))
    (map : ∀ id children, (∀ c ∈ children, motive c.2) → motive (map id children))
    (seq : ∀ id items, (∀ t ∈ items, motive t) → motive (seq id items)) : ∀ u, motive u
  | .leaf id a => leaf id a
  | .map id children => map id children fun c _hc => induction leaf map seq c.2
  | .seq id items => seq id items fun t _ht => induction leaf map seq t
decreasing_by
  · obtain ⟨name, t⟩ := c
    have := List.sizeOf_lt_of_mem _hc
    simp only [Unfolding.map.sizeOf_spec, Prod.mk.sizeOf_spec] at this ⊢
    omega
  · have := List.sizeOf_lt_of_mem _ht
    simp only [Unfolding.seq.sizeOf_spec]
    omega

/-- The id of the root. -/
def id : Unfolding α → Nat
  | leaf id _ => id
  | map id _ => id
  | seq id _ => id

/-- The entry of the root. -/
def entry : Unfolding α → Entry α
  | leaf _ a => .leaf a
  | map _ children => .map (Fields.mapEntries id children)
  | seq _ items => .seq (items.map id)

mutual

/-- The tree without the ids. -/
def tree : Unfolding α → Tree α
  | leaf _ a => .leaf a
  | map _ children => .map (treesOfFields children)
  | seq _ items => .seq (treesOfItems items)

/-- The trees of the children of a mapping. -/
def treesOfFields : List (String × Unfolding α) → List (String × Tree α)
  | [] => []
  | (name, u) :: rest => (name, tree u) :: treesOfFields rest

/-- The trees of the items of a sequence. -/
def treesOfItems : List (Unfolding α) → List (Tree α)
  | [] => []
  | u :: rest => tree u :: treesOfItems rest

end

mutual

/-- All nodes with their entries, a container before what is in it. -/
def entries : Unfolding α → List (Nat × Entry α)
  | leaf id a => [(id, .leaf a)]
  | map i children => (i, .map (Fields.mapEntries id children)) :: entriesOfFields children
  | seq i items => (i, .seq (items.map id)) :: entriesOfItems items

/-- The nodes in the children of a mapping. -/
def entriesOfFields : List (String × Unfolding α) → List (Nat × Entry α)
  | [] => []
  | (_, u) :: rest => entries u ++ entriesOfFields rest

/-- The nodes in the items of a sequence. -/
def entriesOfItems : List (Unfolding α) → List (Nat × Entry α)
  | [] => []
  | u :: rest => entries u ++ entriesOfItems rest

end

/-- The recursion over the children of a mapping is a map. -/
theorem treesOfFields_eq (children : List (String × Unfolding α)) :
    treesOfFields children = Fields.mapEntries tree children := by
  induction children with
  | nil => rfl
  | cons c rest ih => rw [treesOfFields, ih]; rfl

theorem treesOfItems_eq (items : List (Unfolding α)) : treesOfItems items = items.map tree := by
  induction items with
  | nil => rfl
  | cons u rest ih => rw [treesOfItems, ih]; rfl

/-- The nodes in a list of children are those of one child after the other. -/
theorem entriesOfFields_eq (children : List (String × Unfolding α)) :
    entriesOfFields children = children.flatMap fun c => c.2.entries := by
  induction children with
  | nil => rfl
  | cons c rest ih => rw [entriesOfFields, ih]; rfl

theorem entriesOfItems_eq (items : List (Unfolding α)) :
    entriesOfItems items = items.flatMap entries := by
  induction items with
  | nil => rfl
  | cons u rest ih => rw [entriesOfItems, ih]; rfl

@[simp] theorem tree_leaf (i : Nat) (a : α) : (leaf i a).tree = .leaf a := rfl

/-- The tree of a mapping has the trees of the children under the same names. -/
@[simp] theorem tree_map (i : Nat) (children : List (String × Unfolding α)) :
    (map i children).tree = .map (Fields.mapEntries tree children) := by
  rw [tree, treesOfFields_eq]

/-- The tree of a sequence has the trees of the items in the same order. -/
@[simp] theorem tree_seq (i : Nat) (items : List (Unfolding α)) :
    (seq i items).tree = .seq (items.map tree) := by
  rw [tree, treesOfItems_eq]

/-- The nodes below the root. -/
def inner : Unfolding α → List (Nat × Entry α)
  | leaf _ _ => []
  | map _ children => children.flatMap fun c => c.2.entries
  | seq _ items => items.flatMap entries

/-- The nodes are the root and those below it. -/
theorem entries_eq (u : Unfolding α) : u.entries = (u.id, u.entry) :: u.inner := by
  cases u with
  | leaf i a => rfl
  | map i children => rw [entries, entriesOfFields_eq]; rfl
  | seq i items => rw [entries, entriesOfItems_eq]; rfl

/-- The ids of all nodes. -/
def ids (u : Unfolding α) : List Nat := u.entries.map Prod.fst

theorem root_mem_entries (u : Unfolding α) : (u.id, u.entry) ∈ u.entries := by
  rw [entries_eq]
  exact List.mem_cons_self

theorem id_mem_ids (u : Unfolding α) : u.id ∈ u.ids :=
  List.mem_map_of_mem (f := Prod.fst) u.root_mem_entries

/-- A child of a mapping has fewer nodes than the mapping. -/
theorem length_entries_map {c : String × Unfolding α} {children : List (String × Unfolding α)}
    (h : c ∈ children) (i : Nat) : c.2.entries.length < (map i children).entries.length := by
  obtain ⟨before, behind, rfl⟩ := List.append_of_mem h
  simp only [entries_eq (map i _), inner, List.flatMap_append, List.flatMap_cons, List.length_cons,
    List.length_append]
  omega

/-- An item has fewer nodes than its sequence. -/
theorem length_entries_seq {t : Unfolding α} {items : List (Unfolding α)} (h : t ∈ items)
    (i : Nat) : t.entries.length < (seq i items).entries.length := by
  obtain ⟨before, behind, rfl⟩ := List.append_of_mem h
  simp only [entries_eq (seq i _), inner, List.flatMap_append, List.flatMap_cons, List.length_cons,
    List.length_append]
  omega

/-! ## Following a path -/

/-- The child that a key addresses. -/
def child? (u : Unfolding α) (key : Key) : Option (Unfolding α) :=
  match u with
  | leaf _ _ => none
  | map _ children => Fields.at? children key.text
  | seq _ items => key.index?.bind fun i => items[i]?

/-- The unfolding at a path. -/
def at? (u : Unfolding α) : Path → Option (Unfolding α)
  | [] => some u
  | key :: rest => (u.child? key).bind fun child => child.at? rest

/-- Following a path in two parts is following it at once. -/
theorem at?_append (u : Unfolding α) (p q : Path) :
    u.at? (p ++ q) = (u.at? p).bind fun v => v.at? q := by
  induction p generalizing u with
  | nil => rfl
  | cons key p ih =>
    cases h : u.child? key with
    | none => simp [at?, h]
    | some v => simp [at?, h, ih v]

/-- The ids make no difference to what a key addresses. -/
theorem child?_tree (u : Unfolding α) (key : Key) :
    u.tree.child? key = (u.child? key).map tree := by
  cases u with
  | leaf i a => rfl
  | map i children => rw [tree_map]; exact Fields.at?_mapEntries tree children key.text
  | seq i items =>
    rw [tree_seq]
    cases h : key.index? with
    | none => simp [Tree.child?, child?, h]
    | some j => simp [Tree.child?, child?, h]

/-- A key addresses in the entry of the root the id of the child that it addresses. -/
theorem child?_entry (u : Unfolding α) (key : Key) :
    u.entry.child? key = (u.child? key).map id := by
  cases u with
  | leaf i a => rfl
  | map i children => exact Fields.at?_mapEntries id children key.text
  | seq i items =>
    cases h : key.index? with
    | none => simp [entry, Entry.child?, child?, h]
    | some j => simp [entry, Entry.child?, child?, h]

/-- The tree at a path is that of the unfolding there. -/
theorem at?_tree (u : Unfolding α) (path : Path) : u.tree.at? path = (u.at? path).map tree := by
  induction path generalizing u with
  | nil => rfl
  | cons key rest ih =>
    rw [Tree.at?, at?, child?_tree]
    cases u.child? key with
    | none => rfl
    | some child => exact ih child

/-- What a key addresses is a child of a mapping or an item of a sequence. -/
theorem child_cases {u child : Unfolding α} {key : Key} (h : u.child? key = some child) :
    (∃ i children, u = map i children ∧ (key.text, child) ∈ children) ∨
      ∃ i items, u = seq i items ∧ child ∈ items := by
  cases u with
  | leaf i a => simp [child?] at h
  | map i children => exact Or.inl ⟨i, children, rfl, Fields.mem_of_at? h⟩
  | seq i items =>
    obtain ⟨j, -, hj⟩ := Option.bind_eq_some_iff.1 h
    exact Or.inr ⟨i, items, rfl, List.mem_of_getElem? hj⟩

/-- The nodes of a child are among those of its parent. -/
theorem entries_child_subset {u child : Unfolding α} {key : Key}
    (h : u.child? key = some child) : child.entries ⊆ u.entries := by
  intro x hx
  rcases child_cases h with ⟨i, children, rfl, hc⟩ | ⟨i, items, rfl, hc⟩
  · rw [entries_eq]
    exact List.mem_cons_of_mem _ (List.mem_flatMap.2 ⟨_, hc, hx⟩)
  · rw [entries_eq]
    exact List.mem_cons_of_mem _ (List.mem_flatMap.2 ⟨_, hc, hx⟩)

end Unfolding

namespace Store

variable {σ α : Type} [Store σ α]

/-- The store has all entries of the unfolding. -/
def Holds (s : σ) (u : Unfolding α) : Prop := ∀ x ∈ u.entries, get? s x.1 = some x.2

namespace Holds

variable {s : σ} {u : Unfolding α}

theorem root (h : Holds s u) : get? s u.id = some u.entry := h _ u.root_mem_entries

/-- A store that holds an unfolding holds every child of it. -/
theorem child {child : Unfolding α} {key : Key} (h : Holds s u)
    (hc : u.child? key = some child) : Holds s child :=
  fun x hx => h x (Unfolding.entries_child_subset hc hx)

theorem of_mem_map {i : Nat} {children : List (String × Unfolding α)}
    (h : Holds s (.map i children)) {c : String × Unfolding α} (hc : c ∈ children) :
    Holds s c.2 := by
  intro x hx
  refine h x ?_
  rw [Unfolding.entries_eq]
  exact List.mem_cons_of_mem _ (List.mem_flatMap.2 ⟨c, hc, hx⟩)

theorem of_mem_seq {i : Nat} {items : List (Unfolding α)} (h : Holds s (.seq i items))
    {t : Unfolding α} (ht : t ∈ items) : Holds s t := by
  intro x hx
  refine h x ?_
  rw [Unfolding.entries_eq]
  exact List.mem_cons_of_mem _ (List.mem_flatMap.2 ⟨t, ht, hx⟩)

/-- A store that holds an unfolding holds every part of it. -/
theorem at? {path : Path} {v : Unfolding α} (h : Holds s u) (hv : u.at? path = some v) :
    Holds s v := by
  induction path generalizing u with
  | nil => obtain rfl := Option.some.inj hv; exact h
  | cons key rest ih =>
    obtain ⟨child, hc, hv⟩ := Option.bind_eq_some_iff.1 hv
    exact ih (h.child hc) hv

/-- A store that agrees on the ids of an unfolding holds it too. -/
theorem congr {s' : σ} (h : Holds s u) (hs : ∀ i ∈ u.ids, get? s' i = get? s i) : Holds s' u :=
  fun x hx => (hs x.1 (List.mem_map_of_mem (f := Prod.fst) hx)).trans (h x hx)

/-- A store that holds an unfolding finds the ids of its children in it. -/
theorem child?_eq (h : Holds s u) (key : Key) :
    Store.child? s u.id key = (u.child? key).map Unfolding.id := by
  rw [Store.child?, h.root]
  exact u.child?_entry key

/-! ## Uniqueness -/

/-- A store holds one unfolding of an id at most: its root has the one entry there, and so have its
children. -/
theorem unique {v : Unfolding α} (hu : Holds s u) (hv : Holds s v) (hid : u.id = v.id) :
    u = v := by
  induction u using Unfolding.induction generalizing v with
  | leaf i a =>
    have he : v.entry = .leaf a := Option.some.inj (hv.root.symm.trans (hid ▸ hu.root))
    cases v with
    | leaf j b =>
      obtain rfl : b = a := by simpa [Unfolding.entry] using he
      obtain rfl : i = j := hid
      rfl
    | map j cs => simp [Unfolding.entry] at he
    | seq j ts => simp [Unfolding.entry] at he
  | map i cs ih =>
    have he : v.entry = .map (Fields.mapEntries Unfolding.id cs) :=
      Option.some.inj (hv.root.symm.trans (hid ▸ hu.root))
    cases v with
    | leaf j b => simp [Unfolding.entry] at he
    | seq j ts => simp [Unfolding.entry] at he
    | map j ds =>
      obtain rfl : i = j := hid
      refine congrArg _ ?_
      have hds : Fields.mapEntries Unfolding.id ds = Fields.mapEntries Unfolding.id cs := by
        simpa [Unfolding.entry] using he
      have hlen : cs.length = ds.length := by
        simpa [Fields.mapEntries] using (congrArg List.length hds).symm
      refine List.ext_getElem hlen fun k h₁ h₂ => ?_
      have hk := List.getElem_of_eq hds (i := k) (by simpa [Fields.mapEntries] using h₂)
      obtain ⟨hname, hchild⟩ : ds[k].1 = cs[k].1 ∧ ds[k].2.id = cs[k].2.id := by
        simpa [Fields.mapEntries] using hk
      exact Prod.ext hname.symm (ih _ (List.getElem_mem h₁) (hu.of_mem_map (List.getElem_mem h₁))
        (hv.of_mem_map (List.getElem_mem h₂)) hchild.symm)
  | seq i ts ih =>
    have he : v.entry = .seq (ts.map Unfolding.id) :=
      Option.some.inj (hv.root.symm.trans (hid ▸ hu.root))
    cases v with
    | leaf j b => simp [Unfolding.entry] at he
    | map j cs => simp [Unfolding.entry] at he
    | seq j ws =>
      obtain rfl : i = j := hid
      refine congrArg _ ?_
      have hws : ws.map Unfolding.id = ts.map Unfolding.id := by simpa [Unfolding.entry] using he
      have hlen : ts.length = ws.length := by simpa using (congrArg List.length hws).symm
      refine List.ext_getElem hlen fun k h₁ h₂ => ?_
      have hk := List.getElem_of_eq hws (i := k) (by simpa using h₂)
      exact ih _ (List.getElem_mem h₁) (hu.of_mem_seq (List.getElem_mem h₁))
        (hv.of_mem_seq (List.getElem_mem h₂)) (by simpa using hk.symm)

end Holds

/-! ## Building the value -/

/-- Values that can all be had are collected, and what has none is left out. -/
theorem collect_map {β γ δ : Type} {f : β → Except Error (Option γ)} {g : δ → Option γ}
    {h : δ → β} {us : List δ} (hf : ∀ u ∈ us, f (h u) = .ok (g u)) :
    collect f (us.map h) = .ok (us.filterMap g) := by
  induction us with
  | nil => rfl
  | cons u rest ih =>
    have hu := hf u List.mem_cons_self
    have hrest := ih fun x hx => hf x (List.mem_cons_of_mem _ hx)
    rw [List.map_cons, collect, hu, hrest, List.filterMap_cons]
    cases g u <;> rfl

theorem collect_mapIdx {β γ δ : Type} {f : Nat × β → Except Error (Option γ)}
    {g : δ → Option γ} {h : δ → β} {us : List δ} (hf : ∀ i, ∀ u ∈ us, f (i, h u) = .ok (g u)) :
    collect f ((us.map h).mapIdx Prod.mk) = .ok (us.filterMap g) := by
  suffices ∀ k : Nat → Nat,
      collect f ((us.map h).mapIdx fun i b => (k i, b)) = .ok (us.filterMap g) from this _
  induction us with
  | nil => exact fun _ => rfl
  | cons u rest ih =>
    intro k
    have hu := hf (k 0) u List.mem_cons_self
    have hrest := ih (fun i x hx => hf i x (List.mem_cons_of_mem _ hx)) fun i => k (i + 1)
    rw [List.map_cons, List.mapIdx_cons, collect, hu, hrest, List.filterMap_cons]
    cases g u <;> rfl

namespace Holds

variable [LawfulStore σ] {s : σ} {u : Unfolding α}

theorem id_lt_size (h : Holds s u) : u.id < size s := Store.lt_size_of_get? h.root

/-- The containers `active` hold unfoldings larger than `u`. -/
def Inside (s : σ) (u : Unfolding α) (active : List Nat) : Prop :=
  active.Nodup ∧ ∀ i ∈ active, ∃ v, Holds s v ∧ v.id = i ∧ u.entries.length < v.entries.length

omit [LawfulStore σ] in
/-- A container is not entered inside itself, since its unfolding would be a part of itself. -/
theorem Inside.id_notMem {active : List Nat} (hi : Inside s u active) (h : Holds s u) :
    u.id ∉ active := by
  intro hmem
  obtain ⟨v, hv, hid, hlt⟩ := hi.2 u.id hmem
  rw [hv.unique h hid] at hlt
  exact Nat.lt_irrefl _ hlt

omit [LawfulStore σ] in
/-- Going down from a container, it joins the active ones, since what is in it is smaller. -/
theorem Inside.cons {active : List Nat} (hi : Inside s u active) (h : Holds s u)
    {v : Unfolding α} (hlt : v.entries.length < u.entries.length) :
    Inside s v (u.id :: active) := by
  refine ⟨List.nodup_cons.2 ⟨hi.id_notMem h, hi.1⟩, fun i hmem => ?_⟩
  rcases List.mem_cons.1 hmem with rfl | hmem
  · exact ⟨u, h, rfl, hlt⟩
  · obtain ⟨w, hw, hid, hlt'⟩ := hi.2 i hmem
    exact ⟨w, hw, hid, Nat.lt_trans hlt hlt'⟩

/-- There are no more active containers than the store has entries. -/
theorem Inside.length_le {active : List Nat} (hi : Inside s u active) :
    active.length ≤ size s := by
  have hsub : active.Subperm (List.range (size s)) := hi.1.subperm fun i hmem => by
    obtain ⟨v, hv, rfl, -⟩ := hi.2 i hmem
    exact List.mem_range.2 hv.id_lt_size
  simpa using hsub.length_le

/-- With room for all entries of the store, building gives the value of the tree. -/
theorem build (valueOf : α → Option Value) (h : Holds s u) {active : List Nat}
    (hi : Inside s u active) {room : Nat} (hroom : room + active.length = size s + 1)
    (path : Path) : Store.build s valueOf room active u.id path = .ok (u.tree.value valueOf) := by
  induction u using Unfolding.induction generalizing room active path with
  | leaf i a =>
    have hle := hi.length_le
    obtain ⟨room, rfl⟩ := Nat.exists_eq_add_of_lt (show 0 < room by omega)
    rw [Nat.zero_add, Store.build, h.root]
    rfl
  | map i cs ih =>
    have hle := hi.length_le
    obtain ⟨room, rfl⟩ := Nat.exists_eq_add_of_lt (show 0 < room by omega)
    have hchild : ∀ c ∈ cs, (do
        let v ← Store.build s valueOf room (i :: active) c.2.id (path ++ [.field c.1])
        return v.map fun v => (c.1, v)) =
          Except.ok (ε := Error) ((c.2.tree.value valueOf).map fun v => (c.1, v)) := by
      intro c hc
      have hb := ih c hc (h.of_mem_map hc) (hi.cons h (Unfolding.length_entries_map hc i))
        (show room + (active.length + 1) = size s + 1 by omega) (path ++ [.field c.1])
      rw [show (i :: active) = (Unfolding.map i cs).id :: active from rfl, hb]
      rfl
    rw [Nat.zero_add, Store.build, h.root]
    simp only [Unfolding.entry, if_neg (hi.id_notMem h)]
    rw [Fields.mapEntries, show (Unfolding.map i cs).id = i from rfl]
    rw [collect_map hchild, Unfolding.tree_map, Tree.value, Tree.fields_eq, Fields.mapEntries,
      List.filterMap_map]
    rfl
  | seq i ts ih =>
    have hle := hi.length_le
    obtain ⟨room, rfl⟩ := Nat.exists_eq_add_of_lt (show 0 < room by omega)
    have hchild : ∀ k, ∀ t ∈ ts,
        Store.build s valueOf room (i :: active) t.id (path ++ [.index k]) =
          .ok (t.tree.value valueOf) := by
      intro k t ht
      exact ih t ht (h.of_mem_seq ht) (hi.cons h (Unfolding.length_entries_seq ht i))
        (show room + (active.length + 1) = size s + 1 by omega) (path ++ [.index k])
    rw [Nat.zero_add, Store.build, h.root]
    simp only [Unfolding.entry, if_neg (hi.id_notMem h)]
    rw [show (Unfolding.seq i ts).id = i from rfl, collect_mapIdx hchild, Unfolding.tree_seq,
      Tree.value, Tree.values_eq, List.filterMap_map]
    rfl

/-- Building the value of a held unfolding succeeds and gives the value of its tree. -/
theorem materialize (valueOf : α → Option Value) (h : Holds s u) :
    Store.materialize s u.id valueOf = .ok (u.tree.value valueOf) :=
  h.build valueOf ⟨List.nodup_nil, by simp⟩ rfl []

/-- Following a path from a held unfolding is reading its tree. -/
theorem follow {s : Overlay Slot} {u : Unfolding Slot} (h : Holds s u) (path : Path) :
    Frame.follow s u.id path = .ok (u.tree.read path) := by
  induction path generalizing u with
  | nil => exact h.materialize _
  | cons key rest ih =>
    cases u with
    | leaf i slot =>
      rw [Frame.follow, h.root]
      rfl
    | map i children =>
      have hc := (Unfolding.map i children).child?_entry key
      rw [Frame.follow, h.root, Tree.read_cons (by simp), Unfolding.child?_tree]
      simp only [Unfolding.entry] at hc ⊢
      rw [hc]
      cases hk : (Unfolding.map i children).child? key with
      | none => rfl
      | some child => exact ih (h.child hk)
    | seq i items =>
      have hc := (Unfolding.seq i items).child?_entry key
      rw [Frame.follow, h.root, Tree.read_cons (by simp), Unfolding.child?_tree]
      simp only [Unfolding.entry] at hc ⊢
      rw [hc]
      cases hk : (Unfolding.seq i items).child? key with
      | none => rfl
      | some child => exact ih (h.child hk)

end Holds

end Store

end ValueResolution
