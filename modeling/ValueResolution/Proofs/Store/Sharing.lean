import Mathlib.Data.List.Count
import ValueResolution.Proofs.Store.Children
/-!
# Updates by copying, with shared branches

What an update does to a tree in which branches may stand in several places. A branch that stands
in two places is one entry, so writing it in place would change both of them. What makes it safe is
that only copies are written, and that a copy stands in at most one place of the tree
(`Draft.Keeps`): a copy is new when it is made, and the one container that is pointed to it is a
copy itself.

`Draft.Reworks d xs d' ys` says that the draft went from the nodes `xs` of a tree to the nodes `ys`:
an old node stands in no more places than before, a new one in one at most, and an old entry that
is no copy, or stands outside of the tree, has not changed. What happens to the child of a container
happens to the container (`Draft.Reworks.inside`), which is why carrying an update out below a copy
is `Tree.revise?` on its tree (`Draft.descend_reworks`), also where it fails halfway.
-/

set_option autoImplicit false

namespace ValueResolution

/-! ## Places of nodes -/

/-- In how many places a node stands. -/
def places {α : Type} (xs : List (Nat × Entry α)) (i : Nat) : Nat := (xs.map Prod.fst).count i

section Places

variable {α : Type} {xs ys : List (Nat × Entry α)} {x : Nat × Entry α} {i : Nat}

@[simp] theorem places_nil : places ([] : List (Nat × Entry α)) i = 0 := rfl

@[simp] theorem places_cons : places (x :: xs) i = (if x.1 = i then 1 else 0) + places xs i := by
  simp [places, List.count_cons, Nat.add_comm]

@[simp] theorem places_append : places (xs ++ ys) i = places xs i + places ys i := by
  simp [places]

/-- The places at the root, beside the child, and in the child. -/
theorem places_split (root : Nat × Entry α) (side below : List (Nat × Entry α)) (i : Nat) :
    places (root :: side ++ below) i =
      (if root.1 = i then 1 else 0) + places side i + places below i := by
  simp [Nat.add_assoc]

theorem places_perm (h : xs.Perm ys) (i : Nat) : places xs i = places ys i :=
  (h.map Prod.fst).count_eq i

theorem places_pos (h : x ∈ xs) : 0 < places xs x.1 :=
  List.count_pos_iff.2 (List.mem_map_of_mem h)

theorem exists_of_places_pos (h : 0 < places xs i) : ∃ x ∈ xs, x.1 = i :=
  List.mem_map.1 (List.count_pos_iff.1 h)

end Places

namespace Draft

open Store

variable {σ α : Type} [Store σ α]

/-! ## Keeping a tree -/

/-- A draft of a tree with the nodes `xs`. The store has them, and what was copied can be changed
and stands in one place at most. -/
structure Keeps (d : Draft σ) (xs : List (Nat × Entry α)) : Prop where
  holds : ∀ x ∈ xs, get? d.store x.1 = some x.2
  once : ∀ i ∈ d.copies, places xs i ≤ 1
  writable : ∀ i ∈ d.copies, isWritable d.store i = true

/-- The draft went from a tree with the nodes `xs` to one with the nodes `ys`. It changed new
entries, and of the old ones only copies that stand in the tree. -/
structure Reworks (d : Draft σ) (xs : List (Nat × Entry α)) (d' : Draft σ)
    (ys : List (Nat × Entry α)) : Prop where
  holds : ∀ y ∈ ys, get? d'.store y.1 = some y.2
  writable : ∀ i ∈ d'.copies, isWritable d'.store i = true
  copies : d.copies ⊆ d'.copies
  made : ∀ i ∈ d'.copies, i ∈ d.copies ∨ size d.store ≤ i
  grows : size d.store ≤ size d'.store
  old : ∀ i < size d.store, places ys i ≤ places xs i
  new : ∀ i, size d.store ≤ i → places ys i ≤ 1
  frame : ∀ i < size d.store, i ∉ d.copies ∨ places xs i = 0 → get? d'.store i = get? d.store i

variable {d d₁ d₂ : Draft σ} {xs ys zs : List (Nat × Entry α)} {u v : Unfolding α}

theorem Keeps.perm (h : Keeps d xs) (hp : xs.Perm ys) : Keeps d ys where
  holds y hy := h.holds y (hp.mem_iff.2 hy)
  once i hi := (places_perm hp i).symm.trans_le (h.once i hi)
  writable := h.writable

theorem Keeps.of_append (h : Keeps d (xs ++ ys)) : Keeps d ys where
  holds y hy := h.holds y (List.mem_append_right _ hy)
  once i hi := by
    have := h.once i hi
    rw [places_append] at this
    omega
  writable := h.writable

theorem Reworks.perm (h : Reworks d xs d₁ ys) {xs' ys' : List (Nat × Entry α)}
    (hx : xs.Perm xs') (hy : ys.Perm ys') : Reworks d xs' d₁ ys' where
  holds y hmem := h.holds y (hy.mem_iff.2 hmem)
  writable := h.writable
  copies := h.copies
  made := h.made
  grows := h.grows
  old i hi := by
    rw [← places_perm hx, ← places_perm hy]
    exact h.old i hi
  new i hi := (places_perm hy i).symm.trans_le (h.new i hi)
  frame i hi hor := h.frame i hi (by rwa [places_perm hx])

theorem Reworks.trans (h₁ : Reworks d xs d₁ ys) (h₂ : Reworks d₁ ys d₂ zs) :
    Reworks d xs d₂ zs where
  holds := h₂.holds
  writable := h₂.writable
  copies := fun _ hi => h₂.copies (h₁.copies hi)
  made i hi := by
    rcases h₂.made i hi with hi | hge
    · exact h₁.made i hi
    · exact Or.inr (h₁.grows.trans hge)
  grows := h₁.grows.trans h₂.grows
  old i hi := (h₂.old i (hi.trans_le h₁.grows)).trans (h₁.old i hi)
  new i hi := by
    rcases Nat.lt_or_ge i (size d₁.store) with hlt | hge
    · exact (h₂.old i hlt).trans (h₁.new i hi)
    · exact h₂.new i hge
  frame i hi hor := by
    refine (h₂.frame i (hi.trans_le h₁.grows) ?_).trans (h₁.frame i hi hor)
    rcases hor with hno | hzero
    · refine Or.inl fun hmem => ?_
      rcases h₁.made i hmem with hmem | hge
      · exact hno hmem
      · exact Nat.not_le_of_lt hi hge
    · exact Or.inr (Nat.le_zero.1 (hzero ▸ h₁.old i hi))

variable [LawfulStore σ]

theorem Keeps.lt_size (h : Keeps d xs) {x : Nat × Entry α} (hx : x ∈ xs) : x.1 < size d.store :=
  Store.lt_size_of_get? (h.holds x hx)

theorem Keeps.places_eq_zero (h : Keeps d xs) {i : Nat} (hi : size d.store ≤ i) :
    places xs i = 0 := by
  by_contra hne
  obtain ⟨x, hx, rfl⟩ := exists_of_places_pos (Nat.pos_of_ne_zero hne)
  exact Nat.not_le_of_lt (h.lt_size hx) hi

theorem Keeps.copy_lt_size (h : Keeps d xs) {i : Nat} (hi : i ∈ d.copies) :
    i < size d.store := by
  have hw := h.writable i hi
  unfold isWritable at hw
  cases he : get? d.store i with
  | none => simp [he] at hw
  | some e => exact Store.lt_size_of_get? he

/-- What stands in one place at most still does after a rework. -/
theorem Reworks.keeps (h : Keeps d xs) (hr : Reworks d xs d₁ ys) : Keeps d₁ ys where
  holds := hr.holds
  once i hi := by
    rcases hr.made i hi with hi | hge
    · exact (hr.old i (h.copy_lt_size hi)).trans (h.once i hi)
    · exact hr.new i hge
  writable := hr.writable

theorem Reworks.refl (h : Keeps d xs) : Reworks d xs d xs where
  holds := h.holds
  writable := h.writable
  copies := fun _ hi => hi
  made := fun _ hi => Or.inl hi
  grows := Nat.le_refl _
  old := fun _ _ => Nat.le_refl _
  new i hi := by
    rw [h.places_eq_zero hi]
    exact Nat.zero_le _
  frame := fun _ _ _ => rfl

/-! ## Steps of an update -/

/-- Adding an entry, which may stand in the tree in one place, and may be a copy. -/
theorem push_reworks (h : Keeps d xs) (e : Entry α) {copies : List NodeId}
    (hcopies : d.copies ⊆ copies) (hmade : ∀ i ∈ copies, i ∈ d.copies ∨ i = size d.store)
    (hys : ∀ y ∈ ys, y ∈ xs ∨ y = (size d.store, e))
    (hold : ∀ i < size d.store, places ys i ≤ places xs i)
    (hnew : places ys (size d.store) ≤ 1) :
    Reworks d xs ⟨Store.push d.store e, copies⟩ ys where
  holds y hy := by
    rw [LawfulStore.get?_push]
    rcases hys y hy with hy | rfl
    · rw [if_neg (h.lt_size hy).ne]
      exact h.holds y hy
    · exact if_pos rfl
  writable i hi := by
    rw [LawfulStore.isWritable_push]
    rcases hmade i hi with hi | rfl
    · rw [h.writable i hi, Bool.true_or]
    · simp
  copies := hcopies
  made i hi := (hmade i hi).imp_right fun heq => heq.ge
  grows := by
    rw [LawfulStore.size_push]
    exact Nat.le_succ _
  old := hold
  new i hi := by
    rcases Nat.eq_or_lt_of_le hi with rfl | hlt
    · exact hnew
    · by_contra hpos
      obtain ⟨y, hy, rfl⟩ := exists_of_places_pos (show 0 < places ys i by omega)
      rcases hys y hy with hy | rfl
      · exact Nat.not_le_of_lt (h.lt_size hy) hi
      · exact Nat.lt_irrefl _ hlt
  frame i hi _ := get?_push_of_lt hi e

/-- Owning a tree gives it the id of a copy. -/
theorem own_reworks (h : Keeps d u.entries) : (d.own u.id).2 ∈ (d.own u.id).1.copies ∧
    Reworks d u.entries (d.own u.id).1 (u.withId (d.own u.id).2).entries := by
  by_cases hc : u.id ∈ d.copies
  · have hown : d.own u.id = (d, u.id) := by simp [own, hc]
    rw [hown, Unfolding.withId_id]
    exact ⟨hc, .refl h⟩
  · have hget : get? d.store u.id = some u.entry := h.holds _ u.root_mem_entries
    have hown : d.own u.id = (⟨Store.push d.store u.entry, d.copies.insert (size d.store)⟩,
        size d.store) := by
      simp [own, hc, hget]
    rw [hown, Unfolding.entries_eq (u.withId _), Unfolding.id_withId, Unfolding.entry_withId,
      Unfolding.inner_withId]
    have hsplit := Unfolding.entries_eq u
    refine ⟨List.mem_insert_self, push_reworks h u.entry (fun i hi => List.mem_insert_of_mem hi)
      (fun i hi => ?_) (fun y hy => ?_) (fun i hi => ?_) ?_⟩
    · exact (List.mem_insert_iff.1 hi).symm
    · rw [hsplit]
      rcases List.mem_cons.1 hy with rfl | hy
      · exact Or.inr rfl
      · exact Or.inl (List.mem_cons_of_mem _ hy)
    · rw [hsplit, places_cons, places_cons, if_neg hi.ne']
      omega
    · have hzero := h.places_eq_zero (Nat.le_refl (size d.store))
      rw [hsplit, places_cons] at hzero
      rw [places_cons, if_pos rfl]
      omega

section Inside

variable {root : Nat × Entry α} {side gone got : List (Nat × Entry α)}

omit [LawfulStore σ] in
/-- A copy at the root stands nowhere below it. -/
theorem Keeps.alone (h : Keeps d (root :: side ++ gone)) (hcopy : root.1 ∈ d.copies) :
    places side root.1 = 0 ∧ places gone root.1 = 0 := by
  have honce := h.once _ hcopy
  rw [places_split, if_pos rfl] at honce
  omega

omit [LawfulStore σ] in
/-- A copy beside a child does not stand in the child. -/
theorem Keeps.beside (h : Keeps d (root :: side ++ gone)) {y : Nat × Entry α} (hy : y ∈ side) :
    y.1 ∉ d.copies ∨ places gone y.1 = 0 := by
  by_cases hc : y.1 ∈ d.copies
  · have honce := h.once _ hc
    have hpos := places_pos hy
    rw [places_split] at honce
    exact Or.inr (by omega)
  · exact Or.inl hc

/-- A copy at the root stays as it is while a child of it changes. -/
theorem Reworks.get?_root (h : Keeps d (root :: side ++ gone)) (hcopy : root.1 ∈ d.copies)
    (hr : Reworks d gone d₁ got) : get? d₁.store root.1 = some root.2 := by
  rw [hr.frame _ (h.copy_lt_size hcopy) (Or.inr (h.alone hcopy).2)]
  exact h.holds root (by simp)

/-- What happens to a child of a copy happens to the tree of the copy, if the copy then names what
the child has become. -/
theorem Reworks.inside (h : Keeps d (root :: side ++ gone)) (hcopy : root.1 ∈ d.copies)
    (hr : Reworks d gone d₁ got) {s : σ} {e : Entry α} (hsize : size s = size d₁.store)
    (hroot : get? s root.1 = some e) (hrest : ∀ i ≠ root.1, get? s i = get? d₁.store i)
    (hw : ∀ i, isWritable s i = isWritable d₁.store i) :
    Reworks d (root :: side ++ gone) { d₁ with store := s } ((root.1, e) :: side ++ got) := by
  obtain ⟨hside, hgone⟩ := h.alone hcopy
  have hgot := hr.old _ (h.copy_lt_size hcopy)
  refine ⟨fun y hy => ?_, fun i hi => (hw i).trans (hr.writable i hi), hr.copies, hr.made,
    hsize ▸ hr.grows, fun i hi => ?_, fun i hi => ?_, fun i hi hor => ?_⟩
  · rcases List.mem_append.1 hy with hy | hy
    · rcases List.mem_cons.1 hy with rfl | hy
      · exact hroot
      · have hne : y.1 ≠ root.1 := fun heq => (places_pos hy).ne' (heq ▸ hside)
        have hmem : y ∈ root :: side ++ gone :=
          List.mem_append_left _ (List.mem_cons_of_mem _ hy)
        rw [hrest _ hne, hr.frame _ (h.lt_size hmem) (h.beside hy)]
        exact h.holds y hmem
    · have hne : y.1 ≠ root.1 := fun heq => by
        have hpos := places_pos hy
        rw [heq] at hpos
        omega
      rw [hrest _ hne]
      exact hr.holds y hy
  · have hle := hr.old i hi
    simp only [places_split]
    omega
  · have hzero := h.places_eq_zero hi
    have hle := hr.new i hi
    simp only [places_split] at hzero ⊢
    omega
  · have hne : i ≠ root.1 := by
      rintro rfl
      rcases hor with hno | hzero
      · exact hno hcopy
      · rw [places_split, if_pos rfl] at hzero
        omega
    refine (hrest i hne).trans (hr.frame i hi (hor.imp_right fun hzero => ?_))
    rw [places_split] at hzero
    omega

end Inside

/-- Writing under a key of a copy. -/
theorem place_reworks {key : Key} {new : Option (Unfolding α)} (h : Keeps d u.entries)
    (hcopy : u.id ∈ d.copies) (hv : u.place? key new = some v)
    (hr : Reworks d (Unfolding.nodes (u.child? key)) d₁ (Unfolding.nodes new)) :
    ∃ s, Store.place? d₁.store u.id key (new.map Unfolding.id) = some s ∧
      Reworks d u.entries { d₁ with store := s } v.entries := by
  obtain ⟨-, side, hu, hv'⟩ := Unfolding.entries_place hv
  have hk := h.perm hu
  have hsome : (replace? d₁.store u.id v.entry).isSome = true := by
    rw [LawfulStore.isSome_replace]
    exact hr.writable _ (hr.copies hcopy)
  obtain ⟨s, hs⟩ := Option.isSome_iff_exists.1 hsome
  refine ⟨s, ?_, (hr.inside hk hcopy (LawfulStore.size_replace hs) ?_ (fun i hi => ?_)
    (LawfulStore.isWritable_replace hs)).perm hu.symm hv'.symm⟩
  · have hget : get? d₁.store u.id = some u.entry := hr.get?_root hk hcopy
    rw [Store.place?, hget, Option.bind_some, Unfolding.place?_entry_eq, hv, Option.map_some,
      Option.bind_some, hs]
  · rw [LawfulStore.get?_replace hs, if_pos rfl]
  · rw [LawfulStore.get?_replace hs, if_neg hi]

/-- A child that keeps its id changes below its copy. -/
theorem Reworks.below {key : Key} {child child' : Unfolding α} (h : Keeps d u.entries)
    (hcopy : u.id ∈ d.copies) (hc : u.child? key = some child)
    (hr : Reworks d child.entries d₁ child'.entries) (hid : child'.id = child.id) :
    Reworks d u.entries d₁ (u.withChild key child').entries := by
  obtain ⟨-, side, hu, hv⟩ := Unfolding.entries_place (Unfolding.place?_of_child hc child')
  rw [hc] at hu
  rw [Unfolding.entry_withChild hc hid] at hv
  have hk := h.perm hu
  exact (hr.inside hk hcopy rfl (hr.get?_root hk hcopy) (fun _ _ => rfl) fun _ => rfl).perm
    hu.symm hv.symm

/-! ## Whole updates -/

omit [LawfulStore σ] in
theorem Keeps.below (h : Keeps d u.entries) (key : Key) :
    Keeps d (Unfolding.nodes (u.child? key)) := by
  cases hc : u.child? key with
  | none => exact ⟨by simp [Unfolding.nodes], by simp [Unfolding.nodes], h.writable⟩
  | some child =>
    obtain ⟨-, side, hu, -⟩ := Unfolding.entries_place (Unfolding.place?_of_child hc child)
    rw [hc] at hu
    exact (h.perm hu).of_append

/-- What an update writes is new and no copy; adding it changes nothing else. -/
theorem stage_reworks (d : Draft σ) (leaf? : Option α) : ∃ new : Option (Unfolding α),
    (d.stage (.writing leaf?)).2 = new.map Unfolding.id ∧
      new.map Unfolding.tree = leaf?.map Tree.leaf ∧
      (d.stage (.writing leaf?)).1.copies = d.copies ∧
      (∀ i < size d.store, places (Unfolding.nodes new) i = 0) ∧
      ∀ xs, Keeps d xs → Reworks d xs (d.stage (.writing leaf?)).1 xs ∧
        Reworks d xs (d.stage (.writing leaf?)).1 (Unfolding.nodes new) := by
  cases leaf? with
  | none =>
    refine ⟨none, rfl, rfl, rfl, fun _ _ => rfl, fun xs h => ⟨.refl h, ?_⟩⟩
    exact { Reworks.refl h with
      holds := by simp [Unfolding.nodes]
      old := by simp [Unfolding.nodes]
      new := by simp [Unfolding.nodes] }
  | some a =>
    have hfresh : ∀ i < size d.store,
        places (Unfolding.nodes (some (Unfolding.leaf (size d.store) a))) i = 0 := fun i hi => by
      simp [Unfolding.nodes, Unfolding.entries, hi.ne']
    refine ⟨some (.leaf (size d.store) a), rfl, rfl, rfl, hfresh, fun xs h => ⟨?_, ?_⟩⟩
    · refine push_reworks h _ (fun _ hi => hi) (fun _ hi => Or.inl hi) (fun _ hy => Or.inl hy)
        (fun _ _ => Nat.le_refl _) ?_
      rw [h.places_eq_zero (Nat.le_refl _)]
      exact Nat.zero_le _
    · refine push_reworks h _ (fun _ hi => hi) (fun _ hi => Or.inl hi) (fun y hy => ?_)
        (fun i hi => ?_) ?_
      · exact Or.inr (List.mem_singleton.1 hy)
      · rw [hfresh i hi]
        exact Nat.zero_le _
      · simp [Unfolding.nodes, Unfolding.entries]

omit [LawfulStore σ] in
theorem descend_cons {change : Update α} {key next : Key} {rest : Path} {i child : Nat}
    (hc : child? d.store i key = some child) {s : σ}
    (hs : place? (d.own child).1.store i key (some (d.own child).2) = some s) :
    d.descend i change (key :: next :: rest) =
      descend { (d.own child).1 with store := s } (d.own child).2 change (next :: rest) := by
  rw [descend, hc]
  simp only [hs]

/-- The outcome of carrying a change out below the copy `u`: the revised tree at the same id, or the
tree as it was where there is no revised one. -/
def Carried (d : Draft σ) (u : Unfolding α) (outcome : Draft σ × Bool) (t? : Option (Tree α)) :
    Prop :=
  ∃ u' : Unfolding α, u'.id = u.id ∧ Reworks d u.entries outcome.1 u'.entries ∧
    outcome.2 = t?.isSome ∧ u'.tree = t?.getD u.tree

/-- Carrying a change out under a key of a copy. -/
theorem descend_last (h : Keeps d u.entries) (hcopy : u.id ∈ d.copies) (leaf? : Option α)
    (key : Key) : Carried d u (d.descend u.id (.writing leaf?) [key])
      (u.tree.place? key (leaf?.map .leaf)) := by
  obtain ⟨new, hid, htree, -, -, hstage⟩ := stage_reworks d leaf?
  rw [← htree, Unfolding.place?_tree_eq]
  simp only [descend, hid]
  cases hv : u.place? key new with
  | none =>
    have hr := (hstage _ h).1
    have hget : get? (d.stage (.writing leaf?)).1.store u.id = some u.entry :=
      hr.holds _ u.root_mem_entries
    have hplace : Store.place? (d.stage (.writing leaf?)).1.store u.id key
        (new.map Unfolding.id) = none := by
      rw [Store.place?, hget, Option.bind_some, Unfolding.place?_entry_eq, hv]
      rfl
    rw [hplace]
    exact ⟨u, rfl, hr, rfl, rfl⟩
  | some v =>
    obtain ⟨s, hs, hr⟩ := place_reworks h hcopy hv (hstage _ (h.below key)).2
    rw [hs]
    exact ⟨v, (Unfolding.entries_place hv).1, hr, rfl, rfl⟩

/-- Carrying a change out below a copy is revising its tree. Where that fails, the tree stays. -/
theorem descend_reworks (h : Keeps d u.entries) (hcopy : u.id ∈ d.copies) (leaf? : Option α)
    (key : Key) (rest : Path) : Carried d u (d.descend u.id (.writing leaf?) (key :: rest))
      (u.tree.revise? (leaf?.map .leaf) key rest) := by
  induction rest generalizing d u key with
  | nil => exact descend_last h hcopy leaf? key
  | cons next rest ih =>
    have hchild : child? d.store u.id key = (u.child? key).map Unfolding.id :=
      Holds.child?_eq h.holds key
    cases hc : u.child? key with
    | none =>
      have hrevise : u.tree.revise? (leaf?.map .leaf) key (next :: rest) = none := by
        rw [Tree.revise?, Unfolding.child?_tree, hc]
        rfl
      rw [hc] at hchild
      rw [descend, hchild, hrevise]
      exact ⟨u, rfl, .refl h, rfl, rfl⟩
    | some child =>
      have hchild' : u.tree.child? key = some child.tree := by
        rw [Unfolding.child?_tree, hc]
        rfl
      have hbelow := h.below key
      rw [hc] at hchild hbelow
      obtain ⟨hown, hr⟩ := own_reworks hbelow
      obtain ⟨s, hs, hr⟩ := place_reworks h hcopy
        (Unfolding.place?_of_child hc (child.withId (d.own child.id).2)) (by rw [hc]; exact hr)
      rw [Option.map_some, Unfolding.id_withId] at hs
      -- the copy now names a copy of the child, and the rest of the path leads on from there
      have hc' := Unfolding.child?_withChild hc (child.withId (d.own child.id).2)
      have hkeeps := hr.keeps h
      have hbelow' := hkeeps.below key
      rw [hc'] at hbelow'
      obtain ⟨child', hid, hr', hdone, htree⟩ :=
        ih hbelow' (by rwa [Unfolding.id_withId]) next
      have hr'' := hr'.below hkeeps (by rw [Unfolding.id_withChild]; exact hr.copies hcopy) hc' hid
      rw [Unfolding.id_withId] at hr'' hdone
      rw [Unfolding.tree_withId] at hdone htree
      rw [descend_cons hchild hs, Tree.revise?_cons hchild']
      refine ⟨_, ?_, hr.trans hr'', ?_, ?_⟩
      · rw [Unfolding.id_withChild, Unfolding.id_withChild]
      · rw [hdone, Option.isSome_map]
      · have hself : u.tree.withChild key child.tree = u.tree := by
          rw [← Unfolding.tree_withChild, Unfolding.withChild_self hc]
        rw [Unfolding.tree_withChild, htree, Unfolding.tree_withChild, Unfolding.tree_withId, hself]
        cases child.tree.revise? (leaf?.map .leaf) next rest with
        | none => exact hself
        | some t => rfl

/-- Updating a tree at a path that has keys is revising it. The root is copied, unless it is a copy,
and the copy has the revised tree, or the old one where there is no revised one. -/
theorem update_reworks (h : Keeps d u.entries) (leaf? : Option α) (key : Key) (rest : Path) :
    ∃ (d' : Draft σ) (u' : Unfolding α), Reworks d u.entries d' u'.entries ∧
      u'.id ∈ d'.copies ∧ (u.id ∈ d.copies → u'.id = u.id) ∧
      match u.tree.revise? (leaf?.map .leaf) key rest with
      | some t => u'.tree = t ∧
        d.update u.id (key :: rest) (.writing leaf?) = (d', .ok (some u'.id))
      | none => u'.tree = u.tree ∧ d.update u.id (key :: rest) (.writing leaf?) =
          (d', .error (.invalidPath (Path.text (key :: rest)))) := by
  obtain ⟨hcopy, hr⟩ := own_reworks h
  obtain ⟨u', hid, hr', hdone, htree⟩ :=
    descend_reworks (hr.keeps h) (by rwa [Unfolding.id_withId]) leaf? key rest
  rw [Unfolding.id_withId] at hid hr' hdone
  rw [Unfolding.tree_withId] at hdone htree
  refine ⟨_, u', hr.trans hr', hid ▸ hr'.copies hcopy, fun hmem => ?_, ?_⟩
  · rw [hid, own, if_pos hmem]
  · simp only [update]
    generalize (d.own u.id).1.descend (d.own u.id).2 (.writing leaf?) (key :: rest) = outcome at *
    obtain ⟨d', done⟩ := outcome
    cases hrev : u.tree.revise? (leaf?.map .leaf) key rest with
    | none =>
      rw [hrev] at hdone htree
      obtain rfl : done = false := hdone
      exact ⟨htree, rfl⟩
    | some t =>
      rw [hrev] at hdone htree
      obtain rfl : done = true := hdone
      exact ⟨htree, by rw [hid]⟩

end Draft

end ValueResolution
