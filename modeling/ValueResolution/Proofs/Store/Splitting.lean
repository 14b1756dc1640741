import ValueResolution.Proofs.Store.Layers
import ValueResolution.Proofs.Store.Worktree
import ValueResolution.Store.Materialize
/-!
# Splitting values into entries

A value that is split into entries can be built back from them, and whatever is done to the arena
afterwards, it still can (`Arena.materialize_insertValue`).

The entries of a value are its tree (`Value.tree`), a container behind what is in it. They are all
new, and adding them leaves the arena as it was (`Arena.insertValue_splits`), so a tree that was
split before is still there (`Store.Includes.holds`). Later calls add entries, or write copies that
were made later (`Session.Extends.act`).
-/

set_option autoImplicit false

namespace ValueResolution

open Store

namespace Value

/-- Induction over a value, with the hypothesis for every item of an array and every field of an
object. -/
@[elab_as_elim]
theorem induction {motive : Value → Prop} (null : motive null) (bool : ∀ b, motive (bool b))
    (number : ∀ n, motive (number n)) (string : ∀ s, motive (string s))
    (array : ∀ items, (∀ v ∈ items, motive v) → motive (array items))
    (object : ∀ fields, (∀ f ∈ fields, motive f.2) → motive (object fields)) : ∀ v, motive v
  | .null => null
  | .bool b => bool b
  | .number n => number n
  | .string s => string s
  | .array items => array items fun v _hv =>
      induction null bool number string array object v
  | .object fields => object fields fun f _hf =>
      induction null bool number string array object f.2
decreasing_by
  · have := List.sizeOf_lt_of_mem _hv
    simp only [Value.array.sizeOf_spec]
    omega
  · obtain ⟨name, v⟩ := f
    have := List.sizeOf_lt_of_mem _hf
    simp only [Value.object.sizeOf_spec, Prod.mk.sizeOf_spec] at this ⊢
    omega

mutual

/-- The tree of a value: arrays and objects are containers, all else is a leaf. -/
def tree : Value → Tree Value
  | .array items => .seq (treesOfItems items)
  | .object fields => .map (treesOfFields fields)
  | scalar => .leaf scalar

/-- The trees of the items of an array. -/
def treesOfItems : List Value → List (Tree Value)
  | [] => []
  | v :: rest => tree v :: treesOfItems rest

/-- The trees of the fields of an object. -/
def treesOfFields : List (String × Value) → List (String × Tree Value)
  | [] => []
  | (name, v) :: rest => (name, tree v) :: treesOfFields rest

end

theorem treesOfItems_eq (items : List Value) : treesOfItems items = items.map tree := by
  induction items with
  | nil => rfl
  | cons v rest ih => rw [treesOfItems, ih]; rfl

theorem treesOfFields_eq (fields : List (String × Value)) :
    treesOfFields fields = Fields.mapEntries tree fields := by
  induction fields with
  | nil => rfl
  | cons f rest ih => rw [treesOfFields, ih]; rfl

@[simp] theorem tree_array (items : List Value) : (array items).tree = .seq (items.map tree) := by
  rw [tree, treesOfItems_eq]

@[simp] theorem tree_object (fields : List (String × Value)) :
    (object fields).tree = .map (Fields.mapEntries tree fields) := by
  rw [tree, treesOfFields_eq]

/-- The tree of a value stands for the value. -/
theorem value_tree (v : Value) : v.tree.value some = some v := by
  induction v using Value.induction with
  | null => rfl
  | bool b => rfl
  | number n => rfl
  | string s => rfl
  | array items ih =>
    have hitems : (items.map tree).filterMap (Tree.value some) = items := by
      rw [List.filterMap_map]
      exact (List.filterMap_congr ih).trans List.filterMap_some
    rw [tree_array, Tree.value, Tree.values_eq, hitems]
  | object fields ih =>
    have hfields : (Fields.mapEntries tree fields).filterMap
        (fun c => (c.2.value some).map fun v => (c.1, v)) = fields := by
      rw [Fields.mapEntries, List.filterMap_map]
      refine (List.filterMap_congr fun f hf => ?_).trans List.filterMap_some
      simp [ih f hf]
    rw [tree_object, Tree.value, Tree.fields_eq, hfields]

end Value

/-! ## Entries that are added -/

section

variable {σ α : Type} [Store σ α] {s s' s'' : σ}

/-- The second store has all entries of the first, under their ids. -/
structure Store.Includes (s s' : σ) : Prop where
  grows : size s ≤ size s'
  same : ∀ i < size s, get? s' i = get? s i

namespace Store.Includes

theorem refl (s : σ) : Includes s s := ⟨Nat.le_refl _, fun _ _ => rfl⟩

theorem trans (h : Includes s s') (h' : Includes s' s'') : Includes s s'' where
  grows := h.grows.trans h'.grows
  same i hi := (h'.same i (hi.trans_le h.grows)).trans (h.same i hi)

variable [LawfulStore σ]

theorem push (s : σ) (e : Entry α) : Includes s (push s e) where
  grows := by
    rw [LawfulStore.size_push]
    exact Nat.le_succ _
  same i hi := get?_push_of_lt hi e

/-- An entry of a store is one of every store that includes it. -/
theorem get?_eq_some (h : Includes s s') {i : NodeId} {e : Entry α} (he : get? s i = some e) :
    get? s' i = some e :=
  (h.same i (lt_size_of_get? he)).trans he

/-- What a store holds, a store that includes it holds. -/
theorem holds (h : Includes s s') {u : Unfolding α} (hu : Holds s u) : Holds s' u :=
  fun x hx => h.get?_eq_some (hu x hx)

end Store.Includes

/-- An entry that is added behind what is in it closes it into one tree. -/
theorem Store.holds_push [LawfulStore σ] {u : Unfolding α} (hid : u.id = size s)
    (h : ∀ x ∈ u.inner, get? s x.1 = some x.2) : Holds (push s u.entry) u := by
  refine holds_iff.2 ⟨?_, fun x hx => (Includes.push s u.entry).get?_eq_some (h x hx)⟩
  rw [hid, get?_push_size]

end

/-! ## Splitting -/

namespace Arena

/-- Adding the value adds its tree and leaves the arena as it was. -/
def Splits (a : Arena Value) (v : Value) : Prop := Includes a (a.insertValue v).1 ∧
  ∃ u, Holds (a.insertValue v).1 u ∧ u.id = (a.insertValue v).2 ∧ u.tree = v.tree

/-- The entry of a value is added behind what is in it. -/
theorem splits_of_push {a b : Arena Value} {v : Value} {u : Unfolding Value} (hb : Includes a b)
    (hinner : ∀ x ∈ u.inner, get? b x.1 = some x.2) (hid : u.id = size b)
    (hinsert : a.insertValue v = (push b u.entry, size b)) (htree : u.tree = v.tree) :
    Splits a v := by
  rw [Splits, hinsert]
  exact ⟨hb.trans (.push b u.entry), u, holds_push hid hinner, hid, htree⟩

/-- A value that is inserted as a leaf is one node. -/
theorem splits_leaf {a : Arena Value} {v : Value}
    (hinsert : a.insertValue v = (push a (.leaf v), size a)) (htree : v.tree = .leaf v) :
    Splits a v :=
  splits_of_push (u := .leaf (size a) v) (.refl a) (by simp [Unfolding.inner]) rfl hinsert
    htree.symm

/-- The items of an array are split one after the other. -/
theorem insertItems_splits {items : List Value} (h : ∀ v ∈ items, ∀ a, Splits a v)
    (a : Arena Value) :
    Includes a (a.insertItems items).1 ∧ ∃ us : List (Unfolding Value),
      (∀ u ∈ us, Holds (a.insertItems items).1 u) ∧
      us.map Unfolding.id = (a.insertItems items).2 ∧
      us.map Unfolding.tree = items.map Value.tree := by
  induction items generalizing a with
  | nil => exact ⟨.refl a, [], by simp, rfl, rfl⟩
  | cons v rest ih =>
    obtain ⟨hv, hrest⟩ := List.forall_mem_cons.1 h
    obtain ⟨hfirst, u, hu, hid, htree⟩ := hv a
    obtain ⟨hothers, us, hus, hids, htrees⟩ := ih hrest (a.insertValue v).1
    exact ⟨hfirst.trans hothers, u :: us, List.forall_mem_cons.2 ⟨hothers.holds hu, hus⟩,
      congrArg₂ List.cons hid hids, congrArg₂ List.cons htree htrees⟩

/-- The fields of an object are split one after the other. -/
theorem insertFields_splits {fields : List (String × Value)} (h : ∀ f ∈ fields, ∀ a, Splits a f.2)
    (a : Arena Value) :
    Includes a (a.insertFields fields).1 ∧ ∃ us : Fields (Unfolding Value),
      (∀ c ∈ us, Holds (a.insertFields fields).1 c.2) ∧
      us.mapEntries Unfolding.id = (a.insertFields fields).2 ∧
      us.mapEntries Unfolding.tree = Fields.mapEntries Value.tree fields := by
  induction fields generalizing a with
  | nil => exact ⟨.refl a, [], by simp, rfl, rfl⟩
  | cons f rest ih =>
    obtain ⟨name, v⟩ := f
    obtain ⟨hv, hrest⟩ := List.forall_mem_cons.1 h
    obtain ⟨hfirst, u, hu, hid, htree⟩ := hv a
    obtain ⟨hothers, us, hus, hids, htrees⟩ := ih hrest (a.insertValue v).1
    exact ⟨hfirst.trans hothers, (name, u) :: us,
      List.forall_mem_cons.2 ⟨hothers.holds hu, hus⟩,
      congrArg₂ List.cons (congrArg (Prod.mk name) hid) hids,
      congrArg₂ List.cons (congrArg (Prod.mk name) htree) htrees⟩

/-- Inserting any value splits it into the nodes of its tree. -/
theorem insertValue_splits (v : Value) (a : Arena Value) : Splits a v := by
  induction v using Value.induction generalizing a with
  | null => exact splits_leaf rfl rfl
  | bool b => exact splits_leaf rfl rfl
  | number n => exact splits_leaf rfl rfl
  | string s => exact splits_leaf rfl rfl
  | array items ih =>
    obtain ⟨hincludes, us, hus, hids, htrees⟩ := insertItems_splits ih a
    have hinsert : a.insertValue (.array items) = (push (a.insertItems items).1
        (.seq (us.map Unfolding.id)), size (a.insertItems items).1) := by
      rw [insertValue, hids]
    refine splits_of_push (u := .seq _ us) hincludes (fun x hx => ?_) rfl hinsert ?_
    · obtain ⟨u, hu, hx⟩ := List.mem_flatMap.1 hx
      exact hus u hu x hx
    · rw [Unfolding.tree_seq, htrees, Value.tree_array]
  | object fields ih =>
    obtain ⟨hincludes, us, hus, hids, htrees⟩ := insertFields_splits ih a
    have hinsert : a.insertValue (.object fields) = (push (a.insertFields fields).1
        (.map (us.mapEntries Unfolding.id)), size (a.insertFields fields).1) := by
      rw [insertValue, hids]
    refine splits_of_push (u := .map _ us) hincludes (fun x hx => ?_) rfl hinsert ?_
    · obtain ⟨c, hc, hx⟩ := List.mem_flatMap.1 hx
      exact hus c hc x hx
    · rw [Unfolding.tree_map, htrees, Value.tree_object]

/-- Equal values are split apart, and empty containers have an entry, too. -/
example : (({} : Arena Value).insertValue
      (.object [("a", .array [.null, .null]), ("b", .object [])])).1.entries =
    #[.leaf .null, .leaf .null, .seq [0, 1], .map [], .map [("a", 2), ("b", 3)]] := rfl

end Arena

/-! ## Later calls -/

/-- What can be done to an arena of values: a call to the store, or splitting a value. -/
inductive Arena.Action where
  | call (c : Call Value)
  | split (v : Value)

namespace Session

/-- Carries one action out. -/
def act (s : Session (Arena Value)) : Arena.Action → Session (Arena Value)
  | .call c => (s.step c).1
  | .split v => { s with store := (s.store.insertValue v).1 }

/-- The session has only added to the store it began with, in every series of updates. -/
def Extends {σ α : Type} [Store σ α] (s : σ) (session : Session σ) : Prop :=
  ∀ series, Draft.Extends s ⟨session.store, session.copies series⟩

theorem extends_start {σ α : Type} [Store σ α] (s : σ) : Extends s (start s) :=
  fun _ => ⟨Nat.le_refl _, fun _ _ => rfl, by simp [start]⟩

section

variable {σ α : Type} [Store σ α] {s : σ} {session : Session σ}

theorem Extends.includes (h : Extends s session) : Includes s session.store :=
  ⟨(h 0).grows, (h 0).same⟩

/-- What is only added leaves every series as it was. -/
theorem Extends.grow (h : Extends s session) {store : σ} (hstore : Includes session.store store) :
    Extends s { session with store } := fun series =>
  (h series).spares ⟨hstore.grows, fun i hi _ => hstore.same i hi, fun _ => Or.inl⟩

/-- A call only adds to the store a session began with. -/
theorem Extends.step [LawfulStore σ] (h : Extends s session) (call : Call α) :
    Extends s (session.step call).1 := by
  cases call with
  | add e => exact h.grow (.push session.store e)
  | update series root path change =>
    have hupdate := (h series).spares
      (Draft.update_spares ⟨session.store, session.copies series⟩ root path change)
    intro other
    simp only [Session.step]
    by_cases ho : other = series
    · subst ho
      simpa using hupdate
    · rw [Function.update_of_ne ho]
      exact ⟨hupdate.grows, hupdate.same, (h other).copies⟩

end

theorem Extends.act {a : Arena Value} {session : Session (Arena Value)} (h : Extends a session)
    (action : Arena.Action) : Extends a (session.act action) := by
  cases action with
  | call c => exact h.step c
  | split v => exact h.grow (Arena.insertValue_splits v session.store).1

/-- So do calls and insertions in a row. -/
theorem Extends.run {a : Arena Value} {session : Session (Arena Value)} (h : Extends a session)
    (actions : List Arena.Action) : Extends a (actions.foldl Session.act session) := by
  induction actions generalizing session with
  | nil => exact h
  | cons action rest ih => exact ih (h.act action)

end Session

/-- A value that is split into entries is built back from them, with its fields and items in order,
at once and after any further insertions and updates whose series begin without copies. No entry
changes that was there before the value was split, or after it. -/
theorem Arena.materialize_insertValue (a : Arena Value) (v : Value) (actions : List Arena.Action) :
    let split := a.insertValue v
    let later := (actions.foldl Session.act (Session.start split.1)).store
    materialize split.1 split.2 some = .ok (some v) ∧
      materialize later split.2 some = .ok (some v) ∧
      (∀ i < size a, get? split.1 i = get? a i) ∧
      ∀ i < size split.1, get? later i = get? split.1 i := by
  intro split later
  obtain ⟨hincludes, u, hu, hid, htree⟩ := insertValue_splits v a
  have hlater : Includes split.1 later := ((Session.extends_start split.1).run actions).includes
  have hvalue : u.tree.value some = some v := by rw [htree, Value.value_tree]
  refine ⟨?_, ?_, hincludes.same, hlater.same⟩
  · rw [← hid, hu.materialize, hvalue]
  · rw [← hid, (hlater.holds hu).materialize, hvalue]

end ValueResolution
