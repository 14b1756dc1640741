import ValueResolution.Proofs.Fields
import ValueResolution.Scope
/-!
# Trees without a store

`Tree α` is what a store holds at an id once sharing is forgotten: a leaf, a mapping or a sequence
of trees. `Tree.at?` follows a path through it, `Tree.value` is the plain value it stands for, in
which leaves without a value are left out of their container, and `Tree.read` is what a reference
finds at a path: it goes on inside the value of a leaf (`Tree.read_append`).

`Tree.put` writes a leaf at a path that leads somewhere. `Tree.Spelled` says of a path that every
key by which it goes into a sequence is written as the numeral of its position; a key can also
name a position by other texts.
-/

set_option autoImplicit false

namespace ValueResolution

theorem mapIdx_map {α β γ : Type} (f : α → β) (g : Nat → β → γ) (l : List α) :
    (l.map f).mapIdx g = l.mapIdx fun i a => g i (f a) :=
  List.ext_getElem? fun i => by simp [Function.comp_def]

theorem map_mapIdx {α β γ : Type} (f : Nat → α → β) (g : β → γ) (l : List α) :
    (l.mapIdx f).map g = l.mapIdx fun i a => g (f i a) :=
  List.ext_getElem? fun i => by simp [Function.comp_def]

/-- Nested data with leaves in `α`. -/
inductive Tree (α : Type) where
  | leaf (a : α)
  | map (children : List (String × Tree α))
  | seq (items : List (Tree α))

namespace Tree

variable {α β : Type}

/-- Induction over a tree, with the hypothesis for every child of a container. -/
@[elab_as_elim]
theorem induction {motive : Tree α → Prop} (leaf : ∀ a, motive (leaf a))
    (map : ∀ children, (∀ c ∈ children, motive c.2) → motive (map children))
    (seq : ∀ items, (∀ t ∈ items, motive t) → motive (seq items)) : ∀ t, motive t
  | .leaf a => leaf a
  | .map children => map children fun c _hc => induction leaf map seq c.2
  | .seq items => seq items fun t _ht => induction leaf map seq t
decreasing_by
  · obtain ⟨name, t⟩ := c
    have := List.sizeOf_lt_of_mem _hc
    simp only [Tree.map.sizeOf_spec, Prod.mk.sizeOf_spec] at this ⊢
    omega
  · have := List.sizeOf_lt_of_mem _ht
    simp only [Tree.seq.sizeOf_spec]
    omega

/-! ## Following a path -/

/-- The child that a key addresses. -/
def child? (t : Tree α) (key : Key) : Option (Tree α) :=
  match t with
  | leaf _ => none
  | map children => Fields.at? children key.text
  | seq items => key.index?.bind fun i => items[i]?

/-- The tree at a path. -/
def at? (t : Tree α) : Path → Option (Tree α)
  | [] => some t
  | key :: rest => (t.child? key).bind fun child => child.at? rest

/-! ## Values -/

mutual

/-- The value a tree stands for, given the values of its leaves. -/
def value (valueOf : α → Option Value) : Tree α → Option Value
  | leaf a => valueOf a
  | map children => some (.object (fields valueOf children))
  | seq items => some (.array (values valueOf items))

/-- The fields of an object; what has no value is left out. -/
def fields (valueOf : α → Option Value) : List (String × Tree α) → List (String × Value)
  | [] => []
  | (name, t) :: rest => ((value valueOf t).map fun v => (name, v)).toList ++ fields valueOf rest

/-- The items of an array; what has no value is left out. -/
def values (valueOf : α → Option Value) : List (Tree α) → List Value
  | [] => []
  | t :: rest => (value valueOf t).toList ++ values valueOf rest

end

/-- An object has the fields of the children that have a value. -/
theorem fields_eq (valueOf : α → Option Value) (children : List (String × Tree α)) :
    fields valueOf children =
      children.filterMap fun c => (c.2.value valueOf).map fun v => (c.1, v) := by
  induction children with
  | nil => rfl
  | cons c rest ih =>
    obtain ⟨name, t⟩ := c
    rw [fields, ih, List.filterMap_cons]
    cases value valueOf t <;> rfl

/-- An array has the items that have a value. -/
theorem values_eq (valueOf : α → Option Value) (items : List (Tree α)) :
    values valueOf items = items.filterMap (value valueOf) := by
  induction items with
  | nil => rfl
  | cons t rest ih =>
    rw [values, ih, List.filterMap_cons]
    cases value valueOf t <;> rfl

section

variable (valueOf : α → Option Value) {children : List (String × Tree α)}

/-- No name is added to an object, and none changes its place. -/
theorem names_fields_sublist (children : List (String × Tree α)) :
    (Fields.names (fields valueOf children)).Sublist (Fields.names children) := by
  induction children with
  | nil => exact List.Sublist.refl _
  | cons c rest ih =>
    obtain ⟨name, t⟩ := c
    rw [fields]
    cases value valueOf t with
    | none => exact ih.cons name
    | some v => exact ih.cons_cons name

theorem distinct_fields (hd : Fields.Distinct children) :
    Fields.Distinct (fields valueOf children) :=
  hd.sublist (names_fields_sublist valueOf children)

/-- The field of an object is the value of the child, if it has one. -/
theorem at?_fields (hd : Fields.Distinct children) (name : String) :
    Fields.at? (fields valueOf children) name =
      (Fields.at? children name).bind (value valueOf) := by
  induction children with
  | nil => rfl
  | cons c rest ih =>
    obtain ⟨other, t⟩ := c
    obtain ⟨hno, hd⟩ := List.nodup_cons.1 hd
    have ih := ih hd
    by_cases h : other = name
    · subst h
      have hnone : Fields.at? (fields valueOf rest) other = none :=
        (Fields.at?_eq_none_iff _ _).2 fun hmem =>
          hno ((names_fields_sublist valueOf rest).subset hmem)
      cases hv : value valueOf t <;> simp [fields, Fields.at?, hv, hnone]
    · cases hv : value valueOf t <;> simp [fields, Fields.at?, hv, h, ih]

end

/-- What is found at a path; a leaf without a value has nothing inside. -/
def read (t : Tree Slot) : Path → Option Value
  | [] => t.value fun slot => slot
  | key :: rest =>
    match t with
    | leaf slot => slot.bind fun v => v.reach (key :: rest)
    | t => (t.child? key).bind fun child => child.read rest

/-- Inside a leaf a path is followed in its value. -/
@[simp] theorem read_leaf (slot : Slot) (path : Path) :
    (leaf slot).read path = slot.bind fun v => v.reach path := by
  cases path with
  | nil => cases slot <;> rfl
  | cons key rest => rfl

/-- In a container the first key addresses a child. -/
theorem read_cons {t : Tree Slot} (h : ∀ slot, t ≠ leaf slot) (key : Key) (rest : Path) :
    t.read (key :: rest) = (t.child? key).bind fun child => child.read rest := by
  cases t with
  | leaf slot => exact absurd rfl (h slot)
  | map children => rfl
  | seq items => rfl

theorem ne_leaf_of_child? {t child : Tree α} {key : Key} (h : t.child? key = some child) (a : α) :
    t ≠ leaf a := by
  rintro rfl
  simp [child?] at h

/-- Reading a path that begins with one that leads somewhere is reading the rest from there. -/
theorem read_append {t u : Tree Slot} {p : Path} (h : t.at? p = some u) (q : Path) :
    t.read (p ++ q) = u.read q := by
  induction p generalizing t with
  | nil => obtain rfl := Option.some.inj h; rfl
  | cons key p ih =>
    obtain ⟨child, hc, hu⟩ := Option.bind_eq_some_iff.1 h
    rw [List.cons_append, read_cons (ne_leaf_of_child? hc), hc]
    exact ih hu

/-! ## Writing a leaf -/

/-- The tree with another child under a key that it has. -/
def withChild (t : Tree α) (key : Key) (child : Tree α) : Tree α :=
  match t with
  | leaf a => leaf a
  | map children => map (Fields.put children key.text child)
  | seq items =>
    match key.index? with
    | some i => seq (items.set i child)
    | none => seq items

/-- The tree with its part at a path changed; a path that leads nowhere changes nothing. -/
def modify (f : Tree α → Tree α) : Path → Tree α → Tree α
  | [], t => f t
  | key :: rest, t =>
    match t.child? key with
    | some child => t.withChild key (modify f rest child)
    | none => t

/-- Writes a leaf at a path. -/
def put (a : α) : Path → Tree α → Tree α := modify fun _ => leaf a

/-! ## Spelling -/

/-- Whether a path enters every sequence on its way by the numeral of a position. -/
def Spelled : Tree α → Path → Prop
  | _, [] => True
  | leaf _, _ :: _ => True
  | map children, key :: rest =>
    ∀ child, Fields.at? children key.text = some child → child.Spelled rest
  | seq items, key :: rest => ∀ i child, key.index? = some i → items[i]? = some child →
    key.text = i.repr ∧ child.Spelled rest

theorem spelled_map_iff {children : List (String × Tree α)} {key : Key} {rest : Path}
    {child : Tree α} (h : Fields.at? children key.text = some child) :
    (map children).Spelled (key :: rest) ↔ child.Spelled rest := by
  simp [Spelled, h]

theorem spelled_seq_iff {items : List (Tree α)} {key : Key} {rest : Path} {i : Nat}
    {child : Tree α} (hi : key.index? = some i) (h : items[i]? = some child) :
    (seq items).Spelled (key :: rest) ↔ key.text = i.repr ∧ child.Spelled rest := by
  constructor
  · exact fun hs => hs i child hi h
  · intro hs j other hj hother
    obtain rfl : i = j := Option.some.inj (hi.symm.trans hj)
    obtain rfl : child = other := Option.some.inj (h.symm.trans hother)
    exact hs

/-- A path whose keys name positions by their numerals only is spelled in every tree. -/
theorem spelled_of_numerals {path : Path}
    (h : ∀ key ∈ path, ∀ i, key.index? = some i → key.text = i.repr) (t : Tree α) :
    t.Spelled path := by
  induction path generalizing t with
  | nil => cases t <;> trivial
  | cons key rest ih =>
    have hrest := ih fun k hk => h k (List.mem_cons_of_mem _ hk)
    cases t with
    | leaf a => trivial
    | map children => exact fun child _ => hrest child
    | seq items => exact fun i child hi _ => ⟨h key List.mem_cons_self i hi, hrest child⟩

/-- A path that begins like a spelled one and goes on in numerals is spelled. -/
theorem Spelled.take_append {t : Tree α} {p : Path} (h : t.Spelled p) {q : Path}
    (hq : ∀ key ∈ q, ∀ i, key.index? = some i → key.text = i.repr) (k : Nat) :
    t.Spelled (p.take k ++ q) := by
  induction p generalizing t k with
  | nil => simpa using spelled_of_numerals hq t
  | cons key rest ih =>
    cases k with
    | zero => exact spelled_of_numerals hq t
    | succ k =>
      cases t with
      | leaf a => trivial
      | map children => exact fun child hc => ih (h child hc) k
      | seq items =>
        intro i child hi hc
        obtain ⟨htext, hrest⟩ := h i child hi hc
        exact ⟨htext, ih hrest k⟩

/-- Behind a spelled way to a part, a path is spelled when it is spelled in that part. -/
theorem spelled_append_iff {t u : Tree α} {p : Path} (hp : t.Spelled p) (h : t.at? p = some u)
    (q : Path) : t.Spelled (p ++ q) ↔ u.Spelled q := by
  induction p generalizing t with
  | nil =>
    obtain rfl := Option.some.inj h
    exact Iff.rfl
  | cons key rest ih =>
    obtain ⟨child, hc, hu⟩ := Option.bind_eq_some_iff.1 h
    cases t with
    | leaf a => simp [child?] at hc
    | map children =>
      simp only [child?] at hc
      rw [spelled_map_iff hc] at hp
      rw [List.cons_append, spelled_map_iff hc]
      exact ih hp hu
    | seq items =>
      obtain ⟨i, hi, hget⟩ := Option.bind_eq_some_iff.1 hc
      rw [spelled_seq_iff hi hget] at hp
      rw [List.cons_append, spelled_seq_iff hi hget, ih hp.2 hu]
      exact and_iff_right hp.1

end Tree

end ValueResolution
