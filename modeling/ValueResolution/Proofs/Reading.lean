import ValueResolution.Proofs.Tree
/-!
# Parts that read the same

Building the value of a tree leaves out what has no value, and this can move what stands behind it
in a sequence. A tree is aligned (`Tree.Aligned`) if a key of a container finds the value of what it
finds in the tree all the same; such a tree reads like its value (`Tree.Aligned.reach_value`).

What is read in a tree does not change when a part of it is replaced by one that reads the same at
every path (`Tree.read_modify`). A part whose leaves all have values is aligned
(`Tree.Full.aligned`), so a leaf with that value can stand in its place.
-/

set_option autoImplicit false

namespace ValueResolution

namespace Tree

/-! ## Trees that read like their values -/

/-- In every container a key finds the value of what it finds in the tree. -/
inductive Aligned : Tree Slot → Prop where
  | leaf (slot : Slot) : Aligned (leaf slot)
  | map {children : List (String × Tree Slot)}
      (hfields : ∀ name, Fields.at? (fields (fun slot => slot) children) name =
        (Fields.at? children name).bind fun t => t.value fun slot => slot)
      (h : ∀ c ∈ children, Aligned c.2) : Aligned (map children)
  | seq {items : List (Tree Slot)}
      (hitems : ∀ i : Nat, (values (fun slot => slot) items)[i]? =
        items[i]?.bind fun t => t.value fun slot => slot)
      (h : ∀ t ∈ items, Aligned t) : Aligned (seq items)

/-- An aligned tree reads like its value. -/
theorem Aligned.reach_value {t : Tree Slot} (h : t.Aligned) (path : Path) :
    ((t.value fun slot => slot).bind fun v => v.reach path) = t.read path := by
  induction path generalizing t with
  | nil =>
    rw [read]
    cases t.value fun slot => slot <;> rfl
  | cons key rest ih =>
    cases h with
    | leaf slot => rfl
    | @map children hfields h =>
      simp only [value, Option.bind_some, Value.reach, Value.child?, hfields, read, child?,
        Option.bind_assoc]
      exact Option.bind_congr fun child hc => ih (h (_, child) (Fields.mem_of_at? hc))
    | @seq items hitems h =>
      simp only [value, Option.bind_some, Value.reach, Value.child?, hitems, read, child?,
        Option.bind_assoc]
      exact Option.bind_congr fun i _ => Option.bind_congr fun child hc =>
        ih (h child (List.mem_of_getElem? hc))

/-- Where every item has a value, no item of the array is moved. -/
theorem getElem?_values {items : List (Tree Slot)}
    (h : ∀ t ∈ items, ∃ v, (t.value fun slot => slot) = some v) (i : Nat) :
    (values (fun slot => slot) items)[i]? = items[i]?.bind fun t => t.value fun slot => slot := by
  induction items generalizing i with
  | nil => rfl
  | cons t rest ih =>
    obtain ⟨⟨v, hv⟩, hrest⟩ := List.forall_mem_cons.1 h
    cases i with
    | zero => simp [values, hv]
    | succ i => simp [values, hv, ih hrest]

/-! ## Trees without empty leaves -/

/-- Every leaf of the tree has a value. -/
inductive Full : Tree Slot → Prop where
  | leaf (v : Value) : Full (leaf (some v))
  | map {children : List (String × Tree Slot)} (h : ∀ c ∈ children, Full c.2) : Full (map children)
  | seq {items : List (Tree Slot)} (h : ∀ t ∈ items, Full t) : Full (seq items)

theorem Full.exists_value {t : Tree Slot} (h : t.Full) :
    ∃ v, (t.value fun slot => slot) = some v := by
  cases h with
  | leaf v => exact ⟨v, rfl⟩
  | map h => exact ⟨_, rfl⟩
  | seq h => exact ⟨_, rfl⟩

/-- No field is left out of the object that a full mapping stands for. -/
theorem at?_fields_of_full {children : List (String × Tree Slot)} (h : ∀ c ∈ children, Full c.2)
    (name : String) : Fields.at? (fields (fun slot => slot) children) name =
      (Fields.at? children name).bind fun t => t.value fun slot => slot := by
  induction children with
  | nil => rfl
  | cons c rest ih =>
    obtain ⟨other, t⟩ := c
    obtain ⟨hfirst, hrest⟩ := List.forall_mem_cons.1 h
    obtain ⟨v, hv⟩ := hfirst.exists_value
    by_cases hname : other = name
    · simp [fields, hv, Fields.at?, hname]
    · simp [fields, hv, Fields.at?, hname, ih hrest]

/-- Nothing is left out of the value of a full tree. -/
theorem Full.aligned {t : Tree Slot} (h : t.Full) : t.Aligned := by
  induction h with
  | leaf v => exact .leaf _
  | map h ih => exact .map (at?_fields_of_full h) ih
  | seq h ih => exact .seq (getElem?_values fun t ht => (h t ht).exists_value) ih

/-- A full tree reads like its value. -/
theorem Full.reach_value {t : Tree Slot} (h : t.Full) (path : Path) :
    ((t.value fun slot => slot).bind fun v => v.reach path) = t.read path :=
  h.aligned.reach_value path

/-! ## Replacing a part -/

variable {t : Tree Slot} {f : Tree Slot → Tree Slot}

/-- A child can be replaced by one that reads the same. -/
theorem read_withChild {child other : Tree Slot} {key : Key} (hc : t.child? key = some child)
    (h : ∀ path, other.read path = child.read path) (path : Path) :
    (t.withChild key other).read path = t.read path := by
  have hvalue : (other.value fun slot => slot) = child.value fun slot => slot := h []
  cases t with
  | leaf slot => simp [child?] at hc
  | map children =>
    cases path with
    | nil =>
      obtain ⟨before, behind, rfl, hno⟩ := Fields.at?_eq_some_iff.1 hc
      simp only [withChild, Fields.put_append _ _ hno, read, value, fields_eq,
        List.filterMap_append, List.filterMap_cons, hvalue]
    | cons next rest =>
      simp only [withChild, read, child?, Fields.at?_put]
      split
      · rename_i hname
        rw [← hname, show Fields.at? children key.text = some child from hc]
        exact h rest
      · rfl
  | seq items =>
    obtain ⟨i, hi, hget⟩ := Option.bind_eq_some_iff.1 hc
    obtain ⟨hlt, rfl⟩ := List.getElem?_eq_some_iff.1 hget
    cases path with
    | nil =>
      have hsplit : items = items.take i ++ items[i] :: items.drop (i + 1) := by
        rw [← List.drop_eq_getElem_cons hlt, List.take_append_drop]
      simp only [withChild, hi, read, value, values_eq]
      rw [List.set_eq_take_cons_drop other hlt, List.filterMap_append, List.filterMap_cons, hvalue,
        ← List.filterMap_cons, ← List.filterMap_append, ← hsplit]
    | cons next rest =>
      simp only [withChild, hi, read, child?, Option.bind_assoc]
      refine Option.bind_congr fun j _ => ?_
      by_cases hij : i = j
      · subst hij
        rw [List.getElem?_set_self hlt, hget]
        exact h rest
      · rw [List.getElem?_set_ne hij]

/-- A part can be replaced by one that reads the same. -/
theorem read_modify {part : Tree Slot} {place : Path} (hp : t.at? place = some part)
    (h : ∀ path, (f part).read path = part.read path) (path : Path) :
    (modify f place t).read path = t.read path := by
  induction place generalizing t path with
  | nil =>
    obtain rfl := Option.some.inj hp
    exact h path
  | cons key rest ih =>
    obtain ⟨child, hc, hp⟩ := Option.bind_eq_some_iff.1 hp
    rw [modify, hc]
    exact read_withChild hc (fun q => ih hp q) path

end Tree

end ValueResolution
