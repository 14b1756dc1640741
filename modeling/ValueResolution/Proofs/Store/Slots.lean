import Mathlib.Data.List.Basic
import ValueResolution.Proofs.Store.Positions
import ValueResolution.Proofs.Store.Ways
/-!
# Writing one child

A key addresses a slot of a container, and several keys can address one slot (`Entry.slot?`).
Linking a child writes into one slot: the keys of this slot lead to the child, all other keys to
where they led, and the children stay in order, a new one at the end (`Entry.Sets`). Stripping a key
takes a field away, or closes the gap that an item leaves in a sequence (`Entry.Drops`).

Both go wrong where the container has no room (`Entry.Admits`), and then nothing is changed; where
it has, one entry is changed and no other (`Arena.write_slot`).
-/

set_option autoImplicit false

namespace ValueResolution

open Store

namespace Entry

variable {α : Type} {old new : Entry α} {key slot : Key} {id : NodeId} {child : Option NodeId}

/-! ## Room in a container -/

/-- There is room for a child under the key; or, if no child is given, the key can be taken away. A
mapping has room for every name and takes the loss of any. -/
def Admits (e : Entry α) (key : Key) (child : Option NodeId) : Prop :=
  match e with
  | leaf _ => False
  | map _ => True
  | seq items => ∃ i, key.index? = some i ∧ (i < items.length ∨ i = items.length ∧ child.isSome)

theorem isSome_place?_iff : (old.place? key child).isSome ↔ old.Admits key child := by
  cases old with
  | leaf a => simp [place?, Admits]
  | map children => cases child <;> simp [place?, Admits]
  | seq items =>
    cases child with
    | none =>
      cases hi : key.index? <;> simp [place?, Admits, hi]
    | some id =>
      cases hi : key.index? with
      | none => simp [place?, Admits, hi]
      | some i =>
        simp only [place?, Admits, hi, Option.bind_some, Option.some.injEq, exists_eq_left']
        split_ifs <;> simp_all

/-! ## A child in a slot -/

/-- The new entry is the old one with the child in the slot. -/
structure Sets (old : Entry α) (slot : Key) (id : NodeId) (new : Entry α) : Prop where
  /-- In whatever way the slot is spelled, the child is found there, and the others are found where
  they were. -/
  child? : ∀ key, new.child? key = if old.slot? key = some slot then some id else old.child? key
  /-- The child takes the place of the one that was in the slot, or comes last. -/
  children : (∃ before other behind, old.children = before ++ (slot, other) :: behind ∧
      new.children = before ++ (slot, id) :: behind) ∨
    old.child? slot = none ∧ new.children = old.children ++ [(slot, id)]

theorem children_seq_append (before behind : List NodeId) (id : NodeId) :
    (seq (before ++ id :: behind) : Entry α).children = (seq before : Entry α).children ++
      (.index before.length, id) ::
        behind.mapIdx fun j other => (.index (j + before.length + 1), other) := by
  simp only [children, List.mapIdx_append, List.mapIdx_cons, Nat.zero_add]
  refine congrArg _ (congrArg _ (congrArg (fun f => behind.mapIdx f) ?_))
  funext j other
  rw [Nat.add_right_comm]

/-- A child that is written takes the place of the one in its slot. If there was none, it comes
last. -/
theorem place?_children (h : old.place? key (some id) = some new)
    (hslot : old.slot? key = some slot) :
    (∃ before other behind, old.children = before ++ (slot, other) :: behind ∧
      new.children = before ++ (slot, id) :: behind) ∨
    old.child? slot = none ∧ new.children = old.children ++ [(slot, id)] := by
  cases old with
  | leaf a => cases h
  | map children =>
    obtain rfl := Option.some.inj h
    obtain rfl := Option.some.inj hslot
    cases hat : Fields.at? children key.text with
    | none =>
      have hno := (Fields.at?_eq_none_iff _ _).1 hat
      exact .inr ⟨hat, by simp [Entry.children, Fields.put_of_notMem hno]⟩
    | some other =>
      obtain ⟨before, behind, rfl, hno⟩ := Fields.at?_eq_some_iff.1 hat
      refine .inl ⟨(map before : Entry α).children, other, (map behind : Entry α).children, ?_, ?_⟩
      · simp [Entry.children]
      · simp [Entry.children, Fields.put_append other id hno]
  | seq items =>
    obtain ⟨i, hi, hle, rfl⟩ := place?_seq_some h
    obtain rfl : Key.index i = slot := by simpa [slot?, hi] using hslot
    have hlen : (items.take i).length = i := List.length_take_of_le hle
    rcases Nat.lt_or_eq_of_le hle with hlt | rfl
    · have hsplit : items = items.take i ++ items[i] :: items.drop (i + 1) := by
        rw [← List.drop_eq_getElem_cons hlt, List.take_append_drop]
      refine .inl ⟨(seq (items.take i) : Entry α).children, items[i],
        (items.drop (i + 1)).mapIdx fun j other => (.index (j + i + 1), other), ?_, ?_⟩
      · conv_lhs => rw [hsplit, children_seq_append, hlen]
      · rw [children_seq_append, hlen]
    · refine .inr ⟨by simp [Entry.child?, Key.index?_index], ?_⟩
      rw [children_seq_append, List.take_length, List.drop_of_length_le (Nat.le_succ _)]
      rfl

theorem place?_sets (h : old.place? key (some id) = some new) :
    ∃ slot, old.slot? key = some slot ∧ old.Sets slot id new := by
  have hled := child?_place h
  obtain ⟨slot, hslot⟩ := exists_slot hled
  rw [slot?_place h] at hslot
  refine ⟨slot, hslot, fun key' => ?_, place?_children h hslot⟩
  rw [← hslot]
  split_ifs with hsame
  · rw [← hled]
    exact child?_congr (by rw [slot?_place h, slot?_place h, hsame])
  · exact (child?_place_or h key').resolve_left fun hboth => hsame hboth.1

/-! ## A slot taken away -/

/-- The new entry is the old one without what is under the key. In a mapping the field is missing
and the others keep their order; in a sequence the item is taken out and those behind it move
up. -/
def Drops (old : Entry α) (key : Key) (new : Entry α) : Prop :=
  match old, new with
  | map children, map children' =>
    children' = children.filter (fun e => e.1 ≠ key.text) ∧ ∀ key' : Key,
      (map children' : Entry α).child? key' =
        if key'.text = key.text then none else (map children : Entry α).child? key'
  | seq items, seq items' => ∃ i, key.index? = some i ∧ i < items.length ∧
      items'.length = items.length - 1 ∧ ∀ (key' : Key) (j : Nat), key'.index? = some j →
        (seq items' : Entry α).child? key' = items[if j < i then j else j + 1]?
  | _, _ => False

theorem place?_drops (hd : ∀ children, old = map children → Fields.Distinct children)
    (h : old.place? key none = some new) : old.Drops key new := by
  cases old with
  | leaf a => cases h
  | map children =>
    have hdistinct := hd children rfl
    obtain rfl := Option.some.inj h
    refine ⟨Fields.remove_eq_filter hdistinct _, fun key' => ?_⟩
    split_ifs with hname
    · exact hname ▸ Fields.at?_remove_self hdistinct _
    · exact Fields.at?_remove_of_ne _ (Ne.symm hname)
  | seq items =>
    obtain ⟨i, hi, hlt, rfl⟩ := place?_seq_none h
    refine ⟨i, hi, hlt, List.length_eraseIdx_of_lt hlt, fun key' j hj => ?_⟩
    rw [child?, hj, Option.bind_some, List.getElem?_eraseIdx]
    split_ifs <;> rfl

/-- What is written into an entry: a child in the slot of a key, or none. -/
def Placed (old : Entry α) (key : Key) (child : Option NodeId) (new : Entry α) : Prop :=
  match child with
  | some id => ∃ slot, old.slot? key = some slot ∧ old.Sets slot id new
  | none => old.Drops key new

theorem place?_placed (hd : ∀ children, old = map children → Fields.Distinct children)
    (h : old.place? key child = some new) : old.Placed key child new := by
  cases child with
  | none => exact place?_drops hd h
  | some id => exact place?_sets h

/-- Names are not repeated by writing. -/
theorem distinct_of_place? (hd : ∀ children, old = map children → Fields.Distinct children)
    (h : old.place? key child = some new) {children : Fields NodeId} (hnew : new = map children) :
    children.Distinct := by
  subst hnew
  cases old with
  | leaf a => cases h
  | map children' =>
    cases child with
    | none =>
      obtain rfl := map.inj (Option.some.inj h)
      exact (hd children' rfl).remove _
    | some id =>
      obtain rfl := map.inj (Option.some.inj h)
      exact (hd children' rfl).put _ _
  | seq items =>
    cases child with
    | none =>
      obtain ⟨i, -, -, h⟩ := place?_seq_none h
      cases h
    | some id =>
      obtain ⟨i, -, -, h⟩ := place?_seq_some h
      cases h

end Entry

namespace Arena

variable {α : Type}

/-- Links a child under a key or, if none is given, strips the key of an entry that is written in
place. The arena stays as it is where this is refused. -/
def write (a : Arena α) (parent : NodeId) (key : Key) :
    Option NodeId → Arena α × Except Error Unit
  | some id =>
    match a.link parent key id with
    | .ok a' => (a', .ok ())
    | .error e => (a, .error e)
  | none =>
    let (d, result) := Draft.update ⟨a, [parent]⟩ parent [key] (.strip : Update α)
    (d.store, result.map fun _ => ())

variable {a : Arena α} {parent : NodeId} {key : Key} {child : Option NodeId}

theorem write_of_place {a' : Arena α} (h : place? a parent key child = some a') :
    a.write parent key child = (a', .ok ()) := by
  cases child with
  | none => simp [write, Draft.update, Draft.own, Draft.descend, Draft.stage, h, Except.map]
  | some id => simp [write, link, h]

theorem write_of_not_place (h : place? a parent key child = none) :
    a.write parent key child = (a, .error (.invalidPath key.text)) := by
  have htext : Path.text [key] = key.text := by simp [Path.text]
  cases child with
  | none =>
    simp [write, Draft.update, Draft.own, Draft.descend, Draft.stage, h, htext, Except.map]
  | some id => simp [write, link, h, htext]

/-- There is room where the entry is in the arena and admits the child. -/
theorem place?_eq_none_iff : place? a parent key child = none ↔
    ∀ e, get? a parent = some e → ¬ e.Admits key child := by
  rw [place?]
  cases he : get? a parent with
  | none => simp
  | some e =>
    have hlt : parent < a.entries.size := lt_size_of_get? he
    simp only [Option.bind_some, Option.some.injEq, forall_eq', ← Entry.isSome_place?_iff]
    cases e.place? key child with
    | none => simp
    | some e' => simp [replace?, hlt]

/-- Writing a child in an arena. Where the entry of the parent admits it, the call succeeds, and the
child is in the slot of the key, or the slot is taken away. Where it does not, or there is no such
entry, the call fails with the text of the key, and the arena is what it was. No entry but that of
the parent is changed, and no name comes to be repeated. -/
theorem write_slot (htidy : Tidy a) (parent : NodeId) (key : Key) (child : Option NodeId) :
    let outcome := a.write parent key child
    (∀ e, get? a parent = some e → e.Admits key child → outcome.2 = .ok () ∧
      ∃ e', get? outcome.1 parent = some e' ∧ e.Placed key child e') ∧
    ((∀ e, get? a parent = some e → ¬ e.Admits key child) →
      outcome = (a, .error (.invalidPath key.text))) ∧
    (∀ i ≠ parent, get? outcome.1 i = get? a i) ∧ size outcome.1 = size a ∧ Tidy outcome.1 := by
  intro outcome
  cases hplace : place? a parent key child with
  | none =>
    have hout : outcome = (a, .error (.invalidPath key.text)) := write_of_not_place hplace
    rw [hout]
    exact ⟨fun e he hroom => absurd hroom (place?_eq_none_iff.1 hplace e he), fun _ => rfl,
      fun _ _ => rfl, rfl, htidy⟩
  | some a' =>
    have hout : outcome = (a', .ok ()) := write_of_place hplace
    obtain ⟨e, e', he, hwritten, he', hothers⟩ := exists_place? hplace
    obtain ⟨-, -, -, -, -, -, hsize, -⟩ := place?_eq_some hplace
    have hdistinct : ∀ children, e = .map children → Fields.Distinct children :=
      fun children heq => htidy parent children (heq ▸ he)
    rw [hout]
    refine ⟨fun old hold _ => ⟨rfl, e', he', ?_⟩, fun hno => ?_, hothers, hsize,
      fun i children hi => ?_⟩
    · obtain rfl := Option.some.inj (he.symm.trans hold)
      exact Entry.place?_placed hdistinct hwritten
    · rw [place?_eq_none_iff.2 hno] at hplace
      cases hplace
    · by_cases hparent : i = parent
      · subst hparent
        exact Entry.distinct_of_place? hdistinct hwritten (Option.some.inj (he'.symm.trans hi))
      · exact htidy i children ((hothers i hparent).symm.trans hi)

/-- A sequence and a mapping of two leaves, where the mapping has a name that reads as a number. -/
def shelf : Arena Nat := ⟨#[.leaf 7, .leaf 8, .seq [0, 0], .map [("a", 0), ("1", 2)]]⟩

/-- The second item is written under a numeral with a sign, the field of the mapping is taken away
under a number, and behind the end of the sequence there is no room. -/
theorem write_slot_spelled :
    Tidy shelf ∧
      (∃ e, get? (shelf.write 2 (.field "+1") (some 1)).1 2 = some e ∧
        (Entry.seq [0, 0] : Entry Nat).Placed (.field "+1") (some 1) e) ∧
      (∃ e, get? (shelf.write 3 (.index 1) none).1 3 = some e ∧
        (Entry.map [("a", 0), ("1", 2)] : Entry Nat).Placed (.index 1) none e) ∧
      shelf.write 2 (.index 3) (some 1) = (shelf, .error (.invalidPath "3")) := by
  have hs : Tidy shelf := by
    intro i children h
    have hmem : Entry.map children ∈ shelf.entries := Array.mem_of_getElem? h
    obtain rfl : children = [("a", 0), ("1", 2)] := by simpa [shelf] using hmem
    unfold Fields.Distinct
    decide
  have hsign : (Key.field "+1").index? = some 1 := by decide +kernel
  refine ⟨hs, ?_, ?_, ?_⟩
  · exact ((write_slot hs 2 (.field "+1") (some 1)).1 _ rfl ⟨1, hsign, .inl (by decide)⟩).2
  · exact ((write_slot hs 3 (.index 1) none).1 _ rfl trivial).2
  · refine (write_slot hs 2 (.index 3) (some 1)).2.1 fun e he => ?_
    obtain rfl := Option.some.inj he
    rintro ⟨i, hi, hroom⟩
    obtain rfl : i = 3 := (Option.some.inj hi).symm
    simp at hroom

end Arena

end ValueResolution
