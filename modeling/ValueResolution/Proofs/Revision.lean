import ValueResolution.Proofs.Stripping
import ValueResolution.Proofs.Tree
import ValueResolution.Store.Draft
/-!
# Edits of a tree

An edit writes a leaf at a path or takes away what is there. On a tree without a store this is a
function (`Edit.outcome?`): every key before the last one must lead on, and the container at the end
must have room for the change. A mapping takes a new name at its end and does not mind a name that
is missing; a sequence takes a new item only behind its last one and loses only an item that it
has; nothing is written into a leaf.

An edit changes nothing beside its path (`Tree.at?_revise`): what another path finds is the same
as before, if the two part at some container. When an item is taken out of a sequence, the items
behind it move, and only those before it count as beside.
-/

set_option autoImplicit false

namespace ValueResolution

namespace Tree

variable {α : Type}

/-- The container with `child` under the key, or without the key if there is no child to write. -/
def place? (t : Tree α) (key : Key) (child : Option (Tree α)) : Option (Tree α) :=
  match t, child with
  | leaf _, _ => none
  | map children, some child => some (map (Fields.put children key.text child))
  | map children, none => some (map (Fields.remove children key.text))
  | seq items, some child =>
    key.index?.bind fun i =>
      if i < items.length then some (seq (items.set i child))
      else if i = items.length then some (seq (items ++ [child]))
      else none
  | seq items, none =>
    key.index?.bind fun i => if i < items.length then some (seq (items.eraseIdx i)) else none

/-- The tree after a change under the last of the keys, which writes `change` there or takes away
what is there. -/
def revise? (change : Option (Tree α)) (t : Tree α) (key : Key) : Path → Option (Tree α)
  | [] => t.place? key change
  | next :: rest =>
    (t.child? key).bind fun child =>
      (child.revise? change next rest).bind fun child => t.place? key (some child)

/-- A key that leads on is written in place. -/
theorem place?_of_child {t child : Tree α} {key : Key} (h : t.child? key = some child)
    (other : Tree α) : t.place? key (some other) = some (t.withChild key other) := by
  cases t with
  | leaf a => simp [child?] at h
  | map children => rfl
  | seq items =>
    obtain ⟨i, hi, hget⟩ := Option.bind_eq_some_iff.1 h
    obtain ⟨hlt, -⟩ := List.getElem?_eq_some_iff.1 hget
    simp [place?, withChild, hi, hlt]

theorem revise?_cons {t child : Tree α} {key : Key} (h : t.child? key = some child)
    (change : Option (Tree α)) (next : Key) (rest : Path) :
    t.revise? change key (next :: rest) =
      (child.revise? change next rest).map (t.withChild key) := by
  rw [revise?, h, Option.bind_some, Option.map_eq_bind]
  exact congrArg _ (funext fun other => place?_of_child h other)

theorem place?_none_of_child {t child : Tree α} {key : Key} (h : t.child? key = some child) :
    t.place? key none = some (t.without key) := by
  cases t with
  | leaf a => simp [child?] at h
  | map children => rfl
  | seq items =>
    obtain ⟨i, hi, hget⟩ := Option.bind_eq_some_iff.1 h
    obtain ⟨hlt, -⟩ := List.getElem?_eq_some_iff.1 hget
    simp [place?, without, hi, hlt]

theorem put_cons {t child : Tree α} {key : Key} (h : t.child? key = some child) (a : α)
    (rest : Path) : t.put a (key :: rest) = t.withChild key (child.put a rest) := by
  rw [put, modify, h]

/-- Where a path leads somewhere, a leaf can be written. -/
theorem revise?_put {t u : Tree α} {key : Key} {rest : Path} (h : t.at? (key :: rest) = some u)
    (a : α) : t.revise? (some (leaf a)) key rest = some (t.put a (key :: rest)) := by
  induction rest generalizing t key with
  | nil =>
    obtain ⟨child, hc, -⟩ := Option.bind_eq_some_iff.1 h
    rw [revise?, place?_of_child hc, put_cons hc]
    rfl
  | cons next rest ih =>
    obtain ⟨child, hc, h⟩ := Option.bind_eq_some_iff.1 h
    rw [revise?_cons hc, ih h, put_cons hc]
    rfl

/-- What a path leads to can be taken away. -/
theorem revise?_strip {t u : Tree α} {key : Key} {rest : Path}
    (h : t.at? (key :: rest) = some u) :
    t.revise? none key rest = some (t.strip (key :: rest)) := by
  induction rest generalizing t key with
  | nil =>
    obtain ⟨child, hc, -⟩ := Option.bind_eq_some_iff.1 h
    rw [revise?, place?_none_of_child hc]
    rfl
  | cons next rest ih =>
    obtain ⟨child, hc, h⟩ := Option.bind_eq_some_iff.1 h
    rw [revise?_cons hc, ih h, strip_cons hc (List.cons_ne_nil _ _)]
    rfl

/-! ## Beside an edit -/

/-- Whether a change under `key` does not touch what is under `other`. A change that closes a gap
moves the items behind it. -/
def Apart (closing : Bool) (t : Tree α) (key other : Key) : Prop :=
  match t with
  | leaf _ => True
  | map _ => key.text ≠ other.text
  | seq _ => ∀ i j, key.index? = some i → other.index? = some j → if closing then j < i else i ≠ j

/-- Whether a path parts from the path of a change, before it gets to what is changed. -/
def Beside (closing : Bool) (t : Tree α) : Path → Path → Prop
  | [key], other :: _ => t.Apart closing key other
  | key :: next :: rest, other :: q =>
    t.Apart false key other ∨
      ∃ child, t.child? key = some child ∧ child.Beside closing (next :: rest) q
  | _, _ => False

theorem place?_seq {items : List (Tree α)} {t : Tree α} {key : Key} {change : Option (Tree α)}
    (h : (seq items).place? key change = some t) :
    ∃ i items', key.index? = some i ∧ t = seq items' ∧
      ∀ j, (if change.isNone then j < i else i ≠ j) → items'[j]? = items[j]? := by
  cases change with
  | none =>
    obtain ⟨i, hi, h⟩ := Option.bind_eq_some_iff.1 h
    obtain ⟨-, h⟩ := Option.ite_none_right_eq_some.1 h
    exact ⟨i, _, hi, (Option.some.inj h).symm, fun j hj => List.getElem?_eraseIdx_of_lt hj⟩
  | some child =>
    obtain ⟨i, hi, h⟩ := Option.bind_eq_some_iff.1 h
    by_cases hlt : i < items.length
    · rw [if_pos hlt] at h
      exact ⟨i, _, hi, (Option.some.inj h).symm, fun j hj => List.getElem?_set_ne hj⟩
    · rw [if_neg hlt] at h
      obtain ⟨rfl, ht⟩ := Option.ite_none_right_eq_some.1 h
      refine ⟨_, _, hi, (Option.some.inj ht).symm, fun j hj => ?_⟩
      rcases Nat.lt_or_gt_of_ne (show items.length ≠ j from hj) with hj | hj
      · rw [List.getElem?_eq_none (by simp; omega), List.getElem?_eq_none (Nat.le_of_lt hj)]
      · exact List.getElem?_append_left hj

/-- A change under a key does not touch what is apart from it. -/
theorem child?_place {t t' : Tree α} {key other : Key} {change : Option (Tree α)}
    (h : t.place? key change = some t') (ha : t.Apart change.isNone key other) :
    t'.child? other = t.child? other := by
  cases t with
  | leaf a => simp [place?] at h
  | map children =>
    cases change with
    | none =>
      obtain rfl := Option.some.inj h
      exact Fields.at?_remove_of_ne _ ha
    | some child =>
      obtain rfl := Option.some.inj h
      exact (Fields.at?_put _ _ _ _).trans (if_neg ha)
  | seq items =>
    obtain ⟨i, items', hi, rfl, hget⟩ := place?_seq h
    cases hj : other.index? with
    | none => simp [child?, hj]
    | some j => simpa [child?, hj] using hget j (ha i j hi hj)

/-- Two keys that are not apart address one slot. -/
theorem child?_of_not_apart {t child : Tree α} {key other : Key} (h : t.child? key = some child)
    (ha : ¬ t.Apart false key other) (new : Tree α) :
    t.child? other = some child ∧ (t.withChild key new).child? other = some new := by
  cases t with
  | leaf a => exact absurd trivial ha
  | map children =>
    have htext : key.text = other.text := not_not.1 ha
    simp only [child?, withChild, ← htext]
    exact ⟨h, (Fields.at?_put _ _ _ _).trans (if_pos rfl)⟩
  | seq items =>
    obtain ⟨i, hi, hget⟩ := Option.bind_eq_some_iff.1 h
    obtain ⟨hlt, hchild⟩ := List.getElem?_eq_some_iff.1 hget
    have hother : other.index? = some i := by
      simp only [Apart, not_forall] at ha
      obtain ⟨i', j, hi', hj, hij⟩ := ha
      obtain rfl : i = i' := Option.some.inj (hi.symm.trans hi')
      obtain rfl : i = j := not_not.1 hij
      exact hj
    simp [child?, withChild, hi, hother, hlt, hchild]

/-- A change does not touch what is beside its path. -/
theorem at?_revise {t t' : Tree α} {key : Key} {rest q : Path} {change : Option (Tree α)}
    (h : t.revise? change key rest = some t') (hb : t.Beside change.isNone (key :: rest) q) :
    t'.at? q = t.at? q := by
  induction rest generalizing t t' key q with
  | nil =>
    cases q with
    | nil => exact absurd hb id
    | cons other q => rw [at?, at?, child?_place h hb]
  | cons next rest ih =>
    cases q with
    | nil => exact absurd hb id
    | cons other q =>
      obtain ⟨child, hc, -⟩ := Option.bind_eq_some_iff.1 h
      rw [revise?_cons hc] at h
      obtain ⟨child', hrev, rfl⟩ := Option.map_eq_some_iff.1 h
      by_cases ha : t.Apart false key other
      · have hplace := place?_of_child hc child'
        rw [at?, at?, child?_place hplace ha]
      · obtain ⟨_, hc', hb⟩ := hb.resolve_left ha
        obtain rfl := Option.some.inj (hc.symm.trans hc')
        obtain ⟨hold, hnew⟩ := child?_of_not_apart hc ha child'
        rw [at?, at?, hold, hnew]
        exact ih hrev hb

end Tree

/-- The update that writes a leaf, or takes away what is there. -/
def Update.writing {α : Type} : Option α → Update α
  | some a => .put (.leaf a)
  | none => .strip

/-- Writing a leaf at a path, or taking away what is there. -/
structure Edit (α : Type) where
  path : Path
  leaf? : Option α

namespace Edit

variable {α : Type}

/-- The tree after an edit. An edit can fail, and it can take the whole tree away. -/
def outcome? (e : Edit α) (t : Tree α) : Option (Option (Tree α)) :=
  match e.path with
  | [] => some (e.leaf?.map .leaf)
  | key :: rest => (t.revise? (e.leaf?.map .leaf) key rest).map some

/-- An edit changes nothing beside its path. -/
theorem at?_outcome {e : Edit α} {t t' : Tree α} (h : e.outcome? t = some (some t')) {q : Path}
    (hb : t.Beside e.leaf?.isNone e.path q) : t'.at? q = t.at? q := by
  obtain ⟨path, leaf?⟩ := e
  cases path with
  | nil => exact absurd hb (by simp [Tree.Beside])
  | cons key rest =>
    obtain ⟨_, hrev, heq⟩ := Option.map_eq_some_iff.1 h
    obtain rfl := Option.some.inj heq
    exact Tree.at?_revise hrev (by simpa using hb)

end Edit

end ValueResolution
