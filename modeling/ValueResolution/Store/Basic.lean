import ValueResolution.Fields
import ValueResolution.Key
/-!
# Stores of entries

A tree is kept as entries that name their children by id: a leaf, a mapping or a sequence. Since
children are ids, a container can stand in several places, or inside itself.

An `Arena` is a growing store in which every entry can be changed. An `Overlay` is a store on top
of a frozen arena: ids below the size of the base read from the base, the entries added since are
its own, and only these can be changed. Ids count entries in the order in which they were added, so
an overlay reads like a larger arena (`Overlay.flatten`).

`Entry.child?` looks a key up in an entry, and `Entry.place?` writes a child under a key or removes
it, where the entry has room for that.
-/

set_option autoImplicit false

namespace ValueResolution

/-- The number of an entry in its store. -/
abbrev NodeId := Nat

/-- One node of a tree. -/
inductive Entry (α : Type) where
  | leaf (a : α)
  | map (children : Fields NodeId)
  | seq (items : List NodeId)
deriving DecidableEq

namespace Entry

variable {α : Type}

def isContainer : Entry α → Bool
  | leaf _ => false
  | _ => true

/-- The child a key addresses. -/
def child? (e : Entry α) (key : Key) : Option NodeId :=
  match e with
  | leaf _ => none
  | map children => children.at? key.text
  | seq items => key.index?.bind fun i => items[i]?

/-- The children with their keys, in order. -/
def children : Entry α → List (Key × NodeId)
  | leaf _ => []
  | map children => children.map fun (name, id) => (.field name, id)
  | seq items => items.mapIdx fun i id => (.index i, id)

/-- The entry with `child` under the key, or without the key if there is no child to write. A
mapping takes every key; a new one goes to its end and a missing one is no loss. A sequence takes a
position it has, and a child also at its end; removing one closes the gap. A leaf takes nothing. -/
def place? (e : Entry α) (key : Key) (child : Option NodeId) : Option (Entry α) :=
  match e, child with
  | leaf _, _ => none
  | map children, some id => some (map (children.put key.text id))
  | map children, none => some (map (children.remove key.text))
  | seq items, some id =>
    key.index?.bind fun i =>
      if i < items.length then some (seq (items.set i id))
      else if i = items.length then some (seq (items ++ [id]))
      else none
  | seq items, none =>
    key.index?.bind fun i => if i < items.length then some (seq (items.eraseIdx i)) else none

end Entry

/-- Stores of entries over `α`: reading, adding at the end, and changing an entry where the store
allows it. -/
class Store (σ : Type) (α : outParam Type) where
  /-- The number of entries, which is the id of the next one. -/
  size : σ → Nat
  get? : σ → NodeId → Option (Entry α)
  push : σ → Entry α → σ
  /-- Changes an entry, unless it is frozen or missing. -/
  replace? : σ → NodeId → Entry α → Option σ

/-- A growing store. -/
structure Arena (α : Type) where
  entries : Array (Entry α) := #[]

namespace Arena

variable {α : Type}

instance : Store (Arena α) α where
  size a := a.entries.size
  get? a id := a.entries[id]?
  push a e := ⟨a.entries.push e⟩
  replace? a id e := if id < a.entries.size then some ⟨a.entries.setIfInBounds id e⟩ else none

end Arena

/-- A store on top of a frozen arena. -/
structure Overlay (α : Type) where
  base : Arena α
  fresh : Array (Entry α) := #[]

namespace Overlay

variable {α : Type}

instance : Store (Overlay α) α where
  size o := o.base.entries.size + o.fresh.size
  get? o id :=
    if id < o.base.entries.size then o.base.entries[id]?
    else o.fresh[id - o.base.entries.size]?
  push o e := { o with fresh := o.fresh.push e }
  replace? o id e :=
    if id < o.base.entries.size then none
    else if id - o.base.entries.size < o.fresh.size then
      some { o with fresh := o.fresh.setIfInBounds (id - o.base.entries.size) e }
    else none

/-- The arena with the entries of both layers. -/
def flatten (o : Overlay α) : Arena α := ⟨o.base.entries ++ o.fresh⟩

theorem size_flatten (o : Overlay α) : Store.size o.flatten = Store.size o := by
  simp [Store.size, flatten]

theorem get?_flatten (o : Overlay α) (id : NodeId) :
    Store.get? o.flatten id = Store.get? o id := by
  simp only [Store.get?, flatten, Array.getElem?_append]

end Overlay

namespace Store

variable {σ α : Type} [Store σ α]

/-- The child of an entry under a key. -/
def child? (s : σ) (id : NodeId) (key : Key) : Option NodeId :=
  (get? s id).bind fun e => e.child? key

/-- Whether the entry can be changed. -/
def isWritable (s : σ) (id : NodeId) : Bool :=
  match get? s id with
  | some e => (replace? s id e).isSome
  | none => false

/-- Writes `child` under a key of the entry `parent`, or removes the key. -/
def place? (s : σ) (parent : NodeId) (key : Key) (child : Option NodeId) : Option σ :=
  (get? s parent).bind fun e => (e.place? key child).bind fun e => replace? s parent e

end Store

end ValueResolution
