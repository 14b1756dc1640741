import ValueResolution.Resolution
import ValueResolution.Store.Basic
/-!
# Updates by copying

An update never changes an entry that was there before. It copies the containers along its path
and writes into the copies, so that the tree it started from stays as it was and the branches off
the path are shared by id.

A `Draft` is a store together with the copies made so far. Several updates on one draft share
their copies: a container that is a copy already is written in place (`Draft.own`). An update that
fails keeps the copies it has made.
-/

set_option autoImplicit false

namespace ValueResolution

/-- A store with the ids of the copies made in it. -/
structure Draft (σ : Type) where
  store : σ
  copies : List NodeId := []

/-- What to do at the end of a path. -/
inductive Update (α : Type) where
  /-- Put this entry there. -/
  | put (e : Entry α)
  /-- Take the key away; a sequence closes the gap. -/
  | strip

namespace Draft

variable {σ α : Type} [Store σ α]

/-- Adds an entry. -/
def push (d : Draft σ) (e : Entry α) : Draft σ × NodeId :=
  ({ d with store := Store.push d.store e }, Store.size d.store)

/-- The id of a copy of the entry: itself if it is one, else a new one. -/
def own (d : Draft σ) (id : NodeId) : Draft σ × NodeId :=
  if id ∈ d.copies then (d, id)
  else
    match Store.get? d.store id with
    | none => (d, id)
    | some e =>
      let copy := Store.size d.store
      (⟨Store.push d.store e, d.copies.insert copy⟩, copy)

/-- Adds the entry of an update; there is none to add for a removal. -/
def stage (d : Draft σ) : Update α → Draft σ × Option NodeId
  | .put e => ((d.push e).1, some (d.push e).2)
  | .strip => (d, none)

/-- Carries an update out below the copy `current`, along a path that has at least one key. The
answer tells whether the path led somewhere. -/
def descend (d : Draft σ) (current : NodeId) (update : Update α) : Path → Draft σ × Bool
  | [] => (d, true)
  | [last] =>
    let (d, child) := d.stage update
    match Store.place? d.store current last child with
    | some store => ({ d with store }, true)
    | none => (d, false)
  | key :: next :: rest =>
    match Store.child? d.store current key with
    | none => (d, false)
    | some child =>
      let (d, copy) := d.own child
      match Store.place? d.store current key (some copy) with
      | none => (d, false)
      | some store => descend { d with store } copy update (next :: rest)

/-- Updates the tree at `root`. The answer is the root of the updated tree, or none if the root
itself was taken away. -/
def update (d : Draft σ) (root : NodeId) (path : Path) (change : Update α) :
    Draft σ × Except Error (Option NodeId) :=
  match path with
  | [] =>
    let (d, root) := d.stage change
    (d, .ok root)
  | key :: rest =>
    let (d, top) := d.own root
    match d.descend top change (key :: rest) with
    | (d, true) => (d, .ok (some top))
    | (d, false) => (d, .error (.invalidPath (Path.text (key :: rest))))

end Draft

/-- Makes `child` reachable from `parent` under a key. The child may be reachable elsewhere, even
from itself. -/
def Arena.link {α : Type} (a : Arena α) (parent : NodeId) (key : Key) (child : NodeId) :
    Except Error (Arena α) :=
  match Store.place? a parent key (some child) with
  | some a => .ok a
  | none => .error (.invalidPath (Path.text [key]))

end ValueResolution
