import ValueResolution.Resolution
import ValueResolution.Store.Basic
/-!
# Between entries and plain values

`Arena.insertValue` splits a plain value into entries, the children of a container before the
container. `Store.materialize` builds a plain value from the tree at a root: a shared branch is
copied into every place it stands in, a leaf that has no value is left out of its container, and a
container that is reached again through itself is an error.
-/

set_option autoImplicit false

namespace ValueResolution

namespace Arena

mutual

/-- Adds a value; the answer ends with the id of its entry. -/
def insertValue (a : Arena Value) : Value → Arena Value × NodeId
  | .array items =>
    let (a, ids) := insertItems a items
    (Store.push a (.seq ids), Store.size a)
  | .object fields =>
    let (a, children) := insertFields a fields
    (Store.push a (.map children), Store.size a)
  | scalar => (Store.push a (.leaf scalar), Store.size a)

/-- Adds values one after the other. -/
def insertItems (a : Arena Value) : List Value → Arena Value × List NodeId
  | [] => (a, [])
  | v :: rest =>
    let (a, id) := insertValue a v
    let (a, ids) := insertItems a rest
    (a, id :: ids)

/-- Adds the values of fields one after the other. -/
def insertFields (a : Arena Value) : List (String × Value) → Arena Value × Fields NodeId
  | [] => (a, [])
  | (name, v) :: rest =>
    let (a, id) := insertValue a v
    let (a, ids) := insertFields a rest
    (a, (name, id) :: ids)

end

end Arena

namespace Store

variable {σ α : Type} [Store σ α]

/-- Applies a partial function that can fail to each item and keeps what it yields, up to the
first failure. -/
def collect {β γ : Type} (f : β → Except Error (Option γ)) : List β → Except Error (List γ)
  | [] => .ok []
  | b :: rest => do
    let found ← f b
    let others ← collect f rest
    return found.toList ++ others

/-- Builds the value at `id`, which stands at `path` inside the containers `active`. At most `room`
containers can be entered one inside the other. -/
def build (s : σ) (valueOf : α → Option Value) :
    (room : Nat) → (active : List NodeId) → NodeId → Path → Except Error (Option Value)
  | 0, _, _, path => .error (.cyclicValue path.text)
  | room + 1, active, id, path =>
    match get? s id with
    | none => .ok none
    | some (.leaf a) => .ok (valueOf a)
    | some (.map children) =>
      if id ∈ active then .error (.cyclicValue path.text)
      else do
        let fields ← collect (fun (name, child) => do
          let v ← build s valueOf room (id :: active) child (path ++ [.field name])
          return v.map fun v => (name, v)) children
        return some (.object fields)
    | some (.seq items) =>
      if id ∈ active then .error (.cyclicValue path.text)
      else do
        let values ← collect (fun (i, child) =>
          build s valueOf room (id :: active) child (path ++ [.index i])) (items.mapIdx Prod.mk)
        return some (.array values)

/-- Builds the value of the tree at `root`. No container is entered inside itself, so there are
never more of them around a place than there are entries. -/
def materialize (s : σ) (root : NodeId) (valueOf : α → Option Value) :
    Except Error (Option Value) :=
  build s valueOf (size s + 1) [] root []

end Store

end ValueResolution
