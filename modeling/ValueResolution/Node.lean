import ValueResolution.Schema.Order
import ValueResolution.Schema.References
/-!
# Value trees as they are written

A node is the written form of a value tree: literals and terminals in mappings and sequences. In a
mapping a name may be written twice; it keeps its first place and takes the last node, and the
node that was replaced plays no part.

`ValueTree.compile` lays a node out as a skeleton with its terminals, fixes the orders of
resolution, and fails if the terminals wait for each other.
-/

set_option autoImplicit false

namespace ValueResolution

/-- The written form of a value tree. -/
inductive Node where
  /-- Returned as it is; what is inside is not looked into. -/
  | literal (v : Value)
  | terminal (t : Terminal)
  | map (entries : List (String × Node))
  | seq (items : List Node)

namespace Node

mutual

/-- A plain value as a node; objects and arrays become mappings and sequences. -/
def ofValue : Value → Node
  | .object fields => map (ofFields fields)
  | .array items => seq (ofItems items)
  | scalar => literal scalar

/-- The items of an array as nodes. -/
def ofItems : List Value → List Node
  | [] => []
  | v :: rest => ofValue v :: ofItems rest

/-- The fields of an object as entries. -/
def ofFields : List (String × Value) → List (String × Node)
  | [] => []
  | (name, v) :: rest => (name, ofValue v) :: ofFields rest

end

/-- A reference as a node. -/
def reference (r : Reference) : Node := terminal (.reference r)

/-- An expression as a node. -/
def expression (x : Expression) : Node := terminal (.expression x)

/-- A nested schema as a node. -/
def schema (s : Schema) : Node := terminal (.schema s)

mutual

/-- Adds the skeleton of a node to an arena; the answer ends with its id. -/
def lay (a : Arena Slot) : Node → Arena Slot × NodeId
  | literal v => (Store.push a (.leaf (some v)), Store.size a)
  | terminal _ => (Store.push a (.leaf none), Store.size a)
  | map entries =>
    let (a, children) := layEntries a entries
    (Store.push a (.map (Fields.ofEntries children)), Store.size a)
  | seq items =>
    let (a, ids) := layItems a items
    (Store.push a (.seq ids), Store.size a)

/-- Adds the skeletons of the entries of a mapping. -/
def layEntries (a : Arena Slot) : List (String × Node) → Arena Slot × List (String × NodeId)
  | [] => (a, [])
  | (name, node) :: rest =>
    let (a, id) := lay a node
    let (a, ids) := layEntries a rest
    (a, (name, id) :: ids)

/-- Adds the skeletons of the items of a sequence. -/
def layItems (a : Arena Slot) : List Node → Arena Slot × List NodeId
  | [] => (a, [])
  | node :: rest =>
    let (a, id) := lay a node
    let (a, ids) := layItems a rest
    (a, id :: ids)

end

mutual

/-- The terminals of a node with their places, in the order of their declaration. -/
def sites : Node → List Site
  | literal _ => []
  | terminal t => [⟨[], t⟩]
  | map entries =>
    (Fields.ofEntries (sitesOfEntries entries)).flatMap fun (name, sites) =>
      sites.map fun site => ⟨.field name :: site.path, site.terminal⟩
  | seq items =>
    ((sitesOfItems items).mapIdx fun i sites =>
      sites.map fun site => ⟨.index i :: site.path, site.terminal⟩).flatten

/-- The terminals of each entry of a mapping. -/
def sitesOfEntries : List (String × Node) → List (String × List Site)
  | [] => []
  | (name, node) :: rest => (name, sites node) :: sitesOfEntries rest

/-- The terminals of each item of a sequence. -/
def sitesOfItems : List Node → List (List Site)
  | [] => []
  | node :: rest => sites node :: sitesOfItems rest

end

end Node

/-- Compiles a node. -/
def ValueTree.compile (node : Node) : Except Error ValueTree := do
  let (skeleton, root) := node.lay {}
  let sites := node.sites
  let terminals := sites.map fun site => (site.path, site.terminal.references)
  let order ← (ValueTree.resolutionOrder terminals false).mapError .dependencyCycle
  return { skeleton, root, sites, order,
           rootedOrder := ValueTree.resolutionOrder terminals true }

end ValueResolution
