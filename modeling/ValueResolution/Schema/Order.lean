import ValueResolution.Reference
import ValueResolution.Sorter
/-!
# The order of resolution

A terminal waits for every other terminal that one of its references may read: those whose place
overlaps the target. `ValueTree.resolutionOrder` puts all terminals of a tree in an order that
respects this and otherwise keeps the order of their declaration. References that count from the
outermost container take part only if the tree is the outermost one (`rooted`).
-/

set_option autoImplicit false

namespace ValueResolution

/-- Whether the reference counts from the outermost container. -/
def Reference.isLevel (r : Reference) : Bool :=
  match r.anchor with
  | .level _ => true
  | _ => false

namespace ValueTree

/-- The places of the other terminals that the references of the terminal at `path` may read. -/
def waitsFor (places : List Path) (rooted : Bool) (path : Path) (references : List Reference) :
    List Path :=
  let counted := references.filter fun r => rooted || !r.isLevel
  (counted.filterMap fun r => r.target? path).flatMap fun target =>
    places.filter fun other => other ≠ path && Path.overlaps other target

/-- The terminals, given by their places and references, in the order of resolution, or the text
of a place on a cycle. -/
def resolutionOrder (terminals : List (Path × List Reference)) (rooted : Bool) :
    Except String (List Path) :=
  let places := terminals.map Prod.fst
  let sorter := terminals.foldl
    (fun s (path, references) => s.add path (waitsFor places rooted path references))
    ({} : Sorter Path)
  sorter.sort.mapError Path.text

end ValueTree

end ValueResolution
