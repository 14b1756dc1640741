import ValueResolution.Key
/-!
# References

A reference is an anchor and a path. The anchor says where the path starts: at the input
(`Anchor.root`), at a container counted upward from the reference, the nearest being one
(`Anchor.relative`), or at a container counted downward from the outermost one, which is zero
(`Anchor.level`).

A reference has a short text: `$path` from the input, `/path` from the outermost container,
`@n/path` from the container `n` levels below it, and otherwise a path among the siblings, with a
caret in front for every further container upward. `Reference.ofText` reads every text, and
`Reference.text` writes a reference.

Seen from a position in a tree, a relative or a level reference has a target in that tree
(`Reference.target?`), unless it leaves the tree at its root; then `Reference.escape?` is the same
reference as the tree's own position makes it.
-/

set_option autoImplicit false

namespace ValueResolution

/-- Where a reference starts. -/
inductive Anchor where
  | root
  | relative (up : Nat)
  | level (depth : Nat)
deriving DecidableEq

/-- A path from an anchor. -/
structure Reference where
  anchor : Anchor
  path : Path
deriving DecidableEq

namespace Reference

/-- A reference into the input. -/
def root (path : String) : Reference := ⟨.root, .ofText path⟩

/-- A reference from the container `up` steps above. -/
def relative (up : Nat) (path : String) : Reference := ⟨.relative up, .ofText path⟩

/-- A reference from the container `depth` steps below the outermost. -/
def level (depth : Nat) (path : String) : Reference := ⟨.level depth, .ofText path⟩

/-- A reference to a sibling. -/
def sibling (path : String) : Reference := relative 1 path

/-- Reads `n/path`, the text of a level reference behind its sign. -/
def levelOfChars? (cs : List Char) : Option Reference :=
  match cs.dropWhile (· != '/') with
  | [] => none
  | _ :: path => (Text.index? (cs.takeWhile (· != '/'))).map fun n => level n (String.ofList path)

/-- Reads a relative reference: a caret for each step beyond the first, then a path. -/
def relativeOfChars (cs : List Char) : Reference :=
  relative ((cs.takeWhile (· == '^')).length + 1) (String.ofList (cs.dropWhile (· == '^')))

/-- Reads the characters of a reference. What looks like a level reference but has no level is a
path among the siblings. -/
def ofChars : List Char → Reference
  | '$' :: path => root (String.ofList path)
  | '/' :: path => level 0 (String.ofList path)
  | '@' :: rest => (levelOfChars? rest).getD (relativeOfChars ('@' :: rest))
  | cs => relativeOfChars cs

/-- Reads the text of a reference. -/
def ofText (text : String) : Reference := ofChars text.toList

/-- Writes the text of a reference. -/
def text (r : Reference) : String :=
  match r.anchor with
  | .root => "$" ++ r.path.text
  | .level 0 => "/" ++ r.path.text
  | .level n => "@" ++ n.repr ++ "/" ++ r.path.text
  | .relative up => String.ofList (List.replicate (up - 1) '^') ++ r.path.text

/-- The place read from `position`, within the tree that has that position. -/
def target? (r : Reference) (position : Path) : Option Path :=
  match r.anchor with
  | .root => none
  | .relative up =>
    if 1 ≤ up ∧ up ≤ position.length then
      some (position.take (position.length - up) ++ r.path)
    else none
  | .level n => if n < position.length then some (position.take n ++ r.path) else none

/-- The reference as made from the position of a tree, when it is made `depth` steps inside that
tree and reaches out of it. -/
def escape? (r : Reference) (depth : Nat) : Option Reference :=
  match r.anchor with
  | .root => none
  | .relative up => if depth < up then some ⟨.relative (up - depth), r.path⟩ else none
  | .level _ => some r

end Reference

end ValueResolution
