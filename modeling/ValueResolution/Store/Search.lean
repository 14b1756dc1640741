import ValueResolution.Store.Basic
/-!
# Searching a store

`Store.visits` walks the tree at a root depth first, the last child of a container first, and tests
every entry it comes to. An entry that passes is not looked into. A container is looked into once:
neither a second way to it nor a way back to it is followed. `Store.findPaths` are the paths of the
entries that passed.
-/

set_option autoImplicit false

namespace ValueResolution

/-- An entry that was tested: its path and the outcome. -/
structure Visit where
  path : Path
  passed : Bool

namespace Store

variable {σ α : Type} [Store σ α]

/-- The walk over the places on `stack`. `unseen` holds the ids that were not looked into yet; a
place whose id is not among them is passed over if it is a container. -/
def walk (s : σ) (test : Entry α → Path → Bool) (unseen : List NodeId)
    (stack : List (Path × NodeId)) : List Visit :=
  match stack with
  | [] => []
  | (path, id) :: rest =>
    match get? s id with
    | none => walk s test unseen rest
    | some e =>
      if e.isContainer && !unseen.contains id then walk s test unseen rest
      else if test e path then ⟨path, true⟩ :: walk s test unseen rest
      else if h : e.isContainer ∧ id ∈ unseen then
        let left := unseen.erase id
        let below := (e.children.filter fun (_, child) => left.contains child).map
          fun (key, child) => (path ++ [key], child)
        ⟨path, false⟩ :: walk s test left (below.reverse ++ rest)
      else ⟨path, false⟩ :: walk s test unseen rest
termination_by (unseen.length, stack.length)
decreasing_by
  all_goals first
    | (apply Prod.Lex.right; simp)
    | (apply Prod.Lex.left
       have := List.length_erase_of_mem h.2
       have := List.length_pos_of_mem h.2
       omega)

/-- Every entry tested on the walk from `root`, in order. -/
def visits (s : σ) (root : NodeId) (test : Entry α → Path → Bool) : List Visit :=
  walk s test (List.range (size s)) [([], root)]

/-- The paths of the entries that pass the test, later siblings first. -/
def findPaths (s : σ) (root : NodeId) (test : Entry α → Path → Bool) : List Path :=
  ((visits s root test).filter Visit.passed).map Visit.path

end Store

end ValueResolution
