/-!
# Stable ordering of items

A sorter holds named items, each with the names it has to come after. `Sorter.sort` orders all of
them so that every item follows the items it depends on; among the items whose dependencies are
placed, the one registered first is placed next. When that comes to an end too early, it answers
with the name of an item that depends on itself through others.

An item is known by its position. A name stands for the last item registered under it; a name that
was never registered, and an item's own position, are no dependencies (`Sorter.dependsOn`). The
run counts for each item how many of its dependencies are not placed yet (`Progress`), and an item
is ready when its count comes down to zero.
-/

set_option autoImplicit false

namespace ValueResolution

universe u

/-- A named item and the names it comes after. -/
structure Item (α : Type u) where
  name : α
  after : List α

/-- Items in the order of their registration. -/
structure Sorter (α : Type u) where
  items : List (Item α) := []

namespace Sorter

/-- Where a run stands: the positions placed so far, in order, for each position the number of its
dependencies that are not placed, and the positions that can be placed, in ascending order. -/
structure Progress where
  order : List Nat
  remaining : List Nat
  ready : List Nat

/-- Adds a position to an ascending list without repeating it. -/
def insertAscending (i : Nat) : List Nat → List Nat
  | [] => [i]
  | j :: rest =>
    if i < j then i :: j :: rest
    else if i = j then j :: rest
    else j :: insertAscending i rest

namespace Progress

/-- Takes note that one of the dependencies of `i` has been placed. -/
def settle (p : Progress) (i : Nat) : Progress :=
  let count := p.remaining.getD i 0 - 1
  { p with
    remaining := p.remaining.set i count
    ready := if count = 0 then insertAscending i p.ready else p.ready }

/-- Places the first ready position; `dependents i` are the positions that wait for `i`. -/
def step (dependents : Nat → List Nat) (p : Progress) : Progress :=
  match p.ready with
  | [] => p
  | next :: ready =>
    (dependents next).foldl settle { p with order := p.order ++ [next], ready := ready }

/-- Places positions one by one, `n` times or until none is ready. -/
def run (dependents : Nat → List Nat) : Nat → Progress → Progress
  | 0, p => p
  | n + 1, p => run dependents n (step dependents p)

end Progress

/-- The first position that comes up twice on the walk from `current` that always goes on to the
least unplaced dependency; `visited` holds the positions already seen. -/
def repeated (unplaced : Nat → List Nat) : Nat → Nat → List Nat → Nat
  | 0, current, _ => current
  | n + 1, current, visited =>
    if current ∈ visited then current
    else
      match unplaced current with
      | [] => current
      | next :: _ => repeated unplaced n next (current :: visited)

variable {α : Type u} [DecidableEq α]

/-- Registers an item. -/
def add (s : Sorter α) (name : α) (after : List α) : Sorter α :=
  ⟨s.items ++ [⟨name, after⟩]⟩

def size (s : Sorter α) : Nat := s.items.length

def isEmpty (s : Sorter α) : Bool := s.items.isEmpty

/-- The position a name stands for: that of the last item registered under it. -/
def position? (s : Sorter α) (name : α) : Option Nat :=
  (List.range s.size).reverse.find? fun i => s.items[i]?.any fun item => item.name = name

/-- The positions that the item at `i` has to come after, in ascending order. -/
def dependsOn (s : Sorter α) (i : Nat) : List Nat :=
  match s.items[i]? with
  | none => []
  | some item =>
    let known := item.after.filterMap s.position?
    (List.range s.size).filter fun j => j ≠ i && known.contains j

/-- For every position, the positions it has to come after. -/
def dependencies (s : Sorter α) : List (List Nat) := (List.range s.size).map s.dependsOn

/-- The positions that have to come after `j`, in ascending order. -/
def dependentsOf (dependencies : List (List Nat)) (j : Nat) : List Nat :=
  (List.range dependencies.length).filter fun i => (dependencies.getD i []).contains j

/-- Nothing placed; the items without dependencies are ready. -/
def start (dependencies : List (List Nat)) : Progress where
  order := []
  remaining := dependencies.map List.length
  ready := (List.range dependencies.length).filter fun i => (dependencies.getD i []).isEmpty

/-- The end of the run. No item is placed twice, so as many steps as there are items are enough. -/
def placement (s : Sorter α) : Progress :=
  Progress.run (dependentsOf s.dependencies) s.size (start s.dependencies)

/-- A position on a cycle, if the run left any unplaced: the walk along unplaced dependencies from
the first unplaced position comes back to it. -/
def cycle? (s : Sorter α) : Option Nat :=
  let placed := s.placement.order
  let unplaced := fun i => (s.dependsOn i).filter fun j => !placed.contains j
  ((List.range s.size).find? fun i => !placed.contains i).map fun first =>
    repeated unplaced (s.size + 1) first []

/-- The name of the item at a position. -/
def name? (s : Sorter α) (i : Nat) : Option α := s.items[i]?.map Item.name

/-- The names in order, or the name of an item on a cycle. -/
def sort (s : Sorter α) : Except α (List α) :=
  match s.cycle?.bind s.name? with
  | some name => .error name
  | none => .ok (s.placement.order.filterMap s.name?)

example : (((({} : Sorter String).add "a" ["b"]).add "b" ["c"]).add "c" []).sort.toOption =
    some ["c", "b", "a"] := by decide

end Sorter

end ValueResolution
