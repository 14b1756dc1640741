import ValueResolution.Resolver
import ValueResolution.Store.Draft
/-!
# Resolving the terminals of a tree

A pass takes the skeleton of a value tree, in which every terminal is an empty slot, and resolves
the terminals one after the other. Each one is resolved in the scope of its place, so it sees what
the earlier ones left in the containers around it. Its value is written into a copy of the tree.
Terminals that have no value are taken out of their containers at the very end, in an order in
which no removal moves the place of a later one.

With the preference to stop early, the first terminal that fails ends the pass; neither it nor the
ones after it show in the value.

What a pass does itself can fail and asks nothing, so it is the same in every monad into which
`Except Error` is lifted (`Pass.resolveAll`).
-/

set_option autoImplicit false

namespace ValueResolution

/-- The state of a pass. -/
structure Pass where
  draft : Draft (Overlay Slot)
  /-- The root of the working tree, unless it was taken away. -/
  root : Option NodeId
  errors : List ValidationError := []
  /-- The terminals without a value, in the order in which they were resolved. -/
  absent : List Path := []

namespace Pass

/-- A pass over a skeleton before its first terminal. -/
def start (skeleton : Arena Slot) (root : NodeId) : Pass where
  draft := ⟨{ base := skeleton }, []⟩
  root := some root

/-- The containers along a path from `current`, in front of `outer`; innermost first. -/
def framesAlong (store : Overlay Slot) : NodeId → Path → List Frame → Option (List Frame)
  | _, [], outer => some outer
  | current, key :: rest, outer =>
    (Store.child? store current key).bind fun child =>
      framesAlong store child rest (⟨store, current⟩ :: outer)

/-- The containers around the place of a terminal in the tree at `current`. -/
def framesAt (p : Pass) (current : NodeId) (path : Path) : Except Error (List Frame) :=
  match framesAlong p.draft.store current path [] with
  | none => .error (.invalidPath path.text)
  | some frames => .ok frames

/-- Changes the tree at `current`. -/
def change (p : Pass) (current : NodeId) (path : Path) (update : Update Slot) :
    Except Error Pass := do
  let (draft, root) := p.draft.update current path update
  return { p with draft := draft, root := ← root }

/-- Records what the terminal at `path` resolved to. -/
def record (p : Pass) (current : NodeId) (path : Path) : Option Value → Except Error Pass
  | some v => p.change current path (.put (.leaf (some v)))
  | none => .ok { p with absent := p.absent ++ [path] }

/-- The pass with the errors of the terminal at `path`. -/
def note (p : Pass) (path : Path) (r : Resolution) : Pass :=
  { p with errors := p.errors ++ r.errors.map fun e => e.within path }

/-- Takes away what is at the given paths. -/
def stripAll : List Path → Pass → Except Error Pass
  | [], p => .ok p
  | path :: rest, p =>
    match p.root with
    | none => .ok p
    | some current => do stripAll rest (← p.change current path .strip)

/-- The value of the working tree. -/
def snapshot (p : Pass) : Except Error (Option Value) :=
  match p.root with
  | none => .ok none
  | some root => Store.materialize p.draft.store root fun slot => slot

/-- The end of a pass: what is absent is taken out, from the last place to the first, unless the
pass was ended early. -/
def close (p : Pass) (stopped : Bool) : Except Error Resolution := do
  let p ← if stopped then pure p else stripAll (Path.sort p.absent).reverse p
  return ⟨← p.snapshot, p.errors⟩

section Run

variable {m : Type → Type} [Monad m] [MonadLiftT (Except Error) m]

/-- Resolves the terminal at `path` of the tree at `current`. -/
def resolveAt (p : Pass) (scope : Scope) (current : NodeId) (path : Path)
    (resolve : ResolverIn m) : m Resolution := do
  let frames ← p.framesAt current path
  resolve (scope.localize path frames)

/-- Resolves terminals in the given order. The answer tells whether one of them ended the pass. -/
def resolveAll (scope : Scope) : List (Path × ResolverIn m) → Pass → m (Pass × Bool)
  | [], p => pure (p, false)
  | (path, resolve) :: rest, p =>
    match p.root with
    | none => pure (p, false)
    | some current => do
      let r ← p.resolveAt scope current path resolve
      let p := p.note path r
      if r.stops scope then return (p, true)
      else resolveAll scope rest (← p.record current path r.value)

/-- A whole pass: the terminals in order, then its end. -/
def run (skeleton : Arena Slot) (root : NodeId) (terminals : List (Path × ResolverIn m)) :
    ResolverIn m := fun scope => do
  let (p, stopped) ← resolveAll scope terminals (start skeleton root)
  p.close stopped

/-- What resolving terminals begins with. -/
theorem resolveAll_step {scope : Scope} {path : Path} {resolve : ResolverIn m}
    {rest : List (Path × ResolverIn m)} {p : Pass} {current : NodeId}
    (hroot : p.root = some current) : resolveAll scope ((path, resolve) :: rest) p =
      p.resolveAt scope current path resolve >>= fun r =>
        if r.stops scope then pure (p.note path r, true)
        else liftM ((p.note path r).record current path r.value) >>= fun q =>
          resolveAll scope rest q := by
  rw [resolveAll, hroot]

end Run

theorem resolveAt_eq (p : Pass) (scope : Scope) (current : NodeId) (path : Path)
    (resolve : Resolver) : p.resolveAt scope current path resolve =
      match framesAlong p.draft.store current path [] with
      | none => .error (.invalidPath path.text)
      | some frames => resolve (scope.localize path frames) := by
  unfold resolveAt framesAt
  cases framesAlong p.draft.store current path [] <;> rfl

theorem resolveAll_cons {scope : Scope} {path : Path} {resolve : Resolver}
    {rest : List (Path × Resolver)} {p : Pass} {current : NodeId} (hroot : p.root = some current) :
    resolveAll scope ((path, resolve) :: rest) p =
      (p.resolveAt scope current path resolve).bind fun r =>
        if r.stops scope then .ok (p.note path r, true)
        else ((p.note path r).record current path r.value).bind fun q =>
          resolveAll scope rest q :=
  resolveAll_step hroot

/-- A whole pass is its terminals and its end. -/
theorem run_eq (skeleton : Arena Slot) (root : NodeId) (terminals : List (Path × Resolver))
    (scope : Scope) : run skeleton root terminals scope =
      (resolveAll scope terminals (start skeleton root)).bind fun out => out.1.close out.2 := rfl

end Pass

end ValueResolution
