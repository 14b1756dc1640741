import ValueResolution.Preferences
import ValueResolution.Reference
import ValueResolution.Store.Materialize
/-!
# Scopes

A scope is the surrounding in which a node of a value tree is resolved: the input of the call, the
value under validation, the containers around the node, its full path, the labels of the nested
validations it sits in, and the preferences.

The containers are `Frame`s: places in the working tree of a resolution, in which every leaf is a
`Slot` that holds a value, or none as long as it is not resolved. `Frame.read` follows a path from
a container; it goes on inside the value of a slot and leaves empty slots out of what it builds.

`Scope.lookUp` resolves a reference. A target that is missing is undefined; only an anchor beyond
the containers of the scope, or a target that contains itself, is an error.
-/

set_option autoImplicit false

namespace ValueResolution

/-- What a leaf of a working tree holds: a value, or nothing yet. -/
abbrev Slot := Option Value

/-- A container of a working tree. -/
structure Frame where
  store : Overlay Slot
  id : NodeId

namespace Frame

/-- Follows a path from the entry `id`. -/
def follow (store : Overlay Slot) (id : NodeId) : Path → Except Error (Option Value)
  | [] => Store.materialize store id fun slot => slot
  | key :: rest =>
    match Store.get? store id with
    | none => .ok none
    | some (.leaf slot) => .ok (slot.bind fun v => v.reach (key :: rest))
    | some e =>
      match e.child? key with
      | none => .ok none
      | some child => follow store child rest

/-- The value at a path below the container. -/
def read (f : Frame) (path : Path) : Except Error (Option Value) := follow f.store f.id path

end Frame

/-- The surrounding of a node. -/
structure Scope where
  /-- The input of the call. -/
  input : Value
  /-- The value a schema without a source of its own validates. -/
  subject : Option Value
  /-- The containers around the node, innermost first. -/
  frames : List Frame := []
  path : Path := []
  /-- The labels of the nested validations, outermost first. -/
  context : List String := []
  prefs : Preferences

namespace Scope

/-- The scope of a whole call: the input is what is validated. -/
def ofInput (input : Value) (prefs : Preferences) : Scope where
  input := input
  subject := some input
  prefs := prefs

/-- The last key of the path. -/
def key? (s : Scope) : Option Key := s.path.getLast?

/-- The scope of a node further inside: `path` leads to it through the containers `frames`,
innermost first. -/
def localize (s : Scope) (path : Path) (frames : List Frame) : Scope :=
  { s with frames := frames ++ s.frames, path := s.path ++ path }

/-- The scope of a labelled validation of another value at the same place. -/
def nest (s : Scope) (label : String) (subject : Option Value) : Scope :=
  { s with subject := subject, context := s.context ++ [label] }

/-- The container at which an anchor starts: counted upward from the innermost, which is one, or
downward from the outermost, which is zero. -/
def frame? (s : Scope) : Anchor → Option Frame
  | .root => none
  | .relative 0 => none
  | .relative (up + 1) => s.frames[up]?
  | .level depth =>
    if depth < s.frames.length then s.frames[s.frames.length - (depth + 1)]? else none

/-- The value a reference leads to. -/
def lookUp (s : Scope) (r : Reference) : Except ValidationError (Option Value) :=
  match r.anchor with
  | .root => .ok (s.input.reach r.path)
  | anchor =>
    match s.frame? anchor with
    | none => .error
        { code := "ref.ancestor"
          message := "reference '" ++ r.text ++ "' points past the outermost ancestor" }
    | some frame =>
      match frame.read r.path with
      | .ok value => .ok value
      | .error e => .error
          { code := "ref.unresolvable"
            message := "reference '" ++ r.text ++ "' cannot be read: " ++ e.message }

end Scope

/-- A formula over the values of references. -/
structure Expression where
  label : String
  references : List Reference
  /-- Computes the value from the referenced ones, or says why there is none. -/
  formula : List (Option Value) → Except String (Option Value)

/-- Looks the references up in order, then applies the formula. -/
def Expression.evaluate (x : Expression) (s : Scope) : Except ValidationError (Option Value) :=
  match x.references.mapM s.lookUp with
  | .error e => .error e
  | .ok arguments =>
    match x.formula arguments with
    | .ok value => .ok value
    | .error reason => .error
        { code := "expression.eval"
          message := "expression '" ++ x.label ++ "' failed: " ++ reason }

end ValueResolution
