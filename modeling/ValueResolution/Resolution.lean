import ValueResolution.Settings.Error
import ValueResolution.Value
/-!
# Resolutions and errors

Resolving gives a `Resolution`: a value, or none, together with the validation errors met on the
way. A `ValidationError` carries the path at which it arose, relative to the node that reported it
until an enclosing node puts its own path in front (`ValidationError.within`).

`Error` is for what is wrong with the trees themselves, and for the refusal of a whole call whose
resolution has errors.
-/

set_option autoImplicit false

namespace ValueResolution

/-- A failed check. -/
structure ValidationError where
  path : Path := []
  code : String
  message : String
deriving DecidableEq

namespace ValidationError

/-- The error as seen from the node that has the reporting one at `place`. -/
def within (e : ValidationError) (place : Path) : ValidationError :=
  { e with path := place ++ e.path }

/-- The message with its code, after the quoted path if there is one. -/
def text (e : ValidationError) : String :=
  let report := e.message ++ " [" ++ e.code ++ "]"
  if e.path.isEmpty then report else "'" ++ e.path.text ++ "': " ++ report

theorem within_append (e : ValidationError) (p q : Path) :
    (e.within q).within p = e.within (p ++ q) := by
  simp [within]

/-- The texts of several errors on one line. -/
def textOfList (errors : List ValidationError) : String :=
  String.intercalate "; " (errors.map text)

end ValidationError

/-- A value, or none, and the errors met in producing it. -/
structure Resolution where
  value : Option Value := none
  errors : List ValidationError := []

namespace Resolution

/-- A value without errors. -/
def ofValue (v : Value) : Resolution := ⟨some v, []⟩

/-- No value and no errors. -/
def undefined : Resolution := ⟨none, []⟩

/-- No value, for one reason. -/
def failed (e : ValidationError) : Resolution := ⟨none, [e]⟩

/-- What a look-up found, or why it failed. -/
def ofLookup : Except ValidationError (Option Value) → Resolution
  | .ok value => ⟨value, []⟩
  | .error e => failed e

/-- Whether there are no errors. -/
def isOk (r : Resolution) : Bool := r.errors.isEmpty

/-- The value, or the errors if there are any. -/
def toExcept (r : Resolution) : Except (List ValidationError) (Option Value) :=
  if r.isOk then .ok r.value else .error r.errors

end Resolution

/-- Why a tree cannot be built, updated or read, or why a call was refused. -/
inductive Error where
  /-- Preferences could not be loaded. -/
  | configuration (e : Settings.Error)
  /-- The named item depends on itself through others. -/
  | dependencyCycle (key : String)
  /-- The path leads nowhere in the tree it was applied to. -/
  | invalidPath (path : String)
  /-- A container was reached again through itself. -/
  | cyclicValue (path : String)
  /-- The resolution has errors. -/
  | validation (errors : List ValidationError)
deriving DecidableEq

/-- The wording of an error. -/
def Error.message : Error → String
  | configuration e => "configuration error: " ++ e.message
  | dependencyCycle key => "dependency cycle detected at '" ++ key ++ "'"
  | invalidPath path => "invalid path '" ++ path ++ "'"
  | cyclicValue path => "cyclic value at '" ++ path ++ "' cannot be materialized"
  | validation errors => "validation failed: " ++ ValidationError.textOfList errors

end ValueResolution
