/-!
# Preferences

The two switches that every check and every resolution sees.
-/

set_option autoImplicit false

namespace ValueResolution

/-- `abortEarly` ends a resolution at its first failure; `convert` lets checks turn texts into the
values they ask for. -/
structure Preferences where
  abortEarly : Bool := false
  convert : Bool := true
deriving DecidableEq

end ValueResolution
