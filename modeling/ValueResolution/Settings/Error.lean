/-!
# Errors of settings

Why preferences cannot be loaded.
-/

set_option autoImplicit false

namespace ValueResolution.Settings

/-- Why a source of settings, or what the sources add up to, is refused. -/
inductive Error where
  /-- A file that has to be there is missing. -/
  | fileNotFound (path : String)
  /-- The file is there, but its text cannot be had. -/
  | unreadable (path : String)
  /-- The text of the file is no document. -/
  | malformed (path : String)
  /-- The settings are not those of preferences. -/
  | unsuitable
  /-- A separator of variable names has to have a character. -/
  | emptySeparator
deriving DecidableEq

/-- The wording of an error, without the reasons that others give. -/
def Error.message : Error → String
  | fileNotFound path => "required preferences file not found: " ++ path
  | unreadable path => "failed to read preferences file '" ++ path ++ "'"
  | malformed path => "failed to parse preferences file '" ++ path ++ "'"
  | unsuitable => "invalid preferences"
  | emptySeparator => "environment separator must not be empty"

end ValueResolution.Settings
