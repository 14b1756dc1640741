import ValueResolution.Settings.Sources
import ValueResolution.Toml.Document
/-!
# Settings in TOML

Documents of settings are written in TOML.
-/

set_option autoImplicit false

namespace ValueResolution

/-- The settings a file holds. -/
def Settings.File.layers (f : File) : Except Error (List Layer) := f.layersWith Toml.Document.read?

namespace Preferences

/-- Reads preferences from a document. -/
def ofDocument (text : String) : Except Settings.Error Preferences :=
  match (Toml.Document.read? text).bind ofTable? with
  | some prefs => .ok prefs
  | none => .error .unsuitable

/-- Loads preferences from sources, with documents in TOML. -/
def load (environment : Settings.Environment) (origins : List Settings.Origin) :
    Except Settings.Error Preferences :=
  loadWith Toml.Document.read? environment origins

end Preferences

end ValueResolution
