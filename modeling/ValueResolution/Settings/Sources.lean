import ValueResolution.Preferences
import ValueResolution.Settings.Environment
import ValueResolution.Settings.File
/-!
# Preferences from sources

Preferences are the merged settings of several sources, later ones over earlier ones. The result
may hold the two switches only, each as a boolean; a switch that is not set keeps its default
(`Preferences.ofTable?`). The first source that fails decides.

The reader of documents is a parameter: nothing here depends on how a text is read.
-/

set_option autoImplicit false

namespace ValueResolution

namespace Settings

/-- Where settings come from. -/
inductive Origin where
  | file (f : File)
  | environment (v : Variables)
  | layers (ls : List Layer)

/-- The settings of one source. -/
def Origin.load (read : DocumentReader) (environment : Environment) :
    Origin → Except Error (List Layer)
  | .file f => f.layersWith read
  | .environment v => v.layers environment
  | .layers ls => .ok ls

/-- The settings of sources, merged in order. -/
def merge (read : DocumentReader) (environment : Environment) (t : Toml.Table) :
    List Origin → Except Error Toml.Table
  | [] => .ok t
  | o :: rest => do
    merge read environment (mergeLayers t (← o.load read environment)) rest

end Settings

namespace Preferences

/-- The names of the switches among the settings. -/
def abortEarlyKey : String := "abort_early"

def convertKey : String := "convert"

/-- A switch in a table: its value if it is set, else its default; none if it is no boolean. -/
def switch? (t : Toml.Table) (key : String) (default : Bool) : Option Bool :=
  match Fields.at? t key with
  | none => some default
  | some (.boolean b) => some b
  | some _ => none

/-- The preferences that a table sets, if it sets nothing else. -/
def ofTable? (t : Toml.Table) : Option Preferences := do
  let defaults : Preferences := {}
  let abortEarly ← switch? t abortEarlyKey defaults.abortEarly
  let convert ← switch? t convertKey defaults.convert
  if t.names.all fun name => name = abortEarlyKey || name = convertKey then
    return { abortEarly, convert }
  else none

/-- Loads preferences from sources. -/
def loadWith (read : Settings.DocumentReader) (environment : Settings.Environment)
    (origins : List Settings.Origin) : Except Settings.Error Preferences := do
  let t ← Settings.merge read environment [] origins
  match ofTable? t with
  | some prefs => return prefs
  | none => throw .unsuitable

end Preferences

end ValueResolution
