import ValueResolution.Settings.Error
import ValueResolution.Settings.FileTree
import ValueResolution.Settings.Layer
/-!
# Settings from a file

A file holds a document in UTF-8, and what a document means is a reader's business. A missing file
is an error only if it is required; else it contributes nothing.
-/

set_option autoImplicit false

namespace ValueResolution.Settings

/-- A file of settings. -/
structure File where
  path : String
  required : Bool
  contents : Contents

/-- A reader of documents: the table of a text, if it is a document. -/
abbrev DocumentReader := String → Option Toml.Table

/-- The settings a file holds, with its document read by `read`. -/
def File.layersWith (read : DocumentReader) (f : File) : Except Error (List Layer) :=
  match f.contents with
  | .missing => if f.required then .error (.fileNotFound f.path) else .ok []
  | .unreadable => .error (.unreadable f.path)
  | .bytes data =>
    match String.fromUTF8? data with
    | none => .error (.unreadable f.path)
    | some text =>
      match read text with
      | none => .error (.malformed f.path)
      | some table => .ok [{ value := .table table }]

end ValueResolution.Settings
