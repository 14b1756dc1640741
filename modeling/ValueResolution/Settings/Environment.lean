import ValueResolution.Settings.Error
import ValueResolution.Settings.Layer
import ValueResolution.Text.Decimal
import ValueResolution.Text.Lowercase
/-!
# Settings from the environment

A variable carries a setting if its name begins with a given name and a separator. The rest of its
name, cut at every further separator and in lower case, is the path of the setting; a name without
a rest carries none.

The text of a variable is read as a boolean in any letter case, as a whole number if it has digits
only, with at most a minus sign, and fits 64 bits, and as a floating number if it has a point and
spells one. All other texts stay texts.
-/

set_option autoImplicit false

namespace ValueResolution.Settings

/-- Variables with their texts. -/
abbrev Environment := List (String × String)

/-- The value that the text of a variable stands for. -/
def valueOfText (text : String) : Toml :=
  let cs := text.toList
  let word := String.ofList (cs.map Char.toLower)
  if word = "true" then .boolean true
  else if word = "false" then .boolean false
  else
    match Text.signed? cs with
    | some n => .integer n
    | none =>
      match if cs.contains '.' then Text.float? cs else none with
      | some x => .float x
      | none => .string text

/-- Cuts a text at every separator, from left to right. The characters of the current piece are
kept last first; `skip` counts the characters of a separator that are still to be passed over. -/
def cutFrom (separator : List Char) (piece : List Char) (skip : Nat) :
    List Char → List (List Char)
  | [] => [piece.reverse]
  | c :: rest =>
    match skip with
    | skip + 1 => cutFrom separator piece skip rest
    | 0 =>
      if separator.isPrefixOf (c :: rest) then
        piece.reverse :: cutFrom separator [] (separator.length - 1) rest
      else cutFrom separator (c :: piece) 0 rest

/-- The pieces of a text between separators. -/
def cut (separator text : List Char) : List (List Char) := cutFrom separator [] 0 text

/-- Variables that begin with a name and a separator. -/
structure Variables where
  name : String
  separator : String
deriving DecidableEq

namespace Variables

/-- The path of the setting that the variable of a name carries, if it carries one. -/
def path? (v : Variables) (name : String) : Option (List String) :=
  let start := v.name.toList ++ v.separator.toList
  if start.isPrefixOf name.toList then
    match name.toList.drop start.length with
    | [] => none
    | rest => some ((cut v.separator.toList rest).map fun piece =>
        Text.lowercase (String.ofList piece))
  else none

/-- The settings that an environment carries. -/
def layers (v : Variables) (environment : Environment) : Except Error (List Layer) :=
  if v.separator.isEmpty then .error .emptySeparator
  else .ok (environment.filterMap fun (name, text) =>
    (v.path? name).map fun path => { path := path, value := valueOfText text })

end Variables

end ValueResolution.Settings
