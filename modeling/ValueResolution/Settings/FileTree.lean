import ValueResolution.Fields
/-!
# Looking files up

A `FileTree` is a file or a directory of named trees. The name of a file is a list of parts with
slashes between them. `FileTree.find` follows the parts one by one, from the root if the name
begins with a slash and from an empty directory below the root if it does not.

Nothing is missing but what a directory does not have. A part that would lead through a file, a
part that is too long for the directory it is looked for in, and a name that is too long or holds
a null character cannot be read; neither can a directory.
-/

set_option autoImplicit false

namespace ValueResolution.Settings

/-- What is found under the name of a file. -/
inductive Contents where
  | missing
  /-- Something that is no file, or a name that no file can have. -/
  | unreadable
  | bytes (data : ByteArray)

/-- A file, or a directory. -/
inductive FileTree where
  | file (data : ByteArray)
  | directory (entries : List (String × FileTree))

/-- The entries of a directory. -/
abbrev Directory := Fields FileTree

namespace FileTree

/-- The greatest number of bytes in a part of a name. -/
def partLimit : Nat := 255

/-- The greatest number of bytes in a name. -/
def nameLimit : Nat := 4095

/-- Follows parts of a name from the directory `here`; `outer` are the directories around it,
innermost first. -/
def follow (outer : List Directory) (here : Directory) : List String → Contents
  | [] => .unreadable
  | part :: rest =>
    if part = "" || part = "." then follow outer here rest
    else if part = ".." then
      match outer with
      | [] => follow [] here rest
      | parent :: further => follow further parent rest
    else if partLimit < part.utf8ByteSize then .unreadable
    else
      match here.at? part with
      | none => .missing
      | some (.file data) => if rest.isEmpty then .bytes data else .unreadable
      | some (.directory inner) => follow (here :: outer) inner rest

/-- What is found under a name. -/
def find (root : Directory) (name : String) : Contents :=
  if name.isEmpty then .missing
  else if nameLimit < name.utf8ByteSize || name.toList.contains '\x00' then .unreadable
  else
    let parts := (name.toList.splitOn '/').map String.ofList
    if name.toList.head? = some '/' then follow [] root parts else follow [root] [] parts

end FileTree

end ValueResolution.Settings
