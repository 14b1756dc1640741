import ValueResolution.Schema.Builder
/-!
# Tables of values

A mapping is a table from values to nodes. The first entry whose key equals the value applies. An
entry may instead be the fallback for all other values, either by a key that is no value at all or
by the text `$default`; of several the last one counts, and a key that is no value comes before
the text.
-/

set_option autoImplicit false

namespace ValueResolution

/-- The key of an entry of a table. -/
inductive MapKey where
  | value (v : Value)
  /-- All values that have no entry. -/
  | fallback

/-- A table from values to nodes. -/
abbrev Mapping := List (MapKey × Node)

namespace Mapping

/-- The text that marks the fallback among the values. -/
def defaultKey : String := "$default"

/-- Whether the key is the text that marks the fallback. -/
def isDefaultKey : MapKey → Bool
  | .value (.string s) => s == defaultKey
  | _ => false

/-- The case of an entry whose key is a value of its own. -/
def case? : MapKey × Node → Option Case
  | (.value v, node) =>
    if isDefaultKey (.value v) then none
    else some { matcher := .equals (.literal v), outcome := some node }
  | (.fallback, _) => none

/-- The last fallback whose key is no value. -/
def marked? (m : Mapping) : Option Node :=
  (m.filterMap fun
    | (.fallback, node) => some node
    | _ => none).getLast?

/-- The last fallback that is marked by its text. -/
def named? (m : Mapping) : Option Node :=
  (m.filterMap fun (key, node) => if isDefaultKey key then some node else none).getLast?

/-- The table as a conditional with equality cases. -/
def toWhen (m : Mapping) : When where
  cases := m.filterMap case?
  otherwise := (marked? m).or (named? m)

/-- A table whose keys are texts; a repeated key keeps its place and takes the last node. -/
def ofFields (entries : Fields Node) : Mapping :=
  (Fields.ofEntries entries).map fun (name, node) => (.value (.string name), node)

end Mapping

end ValueResolution
