import ValueResolution.Binary64
import ValueResolution.Fields
import ValueResolution.Toml.Datetime
/-!
# TOML values

The values of a TOML document. The entries of a table are in ascending order of their keys, so
that two tables with the same entries are equal; `Table.insert` keeps them so.
-/

set_option autoImplicit false

namespace ValueResolution

/-- A value of a TOML document. -/
inductive Toml where
  | string (s : String)
  | integer (n : Int)
  | float (x : Binary64)
  | boolean (b : Bool)
  | datetime (d : Toml.Datetime)
  | array (items : List Toml)
  | table (entries : List (String × Toml))

namespace Toml

/-- The entries of a table. -/
abbrev Table := Fields Toml

namespace Table

/-- Writes an entry, in the place of one with the same key if there is one. -/
def insert (t : Table) (key : String) (v : Toml) : Table :=
  match t with
  | [] => [(key, v)]
  | (other, w) :: rest =>
    if key < other then (key, v) :: (other, w) :: rest
    else if key = other then (key, v) :: rest
    else (other, w) :: insert rest key v

/-- The table with the given entries; of entries with one key the last counts. -/
def ofEntries (entries : List (String × Toml)) : Table :=
  entries.foldl (fun t e => insert t e.1 e.2) []

theorem at?_insert (t : Table) (key : String) (v : Toml) (other : String) :
    Fields.at? (insert t key v) other = if key = other then some v else Fields.at? t other := by
  induction t with
  | nil => rfl
  | cons e rest ih =>
    obtain ⟨k, w⟩ := e
    simp only [insert]
    split
    · rfl
    · split
      · rename_i hk
        subst hk
        by_cases ho : key = other <;> simp [Fields.at?, ho]
      · rename_i hk
        by_cases ho : k = other
        · subst ho
          simp [Fields.at?, hk]
        · simp [Fields.at?, ho, ih]

end Table

end Toml

end ValueResolution
