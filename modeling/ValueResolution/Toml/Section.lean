import ValueResolution.Toml.Basic
/-!
# Tables under construction

A document builds its tables from headers and from dotted keys, and a table may be written only
once. A `Section` is a table under construction: it is implicit as long as it was only passed
through, and dotted if it was made by a dotted key.

`Section.modifyAt` goes to the table at a path and makes the missing ones on its way; where an
array of tables stands, its last table is meant. A dotted key must not go through a table that was
written by a header. `Section.assign` writes a value under a dotted key, `Section.openTable` and
`Section.openItem` follow a header. `Part.toToml?` says what a part stands for once the document is
read to its end.
-/

set_option autoImplicit false

namespace ValueResolution.Toml

mutual

/-- What stands under a key of a table under construction. -/
inductive Part where
  /-- A value that holds no others. -/
  | value (v : Toml)
  | array (items : List Part)
  /-- A table that was written whole, to which nothing can be added. -/
  | inline (s : Section)
  | table (s : Section)
  /-- An array of tables, the last one first. -/
  | tables (last : Section) (before : List Section)

/-- A table under construction. -/
structure Section where
  implicit : Bool
  dotted : Bool
  entries : List (String × Part)

end

namespace Section

/-- A table that was written out. -/
def empty : Section := ⟨false, false, []⟩

/-- What stands under a key. -/
def part? (s : Section) (key : String) : Option Part := Fields.at? s.entries key

/-- The table with something else under a key. -/
def withPart (s : Section) (key : String) (p : Part) : Section :=
  { s with entries := Fields.put s.entries key p }

/-- Applies a change to the table at a path; `dotted` says whether the path is part of a dotted
key. -/
def modifyAt (dotted : Bool) (change : Section → Option Section) :
    List String → Section → Option Section
  | [], s => change s
  | key :: rest, s =>
    match s.part? key with
    | none =>
      (modifyAt dotted change rest ⟨true, dotted, []⟩).map fun t => s.withPart key (.table t)
    | some (.value _) => none
    | some (.array _) => none
    | some (.inline _) => none
    | some (.table t) =>
      if dotted && !t.implicit then none
      else (modifyAt dotted change rest t).map fun t => s.withPart key (.table t)
    | some (.tables last before) =>
      (modifyAt dotted change rest last).map fun t => s.withPart key (.tables t before)

/-- Writes a part under a key that is still free. A dotted key must end in a table that dotted
keys made, any other in one that they did not make. -/
def write (throughDots : Bool) (key : String) (p : Part) (s : Section) : Option Section :=
  if s.dotted != throughDots || (s.part? key).isSome then none else some (s.withPart key p)

/-- Writes a part under a dotted key: tables, then its last name. -/
def assign (tables : List String) (key : String) (p : Part) (s : Section) : Option Section :=
  modifyAt true (write (!tables.isEmpty) key p) tables s

/-- The table with something else under a key, which goes to the end. -/
def withPartLast (s : Section) (key : String) (p : Part) : Section :=
  { s with entries := Fields.remove s.entries key ++ [(key, p)] }

/-- Follows the header of a table, which must be free or passed through by headers only. Its place
among the entries is that of the header. -/
def openTable (tables : List String) (key : String) (s : Section) : Option Section :=
  modifyAt false
    (fun parent =>
      match parent.part? key with
      | none => some (parent.withPart key (.table empty))
      | some (.table t) =>
        if t.implicit && !t.dotted then
          some (parent.withPartLast key (.table { t with implicit := false }))
        else none
      | some _ => none)
    tables s

/-- Follows the header of an item in an array of tables. -/
def openItem (tables : List String) (key : String) (s : Section) : Option Section :=
  modifyAt false
    (fun parent =>
      match parent.part? key with
      | none => some (parent.withPart key (.tables empty []))
      | some (.tables last before) => some (parent.withPart key (.tables empty (last :: before)))
      | some _ => none)
    tables s

end Section

/-! ## Finished tables

A table whose first key is `Datetime.key` stands for the date-time that the text under this key
spells, and whatever else it holds plays no part. The table of the whole document is a table
whatever its keys are. -/

/-- The key of a table that stands for a date-time. -/
def Datetime.key : String := "$__toml_private_datetime"

/-- The date-time whose text a part is. -/
def Part.datetime? : Part → Option Toml
  | .value (.string s) => (Datetime.ofText? s).map .datetime
  | _ => none

mutual

/-- What a part stands for. -/
def Part.toToml? (p : Part) : Option Toml :=
  match p with
  | .value v => some v
  | .array items => (itemsOf? items).map .array
  | .inline s => s.toToml?
  | .table s => s.toToml?
  | .tables last before =>
    match tablesOf? before, last.toToml? with
    | some vs, some v => some (.array (v :: vs).reverse)
    | _, _ => none
termination_by structural p

/-- What a table stands for. -/
def Section.toToml? (s : Section) : Option Toml :=
  match s with
  | ⟨_, _, entries⟩ => tomlOf? entries
termination_by structural s

/-- What a table with the given entries stands for. -/
def tomlOf? (entries : List (String × Part)) : Option Toml :=
  match entries with
  | [] => some (.table [])
  | (key, p) :: rest =>
    if key = Datetime.key then p.datetime?
    else
      match p.toToml?, entriesOf? rest with
      | some v, some vs => some (.table (Table.ofEntries ((key, v) :: vs)))
      | _, _ => none
termination_by structural entries

/-- The entries with what their parts stand for. -/
def entriesOf? (entries : List (String × Part)) : Option (List (String × Toml)) :=
  match entries with
  | [] => some []
  | (key, p) :: rest =>
    match p.toToml?, entriesOf? rest with
    | some v, some vs => some ((key, v) :: vs)
    | _, _ => none
termination_by structural entries

/-- What the items of an array stand for. -/
def itemsOf? (items : List Part) : Option (List Toml) :=
  match items with
  | [] => some []
  | p :: rest =>
    match p.toToml?, itemsOf? rest with
    | some v, some vs => some (v :: vs)
    | _, _ => none
termination_by structural items

/-- What the tables of an array stand for. -/
def tablesOf? (ss : List Section) : Option (List Toml) :=
  match ss with
  | [] => some []
  | s :: rest =>
    match s.toToml?, tablesOf? rest with
    | some v, some vs => some (v :: vs)
    | _, _ => none
termination_by structural ss

end

/-- The finished table of a whole document. -/
def Section.toTable? (s : Section) : Option Table := (entriesOf? s.entries).map Table.ofEntries

end ValueResolution.Toml
