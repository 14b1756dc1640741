import ValueResolution.Toml.Basic
/-!
# Layers of settings

A layer is a value with the path at which it goes into a table. Merging a layer makes the tables
on its path, in place of any other value; at its end two tables are merged entry by entry, and any
other value replaces what was there. A layer without a path is a whole document; a value that is
no table has no place there and is passed over.
-/

set_option autoImplicit false

namespace ValueResolution.Settings

open Toml (Table)

/-- A value and the place it goes to. -/
structure Layer where
  path : List String := []
  value : Toml

mutual

/-- What stands at a place after `v` was merged into it: tables add up, other values replace. -/
def overlay (below : Option Toml) (v : Toml) : Toml :=
  match v with
  | .table entries =>
    match below with
    | some (.table base) => .table (mergeTable base entries)
    | _ => .table entries
  | .string s => .string s
  | .integer n => .integer n
  | .float x => .float x
  | .boolean b => .boolean b
  | .datetime d => .datetime d
  | .array items => .array items
termination_by structural v

/-- Merges entries into a table, one after the other. -/
def mergeTable (base : Table) (entries : List (String × Toml)) : Table :=
  match entries with
  | [] => base
  | (key, v) :: rest =>
    mergeTable (Table.insert base key (overlay (Fields.at? base key) v)) rest
termination_by structural entries

end

/-- The entries of a table, or none if the place is empty or holds another value. -/
def tableAt (t : Table) (key : String) : Table :=
  match Fields.at? t key with
  | some (.table nested) => nested
  | _ => []

/-- Merges a value into a table at a path. -/
def mergeAt (t : Table) (path : List String) (v : Toml) : Table :=
  match path with
  | [] =>
    match v with
    | .table entries => mergeTable t entries
    | _ => t
  | [key] => Table.insert t key (overlay (Fields.at? t key) v)
  | key :: next :: rest => Table.insert t key (.table (mergeAt (tableAt t key) (next :: rest) v))

/-- Merges layers into a table, later ones over earlier ones. -/
def mergeLayers (t : Table) (layers : List Layer) : Table :=
  layers.foldl (fun t layer => mergeAt t layer.path layer.value) t

end ValueResolution.Settings
