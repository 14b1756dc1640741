import Mathlib.Data.List.Pairwise
import ValueResolution.Settings.Layer
/-!
# Merging at a path

Merging a value at a path is merging the document that has the value under the keys of the path and
nothing else (`Settings.mergeAt_eq_mergeAt_nest`), whatever stands in the way. Both sides write one
top-level entry, and what they write depends on the entry that was there (`Settings.mergeAt_cons`).

So layers whose paths lead apart do not disturb each other (`Settings.mergeAt_comm`): where the
paths part, two different entries of one table are written, and entries of different keys can be
written in either order, since a table is kept in the order of its keys (`Toml.Table.insert_comm`).
A list of such layers can be merged in any order (`Settings.mergeLayers_perm`).
-/

set_option autoImplicit false

namespace ValueResolution

/-! ## Writing entries -/

namespace Toml.Table

variable {key other : String} (u v w : Toml) (rest t : Table)

theorem lt_cases (key other : String) : key < other ∨ key = other ∨ other < key := by
  by_cases hlt : key < other
  · exact .inl hlt
  · by_cases heq : other = key
    · exact .inr (.inl heq.symm)
    · exact .inr (.inr (Std.lt_of_le_of_ne (String.not_lt.1 hlt) heq))

theorem insert_cons_of_lt (h : key < other) :
    insert ((other, u) :: rest) key v = (key, v) :: (other, u) :: rest := if_pos h

theorem insert_cons_self : insert ((key, u) :: rest) key v = (key, v) :: rest := by
  rw [insert, if_neg (String.lt_irrefl key), if_pos rfl]

theorem insert_cons_of_gt (h : other < key) :
    insert ((other, u) :: rest) key v = (other, u) :: insert rest key v := by
  have hne : key ≠ other := fun heq => String.lt_irrefl key (heq ▸ h)
  simp [insert, String.lt_asymm h, hne]

/-- Of two values written under one key the later stays. -/
theorem insert_insert_self : insert (insert t key v) key w = insert t key w := by
  induction t with
  | nil => exact insert_cons_self v w []
  | cons e rest ih =>
    obtain ⟨k, u⟩ := e
    rcases lt_cases key k with hlt | rfl | hgt
    · rw [insert_cons_of_lt u v rest hlt, insert_cons_self, insert_cons_of_lt u w rest hlt]
    · rw [insert_cons_self, insert_cons_self, insert_cons_self]
    · rw [insert_cons_of_gt u v rest hgt, insert_cons_of_gt u w _ hgt, ih,
        insert_cons_of_gt u w rest hgt]

theorem insert_comm_of_lt (h : key < other) :
    insert (insert t key v) other w = insert (insert t other w) key v := by
  induction t with
  | nil =>
    calc insert [(key, v)] other w = [(key, v), (other, w)] := insert_cons_of_gt v w [] h
      _ = insert [(other, w)] key v := (insert_cons_of_lt w v [] h).symm
  | cons e rest ih =>
    obtain ⟨k, u⟩ := e
    rcases lt_cases key k with hlt | rfl | hgt
    · rw [insert_cons_of_lt u v rest hlt, insert_cons_of_gt v w _ h]
      -- The lesser key goes in front of whatever the other one does at `k`.
      rcases lt_cases other k with hok | rfl | hok
      · rw [insert_cons_of_lt u w rest hok, insert_cons_of_lt w v _ h]
      · rw [insert_cons_self, insert_cons_of_lt w v _ h]
      · rw [insert_cons_of_gt u w rest hok, insert_cons_of_lt u v _ hlt]
    · rw [insert_cons_self, insert_cons_of_gt v w rest h, insert_cons_of_gt u w rest h,
        insert_cons_self]
    · have hok := String.lt_trans hgt h
      rw [insert_cons_of_gt u v rest hgt, insert_cons_of_gt u w _ hok, ih,
        insert_cons_of_gt u w rest hok, insert_cons_of_gt u v _ hgt]

/-- Entries of different keys can be written in either order. -/
theorem insert_comm (h : key ≠ other) :
    insert (insert t key v) other w = insert (insert t other w) key v := by
  rcases lt_cases key other with hlt | heq | hgt
  · exact insert_comm_of_lt v w t hlt
  · exact absurd heq h
  · exact (insert_comm_of_lt w v t hgt).symm

theorem ofEntries_snoc (entries : List (String × Toml)) (e : String × Toml) :
    ofEntries (entries ++ [e]) = insert (ofEntries entries) e.1 e.2 := by
  rw [ofEntries, List.foldl_append]
  rfl

end Toml.Table

namespace Settings

open Toml (Table)

/-! ## Documents around a value -/

/-- The document that has a value under the keys of a path and nothing else. -/
def nest : List String → Toml → Toml
  | [], v => v
  | key :: rest, v => .table [(key, nest rest v)]

/-- In an empty place a value is what is merged into it. -/
theorem overlay_none (v : Toml) : overlay none v = v := by
  cases v <;> rfl

theorem mergeTable_singleton (base : Table) (key : String) (v : Toml) :
    mergeTable base [(key, v)] = Table.insert base key (overlay (Fields.at? base key) v) := rfl

theorem mergeTable_snoc (base : Table) (entries : List (String × Toml)) (e : String × Toml) :
    mergeTable base (entries ++ [e]) = mergeTable (mergeTable base entries) [e] := by
  induction entries generalizing base with
  | nil => rfl
  | cons first rest ih => exact ih _

/-- A document with one entry is merged into the table at its place, or into none. -/
theorem overlay_singleton (t : Table) (key next : String) (v : Toml) :
    overlay (Fields.at? t key) (.table [(next, v)]) =
      .table (Table.insert (tableAt t key) next (overlay (Fields.at? (tableAt t key) next) v)) := by
  have hempty : [(next, v)] = mergeTable [] [(next, v)] := by
    rw [mergeTable_singleton, Fields.at?, overlay_none, Table.insert]
  rw [← mergeTable_singleton, tableAt]
  cases Fields.at? t key with
  | none => exact congrArg Toml.table hempty
  | some w =>
    cases w with
    | table base => rfl
    | _ => exact congrArg Toml.table hempty

/-- Merging at a path writes the entry under its first key. -/
theorem mergeAt_cons (t : Table) (key : String) (rest : List String) (v : Toml) :
    mergeAt t (key :: rest) v =
      Table.insert t key (overlay (Fields.at? t key) (nest rest v)) := by
  induction rest generalizing t key with
  | nil => rfl
  | cons next rest ih => rw [mergeAt, ih, nest, overlay_singleton]

/-- Merging a value at a path is merging the document that has the value there. What is in the way,
tables or other values, is treated alike, and so are values that are tables themselves. -/
theorem mergeAt_eq_mergeAt_nest (t : Table) (key : String) (rest : List String) (v : Toml) :
    mergeAt t (key :: rest) v = mergeAt t [] (nest (key :: rest) v) := by
  rw [mergeAt_cons, nest, mergeAt, mergeTable_singleton]

/-- A table at the end of the path is merged with the one that is there, and a value in its way is
replaced. -/
example :
    let t : Table := [("a", .table [("b", .table [("c", .integer 1)])]), ("x", .integer 2)]
    let v : Toml := .table [("d", .boolean true)]
    mergeAt t ["a", "b"] v =
      [("a", .table [("b", .table [("c", .integer 1), ("d", .boolean true)])]), ("x", .integer 2)] ∧
    mergeAt t ["x", "y"] v =
      [("a", .table [("b", .table [("c", .integer 1)])]), ("x", .table [("y", v)])] := ⟨rfl, rfl⟩

/-! ## Paths that lead apart -/

/-- Neither path is a beginning of the other. -/
def Apart (p q : List String) : Prop := ¬ p <+: q ∧ ¬ q <+: p

theorem Apart.symm {p q : List String} (h : Apart p q) : Apart q p := ⟨h.2, h.1⟩

instance : Std.Symm Apart := ⟨fun _ _ => Apart.symm⟩

theorem apart_cons_iff {key : String} {p q : List String} :
    Apart (key :: p) (key :: q) ↔ Apart p q := by
  simp [Apart, List.cons_prefix_cons]

theorem Apart.ne_nil {p q : List String} (h : Apart p q) : p ≠ [] := by
  rintro rfl
  exact h.1 List.nil_prefix

/-- Merging at a path that goes on behind its first key makes a table of what is under this key. -/
theorem mergeAt_cons_of_ne_nil {rest : List String} (h : rest ≠ []) (t : Table) (key : String)
    (v : Toml) :
    mergeAt t (key :: rest) v = Table.insert t key (.table (mergeAt (tableAt t key) rest v)) := by
  obtain ⟨next, rest, rfl⟩ := List.exists_cons_of_ne_nil h
  rfl

theorem tableAt_insert_table (t : Table) (key : String) (nested : Table) :
    tableAt (Table.insert t key (.table nested)) key = nested := by
  rw [tableAt, Table.at?_insert, if_pos rfl]

/-- Values that go to paths apart can be merged in either order. -/
theorem mergeAt_comm {p q : List String} (h : Apart p q) (t : Table) (v w : Toml) :
    mergeAt (mergeAt t p v) q w = mergeAt (mergeAt t q w) p v := by
  induction p generalizing t q with
  | nil => exact absurd rfl h.ne_nil
  | cons key p ih =>
    obtain ⟨other, q, rfl⟩ := List.exists_cons_of_ne_nil h.symm.ne_nil
    by_cases hkey : key = other
    · -- The paths part further down, inside the table under the key that they share.
      subst hkey
      have h := apart_cons_iff.1 h
      simp only [mergeAt_cons_of_ne_nil h.ne_nil, mergeAt_cons_of_ne_nil h.symm.ne_nil,
        tableAt_insert_table, Table.insert_insert_self, ih h]
    · simp only [mergeAt_cons, Table.at?_insert, if_neg hkey, if_neg (Ne.symm hkey)]
      exact Table.insert_comm _ _ _ hkey

/-- Layers whose paths lead apart can be merged in any order. -/
theorem mergeLayers_perm {layers layers' : List Layer} (hperm : layers.Perm layers')
    (h : (layers.map Layer.path).Pairwise Apart) (t : Table) :
    mergeLayers t layers = mergeLayers t layers' := by
  refine hperm.foldl_eq' (fun l hl m hm t => ?_) t
  by_cases heq : l = m
  · rw [heq]
  · have hapart : Apart l.path m.path :=
      (List.pairwise_map.1 h).forall hl hm heq
    exact mergeAt_comm hapart t l.value m.value

end Settings

end ValueResolution
