/-!
# Ordered fields

`Fields α` is a mapping from names to `α` that remembers the order in which its names came.
Writing a name that is present keeps its place (`Fields.put`), a new name goes to the end, and
removing one closes the gap (`Fields.remove`).

A look-up after a write or a removal is given by `Fields.at?_put` and `Fields.at?_remove`; the
names after a write by `Fields.names_put`. `Fields.Distinct` says that no name occurs twice, which
every list built by `Fields.ofEntries` satisfies.
-/

set_option autoImplicit false

namespace ValueResolution

universe u

/-- Named entries in order. -/
abbrev Fields (α : Type u) := List (String × α)

namespace Fields

variable {α : Type u}

/-- The names in order. -/
def names (fs : Fields α) : List String := fs.map Prod.fst

/-- The entry of the first field called `name`. -/
def at? : Fields α → String → Option α
  | [], _ => none
  | (other, a) :: rest, name => if other = name then some a else at? rest name

/-- Replaces the entry called `name` in its place, or adds one at the end. -/
def put : Fields α → String → α → Fields α
  | [], name, a => [(name, a)]
  | (other, b) :: rest, name, a =>
    if other = name then (other, a) :: rest else (other, b) :: put rest name a

/-- Removes the field called `name`; the others keep their order. -/
def remove : Fields α → String → Fields α
  | [], _ => []
  | (other, b) :: rest, name => if other = name then rest else (other, b) :: remove rest name

/-- Fields from entries in which names may repeat: a name keeps its first place and takes its last
entry. -/
def ofEntries (entries : List (String × α)) : Fields α :=
  entries.foldl (fun fs e => fs.put e.1 e.2) []

/-- No name occurs twice. -/
def Distinct (fs : Fields α) : Prop := fs.names.Nodup

theorem at?_put (fs : Fields α) (name : String) (a : α) (other : String) :
    (fs.put name a).at? other = if name = other then some a else fs.at? other := by
  induction fs with
  | nil => rfl
  | cons e rest ih =>
    obtain ⟨k, b⟩ := e
    by_cases hk : k = name
    · subst hk
      by_cases ho : k = other <;> simp [put, at?, ho]
    · by_cases ho : k = other
      · subst ho
        simp [put, at?, hk, Ne.symm hk]
      · simp [put, at?, hk, ho, ih]

theorem at?_remove_of_ne (fs : Fields α) {name other : String} (h : name ≠ other) :
    (fs.remove name).at? other = fs.at? other := by
  induction fs with
  | nil => rfl
  | cons e rest ih =>
    obtain ⟨k, b⟩ := e
    by_cases hk : k = name
    · subst hk
      simp [remove, at?, h]
    · by_cases ho : k = other
      · subst ho
        simp [remove, at?, Ne.symm h]
      · simp [remove, at?, hk, ho, ih]

theorem at?_eq_none_iff (fs : Fields α) (name : String) :
    fs.at? name = none ↔ name ∉ fs.names := by
  induction fs with
  | nil => simp [at?, names]
  | cons e rest ih =>
    obtain ⟨k, b⟩ := e
    by_cases hk : k = name
    · subst hk
      simp [at?, names]
    · simp [at?, names, hk, Ne.symm hk] at ih ⊢
      exact ih

theorem names_put (fs : Fields α) (name : String) (a : α) :
    (fs.put name a).names = if name ∈ fs.names then fs.names else fs.names ++ [name] := by
  induction fs with
  | nil => rfl
  | cons e rest ih =>
    obtain ⟨k, b⟩ := e
    by_cases hk : k = name
    · subst hk
      simp [put, names]
    · simp only [put, if_neg hk, names, List.map_cons, List.mem_cons, Ne.symm hk, false_or] at ih ⊢
      split <;> simp_all

theorem Distinct.put {fs : Fields α} (h : fs.Distinct) (name : String) (a : α) :
    (fs.put name a).Distinct := by
  unfold Distinct at *
  rw [names_put]
  split
  · exact h
  · rename_i hm
    rw [List.nodup_append]
    exact ⟨h, by simp, by simpa using fun x hx (e : x = name) => hm (e ▸ hx)⟩

theorem distinct_ofEntries (entries : List (String × α)) : (ofEntries entries).Distinct := by
  suffices ∀ (fs : Fields α), fs.Distinct →
      (entries.foldl (fun fs e => fs.put e.1 e.2) fs).Distinct by
    exact this [] List.nodup_nil
  induction entries with
  | nil => exact fun _ h => h
  | cons e rest ih => exact fun fs h => ih _ (h.put e.1 e.2)

end Fields

end ValueResolution
