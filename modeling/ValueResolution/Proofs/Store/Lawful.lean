import Mathlib.Tactic.SplitIfs
import ValueResolution.Store.Basic
/-!
# Laws of stores

`LawfulStore` collects what a store promises: ids count the entries, an added entry takes the next
id and leaves the others alone, a change touches one entry, and which entries can be changed does
not depend on what they hold. Arenas and overlays keep these promises.
-/

set_option autoImplicit false

namespace ValueResolution

open Store

/-- A store that behaves like a list of entries, some of which are frozen. -/
class LawfulStore (σ : Type) {α : outParam Type} [Store σ α] : Prop where
  get?_eq_none_iff : ∀ (s : σ) (id : Nat), get? s id = none ↔ size s ≤ id
  size_push : ∀ (s : σ) (e : Entry α), size (push s e) = size s + 1
  get?_push : ∀ (s : σ) (e : Entry α) (id : Nat),
    get? (push s e) id = if id = size s then some e else get? s id
  size_replace : ∀ {s s' : σ} {id : Nat} {e : Entry α},
    replace? s id e = some s' → size s' = size s
  get?_replace : ∀ {s s' : σ} {id : Nat} {e : Entry α}, replace? s id e = some s' →
    ∀ other : Nat, get? s' other = if other = id then some e else get? s other
  isSome_replace : ∀ (s : σ) (id : Nat) (e : Entry α),
    (replace? s id e).isSome = isWritable s id
  isWritable_push : ∀ (s : σ) (e : Entry α) (id : Nat),
    isWritable (push s e) id = (isWritable s id || decide (id = size s))
  isWritable_replace : ∀ {s s' : σ} {id : Nat} {e : Entry α}, replace? s id e = some s' →
    ∀ other : Nat, isWritable s' other = isWritable s other

/-- What is stored has an id below the size. -/
theorem Store.lt_size_of_get? {σ α : Type} [Store σ α] [LawfulStore σ] {s : σ} {id : Nat}
    {e : Entry α} (h : get? s id = some e) : id < size s := by
  refine Nat.lt_of_not_le fun hge => ?_
  rw [(LawfulStore.get?_eq_none_iff s id).2 hge] at h
  simp at h

/-- Every id below the size is that of an entry. -/
theorem Store.exists_get?_of_lt {σ α : Type} [Store σ α] [LawfulStore σ] {s : σ} {id : Nat}
    (h : id < size s) : ∃ e, get? s id = some e := by
  rw [← Option.ne_none_iff_exists', Ne, LawfulStore.get?_eq_none_iff, Nat.not_le]
  exact h

/-- The entry that is added. -/
theorem Store.get?_push_size {σ α : Type} [Store σ α] [LawfulStore σ] (s : σ) (e : Entry α) :
    get? (push s e) (size s) = some e := by
  rw [LawfulStore.get?_push, if_pos rfl]

/-- The entries before it. -/
theorem Store.get?_push_of_lt {σ α : Type} [Store σ α] [LawfulStore σ] {s : σ} {id : Nat}
    (h : id < size s) (e : Entry α) : get? (push s e) id = get? s id := by
  rw [LawfulStore.get?_push, if_neg (Nat.ne_of_lt h)]

namespace Arena

variable {α : Type}

theorem isWritable_eq (a : Arena α) (id : Nat) :
    isWritable a id = decide (id < a.entries.size) := by
  by_cases h : id < a.entries.size
  · simp [isWritable, get?, replace?, h]
  · simp [isWritable, get?, h]

instance : LawfulStore (Arena α) where
  get?_eq_none_iff a id := by simp [get?, size]
  size_push a e := by simp [size, push]
  get?_push a e id := by simp [get?, push, size, Array.getElem?_push]
  size_replace h := by
    simp only [replace?, Option.ite_none_right_eq_some, Option.some.injEq] at h
    obtain ⟨-, rfl⟩ := h
    simp [size]
  get?_replace h other := by
    simp only [replace?, Option.ite_none_right_eq_some, Option.some.injEq] at h
    obtain ⟨hlt, rfl⟩ := h
    simp only [get?, Array.getElem?_setIfInBounds, eq_comm]
    split_ifs <;> simp_all
  isSome_replace a id e := by
    rw [isWritable_eq]
    by_cases h : id < a.entries.size <;> simp [replace?, h]
  isWritable_push a e id := by
    rw [isWritable_eq, isWritable_eq]
    simp only [push, Array.size_push, size, Nat.lt_succ_iff_lt_or_eq, Bool.decide_or]
  isWritable_replace h other := by
    simp only [replace?, Option.ite_none_right_eq_some, Option.some.injEq] at h
    obtain ⟨-, rfl⟩ := h
    simp [isWritable_eq]

end Arena

namespace Overlay

variable {α : Type}

theorem size_eq (o : Overlay α) : size o = o.base.entries.size + o.fresh.size := rfl

/-- An id below the size of the base is looked up there, any other in the fresh entries. -/
theorem get?_eq (o : Overlay α) (id : Nat) : get? o id =
    if id < o.base.entries.size then o.base.entries[id]?
    else o.fresh[id - o.base.entries.size]? := rfl

/-- Fresh entries can be replaced, and those of the base cannot. -/
theorem replace?_eq (o : Overlay α) (id : Nat) (e : Entry α) : replace? o id e =
    if o.base.entries.size ≤ id ∧ id < size o then
      some { o with fresh := o.fresh.setIfInBounds (id - o.base.entries.size) e }
    else none := by
  have h : replace? o id e = if id < o.base.entries.size then none
    else if id - o.base.entries.size < o.fresh.size then
      some { o with fresh := o.fresh.setIfInBounds (id - o.base.entries.size) e }
    else none := rfl
  rw [h, size_eq]
  split_ifs <;> first | rfl | omega

theorem isWritable_eq (o : Overlay α) (id : Nat) :
    isWritable o id = decide (o.base.entries.size ≤ id ∧ id < size o) := by
  by_cases hw : o.base.entries.size ≤ id ∧ id < size o
  · have hlt : id - o.base.entries.size < o.fresh.size := by
      rw [size_eq] at hw
      omega
    simp [isWritable, get?_eq, replace?_eq, hw, Nat.not_lt.2 hw.1, hlt]
  · unfold isWritable
    split
    · simp [replace?_eq, hw]
    · simp [hw]

theorem replace?_eq_some {o o' : Overlay α} {id : Nat} {e : Entry α}
    (h : replace? o id e = some o') : o.base.entries.size ≤ id ∧ id < size o ∧
      o' = { o with fresh := o.fresh.setIfInBounds (id - o.base.entries.size) e } := by
  rw [replace?_eq, Option.ite_none_right_eq_some] at h
  exact ⟨h.1.1, h.1.2, (Option.some.inj h.2).symm⟩

instance : LawfulStore (Overlay α) where
  get?_eq_none_iff o id := by
    rw [get?_eq, size_eq]
    split_ifs with hb
    · rw [Array.getElem?_eq_none_iff]
      omega
    · rw [Array.getElem?_eq_none_iff]
      omega
  size_push o e := by
    rw [size_eq, size_eq, Nat.add_assoc]
    exact congrArg _ (Array.size_push ..)
  get?_push o e id := by
    rw [get?_eq, get?_eq, size_eq]
    simp only [push, Array.getElem?_push]
    split_ifs <;> first | rfl | omega
  size_replace h := by
    obtain ⟨-, -, rfl⟩ := replace?_eq_some h
    simp [size_eq]
  get?_replace {o _ id e} h other := by
    obtain ⟨hb, hs, rfl⟩ := replace?_eq_some h
    rw [size_eq] at hs
    rw [get?_eq, get?_eq]
    simp only [Array.getElem?_setIfInBounds]
    split_ifs <;> first | rfl | omega
  isSome_replace o id e := by
    rw [isWritable_eq, replace?_eq]
    split_ifs with h
    · simp [h]
    · simp [h]
  isWritable_push o e id := by
    rw [isWritable_eq, isWritable_eq, ← Bool.decide_or, decide_eq_decide, size_eq, size_eq]
    simp only [push, Array.size_push]
    omega
  isWritable_replace h other := by
    obtain ⟨-, -, rfl⟩ := replace?_eq_some h
    simp [isWritable_eq, size_eq]

end Overlay

end ValueResolution
