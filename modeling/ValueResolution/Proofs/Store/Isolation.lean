import Mathlib.Data.List.Count
import Mathlib.Tactic.SplitIfs
import ValueResolution.Proofs.Store.Lawful
import ValueResolution.Store.Draft
/-!
# What an update leaves alone

An update by copying only adds entries and writes copies. So whatever entries a store has, and
whatever ids count as copies, an entry that was there before and is no copy stays as it was, also
where the update fails (`Draft.Spares`).

The new tree shares what is beside the path: at every container that the path goes through
(`Store.way`), the container of the new tree has the same children as the old one, by id, the child
under the key of the path apart (`Draft.update_isolated`). This asks that the path goes through no
copy twice, since a copy is written in place, and writing it the second time would change what was
written the first time. A container that is no copy may be met as often as one likes; every time it
is copied anew.
-/

set_option autoImplicit false

namespace ValueResolution

open Store

namespace Entry

variable {α : Type}

/-- The children of `old` that are not under `key` are those of `new`, in a mapping under their
names and in a sequence at their positions. Where an item was taken out (`closing`), those behind it
have moved up by one. -/
def SharesBeside (closing : Bool) (old : Entry α) (key : Key) (new : Entry α) : Prop :=
  match old, new with
  | map children, map children' => ∀ name ≠ key.text, children'.at? name = children.at? name
  | seq items, seq items' => ∃ i, key.index? = some i ∧
      ∀ j ≠ i, items'[if closing ∧ i < j then j - 1 else j]? = items[j]?
  | _, _ => False

/-- A child that is written into a sequence stands between the items before and behind its
position, which may be the end. -/
theorem place?_seq_some {items : List NodeId} {key : Key} {id : NodeId} {new : Entry α}
    (h : (seq items).place? key (some id) = some new) : ∃ i, key.index? = some i ∧
      i ≤ items.length ∧ new = seq (items.take i ++ id :: items.drop (i + 1)) := by
  obtain ⟨i, hi, h⟩ := Option.bind_eq_some_iff.1 h
  by_cases hlt : i < items.length
  · rw [if_pos hlt] at h
    refine ⟨i, hi, Nat.le_of_lt hlt, ?_⟩
    rw [← Option.some.inj h, List.set_eq_take_append_cons_drop, if_pos hlt]
  · rw [if_neg hlt] at h
    obtain ⟨rfl, heq⟩ := Option.ite_none_right_eq_some.1 h
    refine ⟨_, hi, Nat.le_refl _, ?_⟩
    rw [← Option.some.inj heq, List.take_length, List.drop_of_length_le (Nat.le_succ _)]

/-- What is taken out of a sequence is one of its items. -/
theorem place?_seq_none {items : List NodeId} {key : Key} {new : Entry α}
    (h : (seq items).place? key none = some new) : ∃ i, key.index? = some i ∧
      i < items.length ∧ new = seq (items.eraseIdx i) := by
  obtain ⟨i, hi, h⟩ := Option.bind_eq_some_iff.1 h
  obtain ⟨hlt, h⟩ := Option.ite_none_right_eq_some.1 h
  exact ⟨i, hi, hlt, (Option.some.inj h).symm⟩

theorem place?_shares {old new : Entry α} {key : Key} {child : Option NodeId}
    (h : old.place? key child = some new) : old.SharesBeside child.isNone key new := by
  cases old with
  | leaf a => simp [place?] at h
  | map children =>
    cases child with
    | none =>
      obtain rfl := Option.some.inj h
      exact fun name hname => Fields.at?_remove_of_ne _ (Ne.symm hname)
    | some id =>
      obtain rfl := Option.some.inj h
      exact fun name hname => (Fields.at?_put _ _ _ _).trans (if_neg (Ne.symm hname))
  | seq items =>
    cases child with
    | none =>
      obtain ⟨i, hi, -, rfl⟩ := place?_seq_none h
      refine ⟨i, hi, fun j hj => ?_⟩
      by_cases hlt : i < j
      · obtain ⟨k, rfl⟩ := Nat.exists_eq_add_of_lt hlt
        simp [hlt, List.getElem?_eraseIdx_of_ge]
      · simp [hlt, List.getElem?_eraseIdx_of_lt (show j < i by omega)]
    | some id =>
      obtain ⟨i, hi, hle, rfl⟩ := place?_seq_some h
      refine ⟨i, hi, fun j hj => ?_⟩
      have hlen : (items.take i).length = i := List.length_take_of_le hle
      rcases Nat.lt_or_gt_of_ne hj with hj | hj
      · simp [List.getElem?_append_left (hlen.symm ▸ hj), hj]
      · obtain ⟨k, rfl⟩ := Nat.exists_eq_add_of_lt hj
        simp [List.getElem?_append_right (show (items.take i).length ≤ i + k + 1 by omega), hlen,
          show i + k + 1 - i = k + 1 by omega, Nat.add_right_comm]

/-- The key then leads to the child that was written. -/
theorem child?_place {old new : Entry α} {key : Key} {id : NodeId}
    (h : old.place? key (some id) = some new) : new.child? key = some id := by
  cases old with
  | leaf a => simp [place?] at h
  | map children =>
    obtain rfl := Option.some.inj h
    exact (Fields.at?_put _ _ _ _).trans (if_pos rfl)
  | seq items =>
    obtain ⟨i, hi, hle, rfl⟩ := place?_seq_some h
    have hlen : (items.take i).length = i := List.length_take_of_le hle
    simp [child?, hi, hlen]

end Entry

/-- Whether an update takes something away. -/
def Update.closes {α : Type} : Update α → Bool
  | put _ => false
  | strip => true

namespace Store

variable {σ α : Type} [Store σ α] {s s' : σ} {id : NodeId}

/-- The containers that a path goes through, each the one in which the next key is looked up. -/
def way (s : σ) : NodeId → Path → List NodeId
  | _, [] => []
  | id, key :: rest => id :: (child? s id key).elim [] fun child => way s child rest

theorem way_cons {child : NodeId} {key : Key} {rest : Path} (h : child? s id key = some child) :
    way s id (key :: rest) = id :: way s child rest := by
  rw [way, h]
  rfl

theorem child?_congr {id' : NodeId} (h : get? s' id' = get? s id) (key : Key) :
    child? s' id' key = child? s id key := by
  rw [child?, h, child?]

theorem way_congr {path : Path} (h : ∀ i ∈ way s id path, get? s' i = get? s i) :
    way s' id path = way s id path := by
  induction path generalizing id with
  | nil => rfl
  | cons key rest ih =>
    have hchild := child?_congr (h id List.mem_cons_self) key
    rw [way, way, hchild]
    cases hc : child? s id key with
    | none => rfl
    | some child =>
      rw [way_cons hc] at h
      exact congrArg _ (ih fun i hi => h i (List.mem_cons_of_mem _ hi))

/-- The way from a copy is the way from the entry that was copied, the first container apart. -/
theorem way_copy {copy : NodeId} {key : Key} {rest : Path} (hcopy : get? s' copy = get? s id)
    (h : ∀ i ∈ (way s id (key :: rest)).tail, get? s' i = get? s i) :
    way s' copy (key :: rest) = copy :: (way s id (key :: rest)).tail := by
  rw [way, child?_congr hcopy]
  cases hc : child? s id key with
  | none => simp [way, hc]
  | some child =>
    rw [way_cons hc, List.tail_cons] at h ⊢
    exact congrArg _ (way_congr h)

/-- At every step of the way from a copy there is the same entry as on the way from what was
copied. -/
theorem exists_of_way_copy {copy : NodeId} {key : Key} {rest : Path}
    (hcopy : get? s' copy = get? s id)
    (h : ∀ i ∈ (way s id (key :: rest)).tail, get? s' i = get? s i) {n : Nat} {j : NodeId}
    (hj : (way s' copy (key :: rest))[n]? = some j) :
    ∃ i, (way s id (key :: rest))[n]? = some i ∧ get? s' j = get? s i := by
  rw [way_copy hcopy h] at hj
  cases n with
  | zero =>
    obtain rfl := Option.some.inj hj
    exact ⟨id, rfl, hcopy⟩
  | succ n => exact ⟨j, hj, h j (List.mem_of_getElem? hj)⟩

variable [LawfulStore σ]

/-- Writing under a key of an entry changes that entry alone. -/
theorem place?_eq_some {parent : NodeId} {key : Key} {child : Option NodeId}
    (h : place? s parent key child = some s') : ∃ old new, get? s parent = some old ∧
      get? s' parent = some new ∧ old.SharesBeside child.isNone key new ∧
      (∀ id, child = some id → new.child? key = some id) ∧ size s' = size s ∧
      ∀ i ≠ parent, get? s' i = get? s i := by
  obtain ⟨old, hold, h⟩ := Option.bind_eq_some_iff.1 h
  obtain ⟨new, hnew, h⟩ := Option.bind_eq_some_iff.1 h
  refine ⟨old, new, hold, ?_, Entry.place?_shares hnew, ?_, LawfulStore.size_replace h,
    fun i hi => ?_⟩
  · rw [LawfulStore.get?_replace h, if_pos rfl]
  · rintro id rfl
    exact Entry.child?_place hnew
  · rw [LawfulStore.get?_replace h, if_neg hi]

end Store

namespace Draft

variable {σ α : Type} [Store σ α] {d₀ d d' : Draft σ}

/-! ## Entries that are no copies -/

/-- The draft has only added entries and written copies. -/
structure Spares (d₀ d : Draft σ) : Prop where
  grows : size d₀.store ≤ size d.store
  same : ∀ i < size d₀.store, i ∉ d₀.copies → get? d.store i = get? d₀.store i
  made : ∀ i ∈ d.copies, i ∈ d₀.copies ∨ size d₀.store ≤ i

/-- An entry that may be written: a copy, or one that was not there before. -/
def Free (d₀ : Draft σ) (i : NodeId) : Prop := i ∈ d₀.copies ∨ size d₀.store ≤ i

theorem Spares.refl (d : Draft σ) : Spares d d := ⟨Nat.le_refl _, fun _ _ _ => rfl, fun _ => Or.inl⟩

variable [LawfulStore σ]

theorem Spares.push (h : Spares d₀ d) (e : Entry α) {copies : List NodeId}
    (hmade : ∀ i ∈ copies, i ∈ d.copies ∨ i = size d.store) :
    Spares d₀ ⟨Store.push d.store e, copies⟩ where
  grows := by
    rw [LawfulStore.size_push]
    exact Nat.le_succ_of_le h.grows
  same i hi hout := by
    rw [get?_push_of_lt (Nat.lt_of_lt_of_le hi h.grows), h.same i hi hout]
  made i hi := by
    rcases hmade i hi with hi | rfl
    · exact h.made i hi
    · exact Or.inr h.grows

theorem Spares.stage (h : Spares d₀ d) (change : Update α) : Spares d₀ (d.stage change).1 := by
  cases change with
  | put e => exact h.push e fun _ => Or.inl
  | strip => exact h

theorem Spares.own (h : Spares d₀ d) (id : NodeId) :
    Spares d₀ (d.own id).1 ∧ Free d₀ (d.own id).2 := by
  by_cases hid : id ∈ d.copies
  · rw [Draft.own, if_pos hid]
    exact ⟨h, h.made id hid⟩
  · rw [Draft.own, if_neg hid]
    cases he : get? d.store id with
    | none => exact ⟨h, Or.inr (Nat.le_trans h.grows ((LawfulStore.get?_eq_none_iff _ _).1 he))⟩
    | some e => exact ⟨h.push e fun i hi => (List.mem_insert_iff.1 hi).symm, Or.inr h.grows⟩

theorem Spares.place (h : Spares d₀ d) {parent : NodeId} (hp : Free d₀ parent) {key : Key}
    {child : Option NodeId} {s : σ} (hs : place? d.store parent key child = some s) :
    Spares d₀ { d with store := s } := by
  obtain ⟨-, -, -, -, -, -, hsize, hrest⟩ := place?_eq_some hs
  refine ⟨hsize ▸ h.grows, fun i hi hout => ?_, h.made⟩
  have hne : i ≠ parent := by
    rintro rfl
    rcases hp with hin | hge
    · exact hout hin
    · exact Nat.not_le_of_lt hi hge
  exact (hrest i hne).trans (h.same i hi hout)

theorem Spares.descend (h : Spares d₀ d) {current : NodeId} (hc : Free d₀ current)
    (change : Update α) (path : Path) : Spares d₀ (d.descend current change path).1 := by
  induction path generalizing d current with
  | nil => exact h
  | cons key rest ih =>
    cases rest with
    | nil =>
      simp only [Draft.descend]
      cases hs : place? (d.stage change).1.store current key (d.stage change).2 with
      | none => exact h.stage change
      | some s => exact (h.stage change).place hc hs
    | cons next rest =>
      rw [Draft.descend]
      cases child? d.store current key with
      | none => exact h
      | some child =>
        obtain ⟨hown, hcopy⟩ := h.own child
        simp only
        cases hs : place? (d.own child).1.store current key (some (d.own child).2) with
        | none => exact hown
        | some s => exact ih (hown.place hc hs) hcopy

theorem update_spares (d : Draft σ) (root : NodeId) (path : Path) (change : Update α) :
    Spares d (d.update root path change).1 := by
  cases path with
  | nil => exact (Spares.refl d).stage change
  | cons key rest =>
    obtain ⟨hown, hcopy⟩ := (Spares.refl d).own root
    have hdescend := hown.descend hcopy change (key :: rest)
    simp only [update]
    generalize (d.own root).1.descend (d.own root).2 change (key :: rest) = outcome at hdescend ⊢
    obtain ⟨d', done⟩ := outcome
    cases done <;> exact hdescend

/-! ## Children beside the path -/

/-- What owning an entry gives: a copy of it, itself if it is one, and else a new one. -/
structure Owns (d : Draft σ) (id : NodeId) (d' : Draft σ) (copy : NodeId) : Prop where
  same : get? d'.store copy = get? d.store id
  frame : ∀ i < size d.store, get? d'.store i = get? d.store i
  grows : size d.store ≤ size d'.store
  stored : copy < size d'.store
  copied : copy ∈ d'.copies
  made : ∀ i ∈ d'.copies, i ∈ d.copies ∨ i = copy
  fresh : copy = id ∧ id ∈ d.copies ∨ copy = size d.store

theorem owns (d : Draft σ) {id : NodeId} (h : id < size d.store) :
    Owns d id (d.own id).1 (d.own id).2 := by
  by_cases hid : id ∈ d.copies
  · rw [own, if_pos hid]
    exact ⟨rfl, fun _ _ => rfl, Nat.le_refl _, h, hid, fun _ => Or.inl, Or.inl ⟨rfl, hid⟩⟩
  · rw [own, if_neg hid]
    cases he : get? d.store id with
    | none => exact absurd ((LawfulStore.get?_eq_none_iff _ _).1 he) (Nat.not_le_of_lt h)
    | some e =>
      have hsize := LawfulStore.size_push d.store e
      refine ⟨?_, fun i hi => ?_, hsize ▸ Nat.le_succ _, hsize ▸ Nat.lt_succ_self _,
        List.mem_insert_self, fun i hi => (List.mem_insert_iff.1 hi).symm, Or.inr rfl⟩
      · rw [get?_push_size, he]
      · rw [get?_push_of_lt hi]

omit [LawfulStore σ] in
/-- What was there before is the copy only if it was a copy already. -/
theorem Owns.ne {id copy i : NodeId} (h : Owns d id d' copy) (hi : i < size d.store)
    (hne : i ≠ id) : i ≠ copy := by
  rcases h.fresh with ⟨rfl, -⟩ | rfl
  · exact hne
  · exact Nat.ne_of_lt hi

omit [LawfulStore σ] in
theorem Owns.notMem_way {id copy i : NodeId} (h : Owns d id d' copy) (hi : i < size d.store)
    {s : σ} {key : Key} {rest : Path}
    (hway : way s copy (key :: rest) = copy :: (way d.store id (key :: rest)).tail)
    (hout : i ∉ way d.store id (key :: rest)) : i ∉ way s copy (key :: rest) := by
  have hne : i ≠ id := fun heq => hout (heq ▸ List.mem_cons_self)
  rw [hway, List.mem_cons, not_or]
  exact ⟨h.ne hi hne, fun hmem => hout (List.mem_of_mem_tail hmem)⟩

/-- A path through entries of the store that comes to no copy twice. An id without an entry would
come to be that of a copy that is made on the way. -/
structure Passable (d : Draft σ) (id : NodeId) (path : Path) : Prop where
  stored : ∀ i ∈ way d.store id path, i < size d.store
  once : ∀ i ∈ d.copies, (way d.store id path).count i ≤ 1

/-- At every container of the path, the new tree has the children beside the path by the ids that
they had. -/
def Shares (s : σ) (i : NodeId) (s' : σ) (i' : NodeId) (path : Path) (closing : Bool) : Prop :=
  ∀ n key, path[n]? = some key → ∃ j j' old new, (way s i path)[n]? = some j ∧
    (way s' i' path)[n]? = some j' ∧ get? s j = some old ∧ get? s' j' = some new ∧
    old.SharesBeside (closing && n + 1 == path.length) key new

omit [LawfulStore σ] in
/-- What a copy shares, the entry that was copied shares. -/
theorem Shares.of_copy {s s' s'' : σ} {id copy r : NodeId} {key : Key} {rest : Path}
    {closing : Bool} (hcopy : get? s' copy = get? s id)
    (hrest : ∀ i ∈ (way s id (key :: rest)).tail, get? s' i = get? s i)
    (h : Shares s' copy s'' r (key :: rest) closing) :
    Shares s id s'' r (key :: rest) closing := by
  intro n k hn
  obtain ⟨j, j', old, new, hj, hj', hold, hnew, hshares⟩ := h n k hn
  obtain ⟨i, hi, hget⟩ := exists_of_way_copy hcopy hrest hj
  exact ⟨i, j', old, new, hi, hj', hget ▸ hold, hnew, hshares⟩

omit [LawfulStore σ] in
theorem Shares.last {s s' : σ} {i i' : NodeId} {key : Key} {closing : Bool} {old new : Entry α}
    (hold : get? s i = some old) (hnew : get? s' i' = some new)
    (h : old.SharesBeside closing key new) : Shares s i s' i' [key] closing := by
  intro n k hn
  obtain ⟨rfl, rfl⟩ : n = 0 ∧ key = k := by
    cases n with
    | zero => simpa using hn
    | succ n => simp at hn
  exact ⟨i, i', old, new, rfl, rfl, hold, hnew, by simpa using h⟩

omit [LawfulStore σ] in
/-- Nothing is taken away above the end of the path. -/
theorem Shares.cons {s s' : σ} {i i' j j' : NodeId} {key next : Key} {rest : Path}
    {closing : Bool} {old new : Entry α} (hold : get? s i = some old)
    (hnew : get? s' i' = some new) (hbeside : old.SharesBeside false key new)
    (hj : child? s i key = some j) (hj' : child? s' i' key = some j')
    (h : Shares s j s' j' (next :: rest) closing) :
    Shares s i s' i' (key :: next :: rest) closing := by
  intro n k hn
  rw [way_cons hj, way_cons hj']
  cases n with
  | zero =>
    obtain rfl : key = k := by simpa using hn
    exact ⟨i, i', old, new, rfl, rfl, hold, hnew, by simpa using hbeside⟩
  | succ n =>
    obtain ⟨l, l', old', new', hl, hl', hold', hnew', hbeside'⟩ := h n k hn
    exact ⟨l, l', old', new', hl, hl', hold', hnew', by simpa using hbeside'⟩

theorem get?_stage (d : Draft σ) (change : Update α) {i : NodeId} (h : i < size d.store) :
    get? (d.stage change).1.store i = get? d.store i := by
  cases change with
  | put e => exact get?_push_of_lt h e
  | strip => rfl

omit [LawfulStore σ] in
theorem isNone_stage (d : Draft σ) (change : Update α) :
    (d.stage change).2.isNone = change.closes := by
  cases change <;> rfl

omit [LawfulStore σ] in
theorem Passable.below {current child : NodeId} {key : Key} {path : Path}
    (h : Passable d current (key :: path)) (hcur : current ∈ d.copies)
    (hc : child? d.store current key = some child) :
    current ∉ way d.store child path ∧ Passable d child path := by
  obtain ⟨hstored, honce⟩ := h
  rw [way_cons hc] at hstored honce
  refine ⟨fun hmem => ?_, fun i hi => hstored i (List.mem_cons_of_mem _ hi), fun i hi => ?_⟩
  · have hle := honce current hcur
    rw [List.count_cons_self] at hle
    exact absurd (List.count_pos_iff.2 hmem) (by omega)
  · exact Nat.le_trans (List.count_le_count_cons ..) (honce i hi)

omit [LawfulStore σ] in
/-- The way from a copy in a store where the entries on the way are the same. -/
theorem Passable.copy {id copy : NodeId} {key : Key} {rest : Path} {d₁ : Draft σ} {s : σ}
    (h : Passable d id (key :: rest)) (ho : Owns d id d₁ copy) (hsize : size s = size d₁.store)
    (hcopy : get? s copy = get? d.store id)
    (hrest : ∀ i ∈ (way d.store id (key :: rest)).tail, get? s i = get? d.store i) :
    way s copy (key :: rest) = copy :: (way d.store id (key :: rest)).tail ∧
      Passable ⟨s, d₁.copies⟩ copy (key :: rest) := by
  have hway := way_copy hcopy hrest
  have hsplit : way d.store id (key :: rest) = id :: (way d.store id (key :: rest)).tail := rfl
  obtain ⟨hstored, honce⟩ := h
  rw [hsplit] at hstored honce
  generalize (way d.store id (key :: rest)).tail = below at hway hstored honce
  obtain ⟨hid, hstored⟩ := List.forall_mem_cons.1 hstored
  have hout : copy ∉ below := fun hmem => by
    rcases ho.fresh with ⟨rfl, hin⟩ | rfl
    · have hle := honce copy hin
      rw [List.count_cons_self] at hle
      exact absurd (List.count_pos_iff.2 hmem) (by omega)
    · exact Nat.lt_irrefl _ (hstored _ hmem)
  refine ⟨hway, fun i hi => ?_, fun i hi => ?_⟩
  · rw [hway] at hi
    rcases List.mem_cons.1 hi with rfl | hi
    · exact hsize ▸ ho.stored
    · exact hsize ▸ Nat.lt_of_lt_of_le (hstored i hi) ho.grows
  · rw [hway]
    by_cases heq : i = copy
    · have hone : (copy :: below).count copy = 1 := by
        rw [List.count_cons_self, List.count_eq_zero.2 hout]
      rw [heq]
      exact Nat.le_of_eq hone
    · have hin := (ho.made i hi).resolve_right heq
      rw [List.count_cons_of_ne (Ne.symm heq)]
      exact Nat.le_trans (List.count_le_count_cons ..) (honce i hin)

/-- Carrying an update out below a copy changes the copies on its path, and keeps the children that
are beside it. -/
theorem descend_shares {current : NodeId} {path : Path} (h : Passable d current path)
    (hcur : current ∈ d.copies) {change : Update α}
    (hdone : (d.descend current change path).2 = true) :
    (∀ i < size d.store, i ∉ way d.store current path →
      get? (d.descend current change path).1.store i = get? d.store i) ∧
    Shares d.store current (d.descend current change path).1.store current path
      change.closes := by
  induction path generalizing d current with
  | nil => exact ⟨fun _ _ _ => rfl, fun n key hn => by simp at hn⟩
  | cons key rest ih =>
    have hlt : current < size d.store := h.stored current List.mem_cons_self
    cases rest with
    | nil =>
      simp only [descend] at hdone ⊢
      cases hs : place? (d.stage change).1.store current key (d.stage change).2 with
      | none => simp [hs] at hdone
      | some s =>
        obtain ⟨old, new, hold, hnew, hshares, -, -, hrest⟩ := place?_eq_some hs
        rw [get?_stage d change hlt] at hold
        refine ⟨fun i hi hout => ?_, .last hold hnew (isNone_stage d change ▸ hshares)⟩
        rw [hrest i fun heq => hout (heq ▸ List.mem_cons_self), get?_stage d change hi]
    | cons next rest =>
      rw [descend] at hdone ⊢
      cases hc : child? d.store current key with
      | none => simp [hc] at hdone
      | some child =>
        simp only [hc] at hdone ⊢
        cases hs : place? (d.own child).1.store current key (some (d.own child).2) with
        | none => simp [hs] at hdone
        | some s =>
          simp only [hs] at hdone ⊢
          obtain ⟨hout, hbelow⟩ := h.below hcur hc
          have ho := owns d (hbelow.stored child List.mem_cons_self)
          generalize (d.own child).2 = copy at *
          generalize (d.own child).1 = d₁ at *
          obtain ⟨old, new, hold, hnew, hshares, hled, hsize, hrest⟩ := place?_eq_some hs
          -- the copy of the container now names the copy of the child; nothing else on the way
          -- has changed, since the way does not come back to the container
          have hne : current ≠ copy := ho.ne hlt fun heq => hout (heq ▸ List.mem_cons_self)
          have hcopy : get? s copy = get? d.store child := (hrest copy hne.symm).trans ho.same
          have hsame : ∀ i < size d.store, i ≠ current → get? s i = get? d.store i :=
            fun i hi hi' => (hrest i hi').trans (ho.frame i hi)
          have htail : ∀ i ∈ (way d.store child (next :: rest)).tail,
              get? s i = get? d.store i := fun i hi =>
            have hmem := List.mem_of_mem_tail hi
            hsame i (hbelow.stored i hmem) fun heq => hout (heq ▸ hmem)
          obtain ⟨hway, hpass⟩ := hbelow.copy ho hsize hcopy htail
          obtain ⟨hframe, hshared⟩ := ih hpass ho.copied hdone
          have hkept : ∀ i < size d.store, i ∉ way d.store child (next :: rest) →
              get? (descend ⟨s, d₁.copies⟩ copy change (next :: rest)).1.store i = get? s i :=
            fun i hi hbeside => hframe i (hsize ▸ Nat.lt_of_lt_of_le hi ho.grows)
              (ho.notMem_way hi hway hbeside)
          have hcurrent := (hkept current hlt hout).trans hnew
          generalize (descend ⟨s, d₁.copies⟩ copy change (next :: rest)).1.store = s' at *
          have hchild : child? s' current key = some copy := by
            rw [child?, hcurrent, Option.bind_some, hled copy rfl]
          rw [ho.frame current hlt] at hold
          refine ⟨fun i hi hbeside => ?_,
            .cons hold hcurrent hshares hc hchild (hshared.of_copy hcopy htail)⟩
          rw [way_cons hc, List.mem_cons, not_or] at hbeside
          rw [hkept i hi hbeside.2, hsame i hi hbeside.1]

/-- An update leaves alone what it does not own. Whether it succeeds or not, every entry that was
there before and is no copy is unchanged, and the store only grows. Where it succeeds, the new tree
has, at every container of the path, the children beside the path by the ids that they had. -/
theorem update_isolated (d : Draft σ) (root : NodeId) (path : Path) (change : Update α) :
    let outcome := d.update root path change
    (size d.store ≤ size outcome.1.store ∧
      ∀ i < size d.store, i ∉ d.copies → get? outcome.1.store i = get? d.store i) ∧
    ∀ r, path ≠ [] → outcome.2 = .ok (some r) → Passable d root path →
      Shares d.store root outcome.1.store r path change.closes := by
  intro outcome
  have hspares := update_spares d root path change
  refine ⟨⟨hspares.grows, hspares.same⟩, fun r hne hok hpass => ?_⟩
  obtain ⟨key, rest, rfl⟩ := List.exists_cons_of_ne_nil hne
  have ho := owns d (hpass.stored root List.mem_cons_self)
  have htail : ∀ i ∈ (way d.store root (key :: rest)).tail,
      get? (d.own root).1.store i = get? d.store i := fun i hi =>
    ho.frame i (hpass.stored i (List.mem_of_mem_tail hi))
  have hshares : ((d.own root).1.descend (d.own root).2 change (key :: rest)).2 = true →
      Shares d.store root ((d.own root).1.descend (d.own root).2 change (key :: rest)).1.store
        (d.own root).2 (key :: rest) change.closes := fun hdone =>
    (descend_shares (hpass.copy ho rfl ho.same htail).2 ho.copied hdone).2.of_copy ho.same htail
  simp only [outcome, update] at hok ⊢
  generalize (d.own root).1.descend (d.own root).2 change (key :: rest) = result at hok hshares ⊢
  obtain ⟨d', done⟩ := result
  cases done with
  | false => cases hok
  | true =>
    obtain rfl := Option.some.inj (Except.ok.inj hok)
    exact hshares rfl

/-- A sequence, which is a copy, in a mapping that is none. -/
def halfCopied : Draft (Arena Nat) :=
  ⟨⟨#[.leaf 7, .leaf 8, .leaf 9, .seq [0, 1, 2], .map [("x", 3), ("y", 0)]]⟩, [3]⟩

/-- Taking an item out of the sequence copies the mapping and writes the sequence in place. -/
theorem update_isolated_halfCopied :
    let path : Path := [.field "x", .index 0]
    let outcome := halfCopied.update 4 path .strip
    Passable halfCopied 4 path ∧ outcome.2 = .ok (some 5) ∧
      Shares halfCopied.store 4 outcome.1.store 5 path true ∧
      get? outcome.1.store 4 = get? halfCopied.store 4 ∧
      get? outcome.1.store 3 = some (.seq [1, 2]) := by
  intro path outcome
  have hpass : Passable halfCopied 4 path := ⟨by decide, by decide⟩
  obtain ⟨⟨-, hsame⟩, hshares⟩ := update_isolated halfCopied 4 path .strip
  exact ⟨hpass, rfl, hshares 5 (by decide) rfl hpass, hsame 4 (by decide) (by decide), rfl⟩

end Draft

end ValueResolution
