import Mathlib.Logic.Function.Basic
import ValueResolution.Proofs.Store.Lawful
import ValueResolution.Store.Draft
/-!
# An overlay is a private copy of its base

Working on an overlay of a frozen arena and working on a copy of the arena come to the same: every
call gives the same answer, and afterwards the same ids have the same entries
(`Session.run_overlay`).

The two runs are related by `Overlay.flatten`. Adding an entry goes along with it always, writing
an entry only above the base, since the overlay refuses to change the entries of the base. So what
is kept up through a run is that every copy was added above the base (`Draft.Above`): an update
writes to copies only, whether it succeeds or stops halfway (`Draft.descend_flatten`).
-/

set_option autoImplicit false

namespace ValueResolution

open Store

variable {α : Type}

namespace Overlay

/-! ## Entries -/

/-- A new entry gets the same id in both stores. -/
theorem flatten_push (o : Overlay α) (e : Entry α) : (push o e).flatten = push o.flatten e := by
  simp [flatten, push]

/-- What a key addresses does not depend on the layer that has it. -/
theorem child?_flatten (o : Overlay α) (id : NodeId) (key : Key) :
    child? o.flatten id key = child? o id key := by
  rw [child?, get?_flatten, child?]

/-- Above the base an overlay changes entries as the arena of both layers does. -/
theorem replace?_flatten (o : Overlay α) {id : NodeId} (h : size o.base ≤ id) (e : Entry α) :
    replace? o.flatten id e = (replace? o id e).map flatten := by
  have hbase : o.base.entries.size ≤ id := h
  have hflat : replace? o.flatten id e =
      if id < size o.flatten then some ⟨o.flatten.entries.setIfInBounds id e⟩ else none := rfl
  rw [hflat, replace?_eq, size_flatten]
  by_cases hlt : id < size o
  · rw [if_pos hlt, if_pos ⟨hbase, hlt⟩]
    simp [flatten, Array.setIfInBounds_append_right hbase]
  · rw [if_neg hlt, if_neg fun hmem => hlt hmem.2]
    rfl

/-- A fresh container is written alike in both stores. -/
theorem place?_flatten (o : Overlay α) {parent : NodeId} (h : size o.base ≤ parent) (key : Key)
    (child : Option NodeId) :
    place? o.flatten parent key child = (place? o parent key child).map flatten := by
  rw [place?, place?, get?_flatten]
  cases get? o parent with
  | none => rfl
  | some e =>
    cases he : e.place? key child with
    | none => simp [he]
    | some e' => simpa [he] using replace?_flatten o h e'

/-- No entry of the base is written. -/
theorem base_place {o o' : Overlay α} {parent : NodeId} {key : Key} {child : Option NodeId}
    (h : place? o parent key child = some o') : o'.base = o.base := by
  obtain ⟨e, -, he⟩ := Option.bind_eq_some_iff.1 h
  obtain ⟨e', -, hs⟩ := Option.bind_eq_some_iff.1 he
  obtain ⟨-, -, rfl⟩ := replace?_eq_some hs
  rfl

end Overlay

namespace Draft

/-! ## Updates -/

/-- The draft on the arena of both layers. -/
def flatten (d : Draft (Overlay α)) : Draft (Arena α) := ⟨d.store.flatten, d.copies⟩

/-- A draft on top of `a` whose copies were all added above it. -/
structure Above (a : Arena α) (d : Draft (Overlay α)) : Prop where
  base : d.store.base = a
  copies : ∀ i ∈ d.copies, size a ≤ i

variable {a : Arena α} {d : Draft (Overlay α)}

theorem Above.le_size (h : Above a d) : size a ≤ size d.store := by
  rw [← h.base]
  exact Nat.le_add_right _ _

theorem push_flatten (d : Draft (Overlay α)) (e : Entry α) :
    d.flatten.push e = ((d.push e).1.flatten, (d.push e).2) := by
  simp only [push, flatten, Overlay.flatten_push, Overlay.size_flatten]

/-- Staging a change adds the same entry to both stores. -/
theorem stage_flatten (d : Draft (Overlay α)) (change : Update α) :
    d.flatten.stage change = ((d.stage change).1.flatten, (d.stage change).2) := by
  cases change with
  | put e => rw [stage, push_flatten]; rfl
  | strip => rfl

theorem Above.stage (h : Above a d) (change : Update α) : Above a (d.stage change).1 := by
  cases change with
  | put e => exact ⟨h.base, h.copies⟩
  | strip => exact h

/-- A container is copied in both stores or in neither. -/
theorem own_flatten (d : Draft (Overlay α)) (id : NodeId) :
    d.flatten.own id = ((d.own id).1.flatten, (d.own id).2) := by
  have hcopies : d.flatten.copies = d.copies := rfl
  have hstore : d.flatten.store = d.store.flatten := rfl
  by_cases hid : id ∈ d.copies
  · simp [own, hcopies, hid]
  · rw [own, own, hcopies, hstore, if_neg hid, if_neg hid, Overlay.get?_flatten]
    cases get? d.store id with
    | none => rfl
    | some e => simp only [Overlay.size_flatten, ← Overlay.flatten_push]; rfl

/-- What is owned can be written: it stands above the base. A dangling id does so, too. -/
theorem Above.own (h : Above a d) (id : NodeId) :
    Above a (d.own id).1 ∧ size a ≤ (d.own id).2 := by
  by_cases hid : id ∈ d.copies
  · rw [Draft.own, if_pos hid]
    exact ⟨h, h.copies id hid⟩
  · rw [Draft.own, if_neg hid]
    cases hget : get? d.store id with
    | none =>
      have hge := (LawfulStore.get?_eq_none_iff d.store id).1 hget
      exact ⟨h, Nat.le_trans h.le_size hge⟩
    | some e =>
      refine ⟨⟨h.base, fun i hi => ?_⟩, h.le_size⟩
      rcases List.mem_insert_iff.1 hi with rfl | hi
      · exact h.le_size
      · exact h.copies i hi

/-- Writing keeps all copies above the base. -/
theorem Above.place (h : Above a d) {parent : NodeId} {key : Key} {child : Option NodeId}
    {s : Overlay α} (hs : place? d.store parent key child = some s) :
    Above a { d with store := s } :=
  ⟨(Overlay.base_place hs).trans h.base, h.copies⟩

/-- Going down from a container above the base, every write goes above the base. -/
theorem descend_flatten (h : Above a d) {current : NodeId} (hc : size a ≤ current)
    (change : Update α) (path : Path) :
    d.flatten.descend current change path =
        ((d.descend current change path).1.flatten, (d.descend current change path).2) ∧
      Above a (d.descend current change path).1 := by
  induction path generalizing d current with
  | nil => exact ⟨rfl, h⟩
  | cons key rest ih =>
    cases rest with
    | nil =>
      have hstage := h.stage change
      have hbase : size (d.stage change).1.store.base ≤ current := by rwa [hstage.base]
      have hplace := Overlay.place?_flatten _ hbase key (d.stage change).2
      simp only [descend, stage_flatten]
      rw [show (d.stage change).1.flatten.store = (d.stage change).1.store.flatten from rfl, hplace]
      cases hs : place? (d.stage change).1.store current key (d.stage change).2 with
      | none => exact ⟨rfl, hstage⟩
      | some s => exact ⟨rfl, hstage.place hs⟩
    | cons next rest =>
      rw [descend, descend, show d.flatten.store = d.store.flatten from rfl,
        Overlay.child?_flatten]
      cases child? d.store current key with
      | none => exact ⟨rfl, h⟩
      | some child =>
        obtain ⟨hown, hcopy⟩ := h.own child
        have hbase : size (d.own child).1.store.base ≤ current := by rwa [hown.base]
        have hplace := Overlay.place?_flatten _ hbase key (some (d.own child).2)
        simp only [own_flatten]
        rw [show (d.own child).1.flatten.store = (d.own child).1.store.flatten from rfl, hplace]
        cases hs : place? (d.own child).1.store current key (some (d.own child).2) with
        | none => exact ⟨rfl, hown⟩
        | some s => exact ih (hown.place hs) hcopy

/-- An update of an overlay is the update of the arena of both layers. -/
theorem update_flatten (h : Above a d) (root : NodeId) (path : Path) (change : Update α) :
    d.flatten.update root path change =
        ((d.update root path change).1.flatten, (d.update root path change).2) ∧
      Above a (d.update root path change).1 := by
  cases path with
  | nil => exact ⟨by simp only [update, stage_flatten], h.stage change⟩
  | cons key rest =>
    obtain ⟨hown, hcopy⟩ := h.own root
    obtain ⟨hflat, habove⟩ := descend_flatten hown hcopy change (key :: rest)
    simp only [update, own_flatten, hflat]
    generalize (d.own root).1.descend (d.own root).2 change (key :: rest) = result at habove ⊢
    obtain ⟨d', done⟩ := result
    cases done with
    | true => exact ⟨rfl, habove⟩
    | false => exact ⟨rfl, habove⟩

end Draft

/-! ## Runs -/

/-- A call to a store. Updates belong to a series, and a series shares its copies. -/
inductive Call (α : Type) where
  | add (e : Entry α)
  | update (series : Nat) (root : NodeId) (path : Path) (change : Update α)

/-- What a call answers. -/
inductive Answer where
  | added (id : NodeId)
  | updated (result : Except Error (Option NodeId))

/-- A store with the copies that each series of updates has made. -/
structure Session (σ : Type) where
  store : σ
  copies : Nat → List NodeId

namespace Session

/-- The session on a store in which nothing has been copied yet. -/
def start {σ : Type} (store : σ) : Session σ := ⟨store, fun _ => []⟩

/-- Carries one call out. -/
def step {σ : Type} [Store σ α] (s : Session σ) : Call α → Session σ × Answer
  | .add e => ({ s with store := push s.store e }, .added (size s.store))
  | .update series root path change =>
    let (d, result) := Draft.update ⟨s.store, s.copies series⟩ root path change
    (⟨d.store, Function.update s.copies series d.copies⟩, .updated result)

/-- Carries calls out one after the other. -/
def run {σ : Type} [Store σ α] (s : Session σ) : List (Call α) → Session σ × List Answer
  | [] => (s, [])
  | call :: rest =>
    let (s, answer) := s.step call
    let (s, answers) := run s rest
    (s, answer :: answers)

/-- The session on the arena of both layers. -/
def flatten (s : Session (Overlay α)) : Session (Arena α) := ⟨s.store.flatten, s.copies⟩

/-- A session on top of `a`, in which every series has copied into the overlay only. -/
def Above (a : Arena α) (s : Session (Overlay α)) : Prop :=
  ∀ series, Draft.Above a ⟨s.store, s.copies series⟩

variable {a : Arena α} {s : Session (Overlay α)}

/-- One call has the same answer in both stores, and leaves them alike. -/
theorem step_flatten (h : Above a s) (call : Call α) :
    s.flatten.step call = ((s.step call).1.flatten, (s.step call).2) ∧ Above a (s.step call).1 := by
  cases call with
  | add e =>
    refine ⟨?_, fun series => ⟨(h series).base, (h series).copies⟩⟩
    simp only [step, flatten, Overlay.flatten_push, Overlay.size_flatten]
  | update series root path change =>
    obtain ⟨hflat, habove⟩ := Draft.update_flatten (h series) root path change
    simp only [Draft.flatten] at hflat
    simp only [step, flatten, hflat, true_and]
    intro other
    refine ⟨habove.base, ?_⟩
    by_cases ho : other = series
    · subst ho
      simpa using habove.copies
    · simpa [Function.update_of_ne ho] using (h other).copies

/-- So do calls in a row. -/
theorem run_flatten (h : Above a s) (calls : List (Call α)) :
    s.flatten.run calls = ((s.run calls).1.flatten, (s.run calls).2) ∧ Above a (s.run calls).1 := by
  induction calls generalizing s with
  | nil => exact ⟨rfl, h⟩
  | cons call rest ih =>
    obtain ⟨hstep, habove⟩ := step_flatten h call
    obtain ⟨hrun, habove⟩ := ih habove
    exact ⟨by simp only [run, hstep, hrun], habove⟩

/-- The same calls on an overlay of an arena and on a copy of it. The calls may name any ids, those
of earlier answers among them; both runs answer alike, make the same copies and end with the same
entries. The base of the overlay stays as it is. -/
theorem run_overlay (a : Arena α) (calls : List (Call α)) :
    let layered := run (start ({ base := a } : Overlay α)) calls
    let copied := run (start a) calls
    layered.2 = copied.2 ∧ layered.1.copies = copied.1.copies ∧
      size layered.1.store = size copied.1.store ∧
      (∀ id, get? layered.1.store id = get? copied.1.store id) ∧
      layered.1.store.base = a ∧ ∀ id < size a, get? layered.1.store id = get? a id := by
  have hstart : Above a (start { base := a }) := fun _ => ⟨rfl, by simp [start]⟩
  have hflat : (start ({ base := a } : Overlay α)).flatten = start a := by
    simp [flatten, start, Overlay.flatten]
  obtain ⟨hrun, habove⟩ := run_flatten hstart calls
  rw [hflat] at hrun
  have hbase : (run (start ({ base := a } : Overlay α)) calls).1.store.base = a := (habove 0).base
  simp only [hrun]
  refine ⟨trivial, rfl, (Overlay.size_flatten _).symm, fun id => (Overlay.get?_flatten _ id).symm,
    hbase, fun id hid => ?_⟩
  rw [Overlay.get?_eq, hbase]
  exact if_pos hid

end Session

end ValueResolution
