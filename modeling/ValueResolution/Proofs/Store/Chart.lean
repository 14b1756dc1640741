import ValueResolution.Proofs.Store.Positions
import ValueResolution.Proofs.Store.Worktree
/-!
# Copies and their positions

A draft keeps the ids of its copies, but not what they are copies of. A chart adds this: it labels
every copy with a position of the store that the draft began with (`Draft.Labels`). The copy has the
slots of the container at this position, and each of them holds the child that was there, or the
copy for the position of the slot, or a leaf that was written (`Draft.Stands`). Since no two copies
have one label, there are as many of them as there are labels.

It remains to see that going down from a copy never meets an old container whose position has a copy
already. This is what `Draft.Entered` keeps up: above every copy, the way down to it leads through
copies, so an old child that is still in place has none at its position or below
(`Draft.Charted.enter`). `Draft.Advances` says what a change does to a chart and to the number of
entries.
-/

set_option autoImplicit false

namespace ValueResolution

open Store

namespace Draft

variable {σ α : Type} [Store σ α]

/-! ## New copies -/

variable [LawfulStore σ] {s : σ} {root : NodeId} {d d' : Draft σ} {pos pos' : NodeId → Path}

/-- The draft with a new copy of an entry. -/
def copy (d : Draft σ) (e : Entry α) : Draft σ :=
  ⟨Store.push d.store e, d.copies.insert (size d.store)⟩

omit [LawfulStore σ] in
/-- A copy is its own. -/
theorem own_of_mem {id : NodeId} (h : id ∈ d.copies) : d.own id = (d, id) := if_pos h

omit [LawfulStore σ] in
/-- A container that is no copy is copied under a new id. -/
theorem own_of_notMem {id : NodeId} {e : Entry α} (hout : id ∉ d.copies)
    (he : get? d.store id = some e) : d.own id = (d.copy e, size d.store) := by
  rw [own, if_neg hout, he]
  rfl

omit [LawfulStore σ] in
theorem mem_copy (d : Draft σ) (e : Entry α) {i : NodeId} :
    i ∈ (d.copy e).copies ↔ i = size d.store ∨ i ∈ d.copies := List.mem_insert_iff

theorem get?_copy_self (d : Draft σ) (e : Entry α) :
    get? (d.copy e).store (size d.store) = some e :=
  get?_push_size d.store e

theorem get?_copy (d : Draft σ) (e : Entry α) {i : NodeId} (h : i < size d.store) :
    get? (d.copy e).store i = get? d.store i :=
  get?_push_of_lt h e

theorem spares_copy (d : Draft σ) (e : Entry α) : Spares d (d.copy e) :=
  (Spares.refl d).push e fun _ hi => (List.mem_insert_iff.1 hi).symm

/-- The labels with that of a new copy. -/
def label (d : Draft σ) (pos : NodeId → Path) (p : Path) : NodeId → Path :=
  Function.update pos (size d.store) p

omit [LawfulStore σ] in
theorem label_self (p : Path) : d.label pos p (size d.store) = p := Function.update_self ..

/-! ## Labels of copies -/

/-- What was put in the slot at `place` since the store was `s`: the copy for this position, or a
leaf that is no copy. -/
inductive Made (s : σ) (d : Draft σ) (pos : NodeId → Path) (place : Path) (j : NodeId) : Prop where
  | copied (h : j ∈ d.copies) (hpos : pos j = place)
  | written (hout : j ∉ d.copies) (hnew : size s ≤ j) (a : α) (h : get? d.store j = some (.leaf a))

/-- A copy stands for the container at its position: it has the same slots, and in each of them the
child that was there or what was put there since. -/
def Stands (s : σ) (root : NodeId) (d : Draft σ) (pos : NodeId → Path) (i : NodeId) : Prop :=
  ∃ o old new, locate? s ([], root) (pos i) = some (pos i, o) ∧ get? s o = some old ∧
    old.isContainer = true ∧ get? d.store i = some new ∧
    (∀ key, new.slot? key = old.slot? key) ∧
    ∀ key slot j, new.slot? key = some slot → new.child? key = some j →
      old.child? key = some j ∨ Made s d pos (pos i ++ [slot]) j

/-- The copies are labelled with positions, no two of them with the same one. -/
structure Labels (s : σ) (root : NodeId) (d : Draft σ) (pos : NodeId → Path) : Prop where
  grown : Extends s d
  nodup : d.copies.Nodup
  inj : ∀ i ∈ d.copies, ∀ j ∈ d.copies, pos i = pos j → i = j
  stands : ∀ i ∈ d.copies, Stands s root d pos i

omit [LawfulStore σ] in
theorem Made.size_le {place : Path} {j : NodeId} (h : Made s d pos place j) (hd : Extends s d) :
    size s ≤ j := by
  cases h with
  | copied h => exact hd.copies j h
  | written _ hnew => exact hnew

/-- What was made stays so as long as the copies keep their labels. -/
theorem Made.mono {place : Path} {j : NodeId} (h : Made s d pos place j) (hs : Spares d d')
    (hkept : ∀ i ∈ d.copies, i ∈ d'.copies ∧ pos' i = pos i) : Made s d' pos' place j := by
  cases h with
  | copied h hpos => exact .copied (hkept j h).1 ((hkept j h).2.trans hpos)
  | written hout hnew a h =>
    have hlt := lt_size_of_get? h
    refine .written (fun hj => ?_) hnew a ((hs.same j hlt hout).trans h)
    rcases hs.made j hj with hj | hge
    · exact hout hj
    · exact Nat.not_le_of_lt hlt hge

/-- A copy stands as long as it is not written and the copies keep their labels. -/
theorem Stands.mono {i : NodeId} (h : Stands s root d pos i) (hi : i ∈ d.copies)
    (hs : Spares d d') (hkept : ∀ i ∈ d.copies, i ∈ d'.copies ∧ pos' i = pos i)
    (hsame : get? d'.store i = get? d.store i) : Stands s root d' pos' i := by
  obtain ⟨o, old, new, ho, hold, hc, hnew, hslots, hchildren⟩ := h
  rw [← (hkept i hi).2] at ho hchildren
  exact ⟨o, old, new, ho, hold, hc, hsame.trans hnew, hslots, fun key slot j hslot hj =>
    (hchildren key slot j hslot hj).imp_right fun hmade => hmade.mono hs hkept⟩

theorem Stands.lt_size {i : NodeId} (h : Stands s root d pos i) : i < size d.store := by
  obtain ⟨o, old, new, -, -, -, hnew, -⟩ := h
  exact lt_size_of_get? hnew

omit [LawfulStore σ] in
/-- A copy stands where there is a container. -/
theorem Stands.position?_nil {i o : NodeId} (h : Stands s root d pos i)
    (ho : locate? s ([], root) (pos i) = some (pos i, o)) :
    position? s (pos i, o) [] = some (pos i) := by
  obtain ⟨o', old, -, ho', hold, hc, -⟩ := h
  obtain rfl : o = o' := (Prod.mk.inj (Option.some.inj (ho.symm.trans ho'))).2
  exact Store.position?_nil (x := (pos i, o)) hold hc

/-- An entry that is only added is no copy. -/
theorem Labels.push (h : Labels s root d pos) (e : Entry α) :
    Labels s root (d.push e).1 pos where
  grown := h.grown.spares ((Spares.refl d).push e fun _ => Or.inl)
  nodup := h.nodup
  inj := h.inj
  stands i hi := by
    refine (h.stands i hi).mono hi ((Spares.refl d).push e fun _ => Or.inl)
      (fun i hi => ⟨hi, rfl⟩) ?_
    exact get?_push_of_lt (h.stands i hi).lt_size e

theorem Labels.kept (h : Labels s root d pos) (e : Entry α) (p : Path) :
    ∀ i ∈ d.copies, i ∈ (d.copy e).copies ∧ d.label pos p i = pos i := fun i hi =>
  ⟨(mem_copy d e).2 (.inr hi), Function.update_of_ne (Nat.ne_of_lt (h.stands i hi).lt_size) _ _⟩

/-- A container is copied for a position that has no copy yet. -/
theorem Labels.copy (h : Labels s root d pos) {p : Path} {o : NodeId} {e : Entry α}
    (hp : ∀ i ∈ d.copies, pos i ≠ p) (ho : locate? s ([], root) p = some (p, o))
    (he : get? s o = some e) (hc : e.isContainer = true) :
    Labels s root (d.copy e) (d.label pos p) := by
  have hkept := h.kept e p
  refine ⟨h.grown.spares (spares_copy d e), h.nodup.insert, fun i hi j hj heq => ?_,
    fun i hi => ?_⟩
  · obtain rfl | hi := (mem_copy d e).1 hi <;> obtain rfl | hj := (mem_copy d e).1 hj
    · rfl
    · rw [label_self, (hkept j hj).2] at heq
      exact absurd heq.symm (hp j hj)
    · rw [label_self, (hkept i hi).2] at heq
      exact absurd heq (hp i hi)
    · rw [(hkept i hi).2, (hkept j hj).2] at heq
      exact h.inj i hi j hj heq
  · obtain rfl | hi := (mem_copy d e).1 hi
    · refine ⟨o, e, e, ?_, he, hc, get?_copy_self d e, fun _ => rfl, fun _ _ _ _ => .inl⟩
      rw [label_self, ho]
    · exact (h.stands i hi).mono hi (spares_copy d e) hkept (get?_copy d e (h.stands i hi).lt_size)

/-- A copy gets a child that was made for the slot. -/
theorem Labels.place (h : Labels s root d pos) {i child : NodeId} (hi : i ∈ d.copies)
    {key slot : Key} {new : Entry α} (hnew : get? d.store i = some new)
    (hslot : new.slot? key = some slot) (hmade : Made s d pos (pos i ++ [slot]) child) {st : σ}
    (hst : place? d.store i key (some child) = some st) :
    Labels s root { d with store := st } pos := by
  have hs : Spares d { d with store := st } := (Spares.refl d).place (.inl hi) hst
  have hkept : ∀ i ∈ d.copies, i ∈ d.copies ∧ pos i = pos i := fun i hi => ⟨hi, rfl⟩
  refine ⟨h.grown.spares hs, h.nodup, h.inj, fun k hk => ?_⟩
  obtain ⟨e, e', he, he', hget, hrest⟩ := exists_place? hst
  obtain rfl := Option.some.inj (hnew.symm.trans he)
  by_cases hki : k = i
  · subst hki
    obtain ⟨o, old, new', ho, hold, hc, hnew', hslots, hchildren⟩ := h.stands k hk
    obtain rfl := Option.some.inj (hnew.symm.trans hnew')
    refine ⟨o, old, e', ho, hold, hc, hget, fun key' => ?_, fun key' slot' j hslot' hj => ?_⟩
    · rw [Entry.slot?_place he', hslots]
    · rw [Entry.slot?_place he'] at hslot'
      -- the slot is the one that was written, or it is as before
      obtain ⟨hsame, hj'⟩ | hj' := Entry.child?_place_or he' key'
      · rw [hslot', hslot] at hsame
        obtain rfl := Option.some.inj hsame
        obtain rfl := Option.some.inj (hj'.symm.trans hj)
        exact .inr (hmade.mono hs hkept)
      · exact (hchildren key' slot' j hslot' (hj'.symm.trans hj)).imp_right fun hmade =>
          hmade.mono hs hkept
  · exact (h.stands k hk).mono hk hs hkept (hrest k hki)

/-! ## Ways down to copies -/

/-- No copy that stands above `c` has an old child in the direction of `c`. -/
def Entered (s : σ) (d : Draft σ) (pos : NodeId → Path) (c : NodeId) : Prop :=
  ∀ i ∈ d.copies, ∀ slot, pos i ++ [slot] <+: pos c →
    ∀ e j, get? d.store i = some e → e.child? slot = some j → size s ≤ j

/-- A new leaf changes nothing in what was entered. -/
theorem Entered.push {c : NodeId} (h : Entered s d pos c) (hl : Labels s root d pos)
    (e : Entry α) : Entered s (d.push e).1 pos c := by
  intro i hi slot hpre e' j he' hj
  rw [Draft.push, get?_push_of_lt (hl.stands i hi).lt_size] at he'
  exact h i hi slot hpre e' j he' hj

theorem Entered.place {c : NodeId} (h : Entered s d pos c) {i child : NodeId}
    (hchild : size s ≤ child) {key : Key} {st : σ}
    (hst : place? d.store i key (some child) = some st) :
    Entered s { d with store := st } pos c := by
  intro k hk slot hpre e' j he' hj
  obtain ⟨e, new, he, hnew, hget, hrest⟩ := exists_place? hst
  by_cases hki : k = i
  · subst hki
    obtain rfl := Option.some.inj (hget.symm.trans he')
    obtain ⟨-, hj'⟩ | hj' := Entry.child?_place_or hnew slot
    · obtain rfl := Option.some.inj (hj'.symm.trans hj)
      exact hchild
    · exact h k hk slot hpre e j he (hj'.symm.trans hj)
  · exact h k hk slot hpre e' j ((hrest k hki).symm.trans he') hj

/-- Nor does a copy for a position that is not on the way. -/
theorem Entered.copy {c : NodeId} (h : Entered s d pos c) (hl : Labels s root d pos)
    (hc : c ∈ d.copies) {p : Path} (hp : ¬ p <+: pos c) (e : Entry α) :
    Entered s (d.copy e) (d.label pos p) c := by
  have hkept := hl.kept e p
  intro i hi slot hpre e' j he' hj
  rw [(hkept c hc).2] at hpre
  obtain rfl | hi := (mem_copy d e).1 hi
  · rw [label_self] at hpre
    exact absurd ((List.prefix_append _ _).trans hpre) hp
  · rw [(hkept i hi).2] at hpre
    rw [get?_copy d e (hl.stands i hi).lt_size] at he'
    exact h i hi slot hpre e' j he' hj

omit [LawfulStore σ] in
/-- What stands right below a copy, in a slot that was written, is entered if the copy is. -/
theorem Labels.entered_snoc (hl : Labels s root d pos) {i c : NodeId} (hi : i ∈ d.copies)
    (h : Entered s d pos i) {slot : Key} (hc : pos c = pos i ++ [slot]) {new : Entry α}
    {child : NodeId} (hnew : get? d.store i = some new) (hchild : new.child? slot = some child)
    (hge : size s ≤ child) : Entered s d pos c := by
  intro k hk slot' hpre e j he hj
  rw [hc] at hpre
  obtain heq | hpre := List.prefix_concat_iff.1 hpre
  · obtain ⟨hpos, hslot⟩ := List.append_inj' heq rfl
    obtain rfl := hl.inj k hk i hi hpos
    obtain rfl := List.singleton_inj.1 hslot
    obtain rfl := Option.some.inj (hnew.symm.trans he)
    obtain rfl := Option.some.inj (hchild.symm.trans hj)
    exact hge
  · exact h k hk slot' hpre e j he hj

/-- The copies are labelled, and the way down to each of them leads through copies only. -/
structure Charted (s : σ) (root : NodeId) (d : Draft σ) (pos : NodeId → Path) : Prop extends
    Labels s root d pos where
  entered : ∀ c ∈ d.copies, Entered s d pos c

/-- What happens to a chart: copies keep their labels, new ones are made for the positions `visited`
that had none, and the other new entries are leaves. -/
structure Advances (s : σ) (root : NodeId) (d : Draft σ) (pos : NodeId → Path) (leaves : Nat)
    (visited : Set Path) (d' : Draft σ) (pos' : NodeId → Path) : Prop where
  charted : Charted s root d' pos'
  kept : ∀ i ∈ d.copies, i ∈ d'.copies ∧ pos' i = pos i
  counted : size d'.store + d.copies.length = size d.store + leaves + d'.copies.length
  labelled : ∀ p, (∃ i ∈ d'.copies, pos' i = p) ↔ (∃ i ∈ d.copies, pos i = p) ∨ p ∈ visited

omit [LawfulStore σ] in
/-- One advance after the other is an advance by both. -/
theorem Advances.trans {m n : Nat} {v w : Set Path} {d'' : Draft σ} {pos'' : NodeId → Path}
    (h : Advances s root d pos m v d' pos') (h' : Advances s root d' pos' n w d'' pos'') :
    Advances s root d pos (m + n) (v ∪ w) d'' pos'' where
  charted := h'.charted
  kept i hi := by
    obtain ⟨hi', hpos⟩ := h.kept i hi
    obtain ⟨hi'', hpos'⟩ := h'.kept i hi'
    exact ⟨hi'', hpos'.trans hpos⟩
  counted := by
    have hfirst := h.counted
    have hsecond := h'.counted
    omega
  labelled p := by rw [h'.labelled, h.labelled, or_assoc, Set.mem_union]

omit [LawfulStore σ] in
/-- A position that has a copy can be visited again. -/
theorem Charted.revisit (h : Charted s root d pos) {i : NodeId} (hi : i ∈ d.copies) :
    Advances s root d pos 0 {pos i} d pos where
  charted := h
  kept j hj := ⟨hj, rfl⟩
  counted := rfl
  labelled p := by
    rw [Set.mem_singleton_iff]
    exact ⟨.inl, fun hp => hp.elim id fun hp => ⟨i, hi, hp.symm⟩⟩

/-- A new leaf is one entry more, at no position. -/
theorem Charted.push (h : Charted s root d pos) (a : α) :
    Advances s root d pos 1 ∅ (d.push (.leaf a)).1 pos where
  charted := ⟨h.toLabels.push _, fun c hc => (h.entered c hc).push h.toLabels _⟩
  kept i hi := ⟨hi, rfl⟩
  counted := by
    simp only [Draft.push, LawfulStore.size_push]
  labelled p := by simp [Draft.push]

/-- Writing a slot of a copy adds no entry. -/
theorem Charted.place (h : Charted s root d pos) {i child : NodeId} (hi : i ∈ d.copies)
    {key slot : Key} {new : Entry α} (hnew : get? d.store i = some new)
    (hslot : new.slot? key = some slot) (hmade : Made s d pos (pos i ++ [slot]) child) {st : σ}
    (hst : place? d.store i key (some child) = some st) :
    Advances s root d pos 0 ∅ { d with store := st } pos where
  charted := ⟨h.toLabels.place hi hnew hslot hmade hst, fun c hc =>
    (h.entered c hc).place (hmade.size_le h.grown) hst⟩
  kept i hi := ⟨hi, rfl⟩
  counted := by
    obtain ⟨-, -, -, -, -, -, hsize, -⟩ := place?_eq_some hst
    simp only [hsize, Nat.add_zero]
  labelled p := by simp

theorem Labels.size_notMem (h : Labels s root d pos) : size d.store ∉ d.copies := fun hmem =>
  Nat.lt_irrefl _ (h.stands _ hmem).lt_size

/-- A copy for a new position, once the way down to it leads through copies. -/
theorem Charted.advances_of_copy (h : Charted s root d pos) {p : Path} {e : Entry α} {st : σ}
    (hcharted : Charted s root { d.copy e with store := st } (d.label pos p))
    (hsize : size st = size (d.copy e).store) :
    Advances s root d pos 0 {p} { d.copy e with store := st } (d.label pos p) where
  charted := hcharted
  kept := h.kept e p
  counted := by
    have hlength : (d.copy e).copies.length = d.copies.length + 1 :=
      List.length_insert_of_not_mem h.size_notMem
    rw [hsize, hlength, Draft.copy, LawfulStore.size_push]
    omega
  labelled q := by
    have hkept := h.kept e p
    constructor
    · rintro ⟨i, hi, rfl⟩
      obtain rfl | hi := (mem_copy d e).1 hi
      · exact .inr (label_self p)
      · exact .inl ⟨i, hi, (hkept i hi).2.symm⟩
    · rintro (⟨i, hi, rfl⟩ | rfl)
      · exact ⟨i, hkept i hi⟩
      · exact ⟨size d.store, (mem_copy d e).2 (.inl rfl), label_self q⟩

/-- The first copy is that of the root. -/
theorem Charted.top (h : Charted s root d pos) (hnone : d.copies = []) {e : Entry α}
    (he : get? s root = some e) (hc : e.isContainer = true) :
    Advances s root d pos 0 {[]} (d.copy e) (d.label pos []) := by
  have hno (i : NodeId) : i ∉ d.copies := by simp [hnone]
  have hlabels := h.toLabels.copy (p := []) (fun i hi => absurd hi (hno i)) rfl he hc
  have hcharted : Charted s root (d.copy e) (d.label pos []) := by
    refine ⟨hlabels, fun c hc => ?_⟩
    obtain rfl | hc := (mem_copy d e).1 hc
    · intro i _ slot hpre
      rw [label_self] at hpre
      simp at hpre
    · exact absurd hc (hno c)
  exact h.advances_of_copy hcharted rfl

/-- Going down from a copy to a container that was there before copies the container for its
position, which has no copy yet. -/
theorem Charted.enter (h : Charted s root d pos) {i child : NodeId} (hi : i ∈ d.copies)
    {key slot : Key} {new e : Entry α} (hnew : get? d.store i = some new)
    (hslot : new.slot? key = some slot) (hchild : new.child? key = some child)
    (hold : child < size s)
    (ho : locate? s ([], root) (pos i ++ [slot]) = some (pos i ++ [slot], child))
    (he : get? s child = some e) (hc : e.isContainer = true) {st : σ}
    (hst : place? (d.copy e).store i key (some (size d.store)) = some st) :
    Advances s root d pos 0 {pos i ++ [slot]} { d.copy e with store := st }
      (d.label pos (pos i ++ [slot])) := by
  -- the way down to a copy at or below the position would have left the old child behind
  have hfree : ∀ c ∈ d.copies, ¬ pos i ++ [slot] <+: pos c := fun c hc hpre =>
    Nat.not_le_of_lt hold
      (h.entered c hc i hi slot hpre new child hnew ((Entry.child?_slot hslot).trans hchild))
  have hkept := h.kept e (pos i ++ [slot])
  have hlabels := h.toLabels.copy (fun c hc heq => hfree c hc (heq ▸ List.prefix_rfl)) ho he hc
  have hi' := (hkept i hi).1
  have hnew' := (get?_copy d e (h.stands i hi).lt_size).trans hnew
  have hmade : Made s (d.copy e) (d.label pos (pos i ++ [slot]))
      (d.label pos (pos i ++ [slot]) i ++ [slot]) (size d.store) :=
    .copied ((mem_copy d e).2 (.inl rfl)) (by rw [label_self, (hkept i hi).2])
  have hplaced := hlabels.place hi' hnew' hslot hmade hst
  have hfresh : size s ≤ size d.store := h.grown.grows
  obtain ⟨-, -, -, -, -, -, hsize, -⟩ := place?_eq_some hst
  refine h.advances_of_copy ⟨hplaced, ?_⟩ hsize
  have hentered : ∀ c ∈ d.copies, Entered s { d.copy e with store := st }
      (d.label pos (pos i ++ [slot])) c := fun c hc =>
    ((h.entered c hc).copy h.toLabels hc (hfree c hc) e).place hfresh hst
  intro c hc
  obtain rfl | hc := (mem_copy d e).1 hc
  · obtain ⟨e₁, e₂, he₁, he₂, hget, -⟩ := exists_place? hst
    obtain rfl := Option.some.inj (hnew'.symm.trans he₁)
    have hslot' : e₂.slot? key = some slot := (Entry.slot?_place he₂ key).trans hslot
    exact hplaced.entered_snoc hi' (hentered i hi) (by rw [label_self, (hkept i hi).2]) hget
      ((Entry.child?_slot hslot').trans (Entry.child?_place he₂)) hfresh
  · exact hentered c hc

end Draft

end ValueResolution
