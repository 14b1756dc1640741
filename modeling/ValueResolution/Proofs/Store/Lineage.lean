import Mathlib.Data.Finset.Card
import ValueResolution.Proofs.Store.Building
import ValueResolution.Proofs.Store.Chart
/-!
# One copy for each position

Leaves are written one after the other, each into the tree that the writing before gave, and the
draft keeps its copies from one to the next (`Draft.writeAll`). Every container in front of the end
of a path is copied when its position is passed for the first time, and not again
(`Draft.writeAll_copies`): a path goes down through copies as far as these were made before, and
from there through the containers of the store that the draft began with (`Draft.Charted.step`,
`Draft.Charted.descend`). A leaf that was written ends every later path that comes to it, so the
writings succeed only along positions of that store.
-/

set_option autoImplicit false

namespace ValueResolution

open Store

namespace Draft

variable {σ α : Type} [Store σ α]

/-- Writes leaves one after the other, each into the tree that the writing before gave. The answer
has the root after each of them; there is none if one of them fails. -/
def writeAll (d : Draft σ) (root : NodeId) : List (Path × α) → Option (Draft σ × List NodeId)
  | [] => some (d, [])
  | (path, a) :: rest =>
    match d.update root path (.put (.leaf a)) with
    | (d, .ok (some next)) => (d.writeAll next rest).map fun (d, roots) => (d, next :: roots)
    | _ => none

variable [LawfulStore σ] {s : σ} {root : NodeId} {d d' : Draft σ} {pos pos' : NodeId → Path}

/-! ## One writing -/

/-- Nothing is written below a leaf. -/
theorem descend_leaf {i : NodeId} {a b : α} (h : get? d.store i = some (.leaf b)) {path : Path}
    (hne : path ≠ []) : (d.descend i (.put (.leaf a)) path).2 = false := by
  obtain ⟨key, rest, rfl⟩ := List.exists_cons_of_ne_nil hne
  cases rest with
  | nil =>
    have hleaf : get? (Store.push d.store (.leaf a)) i = some (.leaf b) :=
      (get?_push_of_lt (lt_size_of_get? h) _).trans h
    simp [descend, stage, Draft.push, place?, hleaf, Entry.place?]
  | cons next rest => simp [descend, child?, h, Entry.child?]

/-- The current root is the copy of the root, or the root itself as long as there is no copy. -/
def Rooted (root : NodeId) (d : Draft σ) (pos : NodeId → Path) (current : NodeId) : Prop :=
  (current ∈ d.copies ∧ pos current = []) ∨ (d.copies = [] ∧ current = root)

/-- The root is copied by the first writing, and its copy is the root of all later ones. -/
theorem Charted.own (h : Charted s root d pos) {current : NodeId}
    (hr : Rooted root d pos current) (hroot : root < size s)
    (hleaf : ∀ a, get? (d.own current).1.store (d.own current).2 ≠ some (.leaf a)) :
    ∃ pos', Advances s root d pos 0 {[]} (d.own current).1 pos' ∧
      (d.own current).2 ∈ (d.own current).1.copies ∧ pos' (d.own current).2 = [] := by
  obtain ⟨hmem, hpos⟩ | ⟨hnone, rfl⟩ := hr
  · rw [own_of_mem hmem]
    have hadvance := h.revisit hmem
    rw [hpos] at hadvance
    exact ⟨pos, hadvance, hmem, hpos⟩
  · obtain ⟨e, he⟩ := exists_get?_of_lt hroot
    have hout : current ∉ d.copies := by simp [hnone]
    have hd := (h.grown.same current hroot).trans he
    rw [own_of_notMem hout hd] at hleaf ⊢
    rw [get?_copy_self] at hleaf
    have hc := Entry.isContainer_of_ne_leaf fun a ha => hleaf a (congrArg some ha)
    exact ⟨_, h.top hnone he hc, (mem_copy d e).2 (.inl rfl), label_self _⟩

section Stored

variable (hstored : ∀ i, Relation.ReflTransGen (Links s) root i → i < size s)

include hstored

/-- Going one step down from a copy comes to the copy for the position there. -/
theorem Charted.step (h : Charted s root d pos) {i o child : NodeId} (hi : i ∈ d.copies)
    (ho : locate? s ([], root) (pos i) = some (pos i, o)) {key : Key}
    (hchild : child? d.store i key = some child) {st : σ}
    (hst : place? (d.own child).1.store i key (some (d.own child).2) = some st)
    (hleaf : ∀ a, get? st (d.own child).2 ≠ some (.leaf a)) :
    ∃ y e pos', step? s (pos i, o) key = some y ∧ get? s y.2 = some e ∧ e.isContainer = true ∧
      Advances s root d pos 0 {y.1} { (d.own child).1 with store := st } pos' ∧
      (d.own child).2 ∈ (d.own child).1.copies ∧ pos' (d.own child).2 = y.1 := by
  obtain ⟨o', old, new, ho', hold, hc, hnew, hslots, hchildren⟩ := h.stands i hi
  obtain rfl : o = o' := (Prod.mk.inj (Option.some.inj (ho.symm.trans ho'))).2
  have hjchild : new.child? key = some child := by rwa [child?, hnew] at hchild
  obtain ⟨slot, hslot⟩ := Entry.exists_slot hjchild
  have hslot' : old.slot? key = some slot := (hslots key).symm.trans hslot
  -- what was copied anew is no leaf
  have hcontainer {e : Entry α} (hout : child ∉ d.copies) (he : get? d.store child = some e) :
      e.isContainer = true := by
    rw [own_of_notMem hout he] at hst hleaf
    obtain ⟨-, -, -, -, -, hrest⟩ := exists_place? hst
    have hne : size d.store ≠ i := Nat.ne_of_gt (h.stands i hi).lt_size
    rw [hrest _ hne, get?_copy_self] at hleaf
    exact Entry.isContainer_of_ne_leaf fun a ha => hleaf a (congrArg some ha)
  obtain hkept | hmade := hchildren key slot child hslot hjchild
  · -- the child is an old container, and the position gets its copy now
    have hlt : child < size s :=
      hstored child ((reflTransGen_of_locate? ho).tail (links_of_child? hold hkept))
    obtain ⟨e, he⟩ := exists_get?_of_lt hlt
    have hd : get? d.store child = some e := (h.grown.same child hlt).trans he
    have hout : child ∉ d.copies := fun hmem => Nat.not_le_of_lt hlt (h.grown.copies child hmem)
    have hstep : step? s (pos i, o) key = some (pos i ++ [slot], child) :=
      step?_eq_some_iff.2 ⟨old, slot, child, hold, hslot', hkept, rfl⟩
    have hec := hcontainer hout hd
    rw [own_of_notMem hout hd] at hst ⊢
    have hadvance := h.enter hi hnew hslot hjchild hlt (locate?_step ho hstep) he hec hst
    exact ⟨_, e, _, hstep, he, hec, hadvance, (mem_copy d e).2 (.inl rfl), label_self _⟩
  · cases hmade with
    | copied hmem hpos =>
      -- the child is the copy for the position already
      obtain ⟨o', old', -, ho', hold', hc', -⟩ := h.stands child hmem
      have hstep : step? s (pos i, o) key = some (pos child, o') := by
        rw [← step?_slot hold hslot', ← locate?_snoc ho, ← hpos, ho']
      rw [own_of_mem hmem] at hst ⊢
      have hadvance := (h.revisit hmem).trans (h.place hi hnew hslot (.copied hmem hpos) hst)
      rw [Set.union_empty] at hadvance
      exact ⟨_, old', pos, hstep, hold', hc', hadvance, hmem, rfl⟩
    | written hout _ a ha => exact absurd (hcontainer hout ha) (by simp [Entry.isContainer])

/-- Writing below a copy makes the copies for the positions on the way that had none. -/
theorem Charted.descend (h : Charted s root d pos) {i o : NodeId} (hi : i ∈ d.copies)
    (ho : locate? s ([], root) (pos i) = some (pos i, o)) {key : Key} {rest : Path} {a : α}
    (hdone : (d.descend i (.put (.leaf a)) (key :: rest)).2 = true) :
    ∃ pos', Advances s root d pos 1 (below s (pos i, o) (key :: rest))
        (d.descend i (.put (.leaf a)) (key :: rest)).1 pos' ∧
      ∀ q, q <+: (key :: rest).dropLast → (position? s (pos i, o) q).isSome := by
  induction rest generalizing d pos i o key with
  | nil =>
    simp only [Draft.descend, stage] at hdone ⊢
    cases hst : place? (d.push (.leaf a)).1.store i key (some (d.push (.leaf a)).2) with
    | none => simp [hst] at hdone
    | some st =>
      have hpush := h.push a
      obtain ⟨new, new', hnew, hplace, -⟩ := exists_place? hst
      obtain ⟨slot, hslot⟩ := Entry.exists_slot (Entry.child?_place hplace)
      rw [Entry.slot?_place hplace] at hslot
      have hmade : Made s (d.push (.leaf a)).1 pos (pos i ++ [slot]) (d.push (.leaf a)).2 :=
        .written h.size_notMem h.grown.grows a (get?_push_size d.store _)
      have hall := hpush.trans (hpush.charted.place hi hnew hslot hmade hst)
      rw [Set.union_empty, ← below_singleton s (pos i, o) key] at hall
      refine ⟨pos, hall, fun q hq => ?_⟩
      obtain rfl := List.prefix_nil.1 hq
      rw [(h.stands i hi).position?_nil ho]
      rfl
  | cons next rest ih =>
    rw [Draft.descend] at hdone ⊢
    cases hchild : child? d.store i key with
    | none => simp [hchild] at hdone
    | some child =>
      simp only [hchild] at hdone ⊢
      cases hst : place? (d.own child).1.store i key (some (d.own child).2) with
      | none => simp [hst] at hdone
      | some st =>
        simp only [hst] at hdone ⊢
        have hleaf (b : α) : get? st (d.own child).2 ≠ some (.leaf b) := fun hb => by
          have hd : get? { (d.own child).1 with store := st }.store (d.own child).2 =
            some (.leaf b) := hb
          rw [descend_leaf hd (by simp)] at hdone
          cases hdone
        obtain ⟨⟨p, o'⟩, e, pos', hstep, he, hc, hadvance, hmem, rfl⟩ :=
          h.step hstored hi ho hchild hst hleaf
        obtain ⟨pos'', hrest, hsome⟩ := ih hadvance.charted hmem (locate?_step ho hstep) hdone
        have hall := hadvance.trans hrest
        rw [← before_eq (position?_nil he hc), ← below_cons hstep] at hall
        refine ⟨pos'', hall, fun q hq => ?_⟩
        cases q with
        | nil =>
          rw [(h.stands i hi).position?_nil ho]
          rfl
        | cons k q =>
          obtain ⟨rfl, hq'⟩ := List.cons_prefix_cons.1 hq
          rw [position?_cons hstep]
          exact hsome q hq'

/-- Writing a leaf makes the copies for the positions in front of it that had none. -/
theorem Charted.update (h : Charted s root d pos) {current next : NodeId}
    (hr : Rooted root d pos current)
    {path : Path} (hne : path ≠ []) {a : α}
    (hok : d.update current path (.put (.leaf a)) = (d', .ok (some next))) :
    ∃ pos', Advances s root d pos 1 (passed s root [path]) d' pos' ∧
      next ∈ d'.copies ∧ pos' next = [] ∧ (current ∈ d.copies → next = current) ∧
      ∀ q, q <+: path.dropLast → (position? s ([], root) q).isSome := by
  obtain ⟨key, rest, rfl⟩ := List.exists_cons_of_ne_nil hne
  have hupdate : next = (d.own current).2 ∧
      (d.own current).1.descend (d.own current).2 (.put (.leaf a)) (key :: rest) = (d', true) := by
    simp only [Draft.update] at hok
    generalize (d.own current).1.descend (d.own current).2 (.put (.leaf a)) (key :: rest) =
      outcome at hok ⊢
    obtain ⟨d'', done⟩ := outcome
    cases done with
    | false => cases hok
    | true =>
      obtain ⟨rfl, hnext⟩ := Prod.mk.inj hok
      exact ⟨(Option.some.inj (Except.ok.inj hnext)).symm, rfl⟩
  obtain ⟨rfl, hdescend⟩ := hupdate
  have hdone := congrArg Prod.snd hdescend
  obtain rfl := congrArg Prod.fst hdescend
  obtain ⟨pos₁, hown, hmem, hpos⟩ := h.own hr (hstored root .refl) fun b hb => by
    rw [descend_leaf hb (by simp)] at hdone
    cases hdone
  have ho : locate? s ([], root) (pos₁ (d.own current).2) =
      some (pos₁ (d.own current).2, root) := by
    rw [hpos]
    rfl
  obtain ⟨pos₂, hwrite, hsome⟩ := hown.charted.descend hstored hmem ho hdone
  rw [hpos] at hwrite hsome
  have hall := hown.trans hwrite
  rw [← before_eq (position?_nil_of_isSome (hsome [] List.nil_prefix)), ← coe_passed] at hall
  obtain ⟨hmem', hpos'⟩ := hwrite.kept _ hmem
  exact ⟨pos₂, hall, hmem', hpos'.trans hpos, fun hc => by rw [own_of_mem hc], hsome⟩

/-! ## Many writings -/

theorem Charted.writeAll (h : Charted s root d pos) {current : NodeId}
    (hr : Rooted root d pos current)
    {writes : List (Path × α)} (hpaths : ∀ w ∈ writes, w.1 ≠ []) {roots : List NodeId}
    (hw : d.writeAll current writes = some (d', roots)) :
    ∃ pos' r, Advances s root d pos writes.length (passed s root (writes.map Prod.fst)) d' pos' ∧
      roots = List.replicate writes.length r ∧ (current ∈ d.copies → r = current) ∧
      ∀ w ∈ writes, ∀ q, q <+: w.1.dropLast → (position? s ([], root) q).isSome := by
  induction writes generalizing d pos current roots with
  | nil =>
    obtain ⟨rfl, rfl⟩ := Prod.mk.inj (Option.some.inj hw)
    refine ⟨pos, current, ⟨h, fun i hi => ⟨hi, rfl⟩, rfl, fun p => ?_⟩, rfl, fun _ => rfl, ?_⟩
    · simp [passed]
    · simp
  | cons w writes ih =>
    obtain ⟨path, a⟩ := w
    obtain ⟨hne, hrests⟩ := List.forall_mem_cons.1 hpaths
    rw [Draft.writeAll] at hw
    cases hupdate : d.update current path (.put (.leaf a)) with
    | mk d₁ result =>
      rw [hupdate] at hw
      cases result with
      | error e => cases hw
      | ok next? =>
        cases next? with
        | none => cases hw
        | some next =>
          obtain ⟨⟨d₂, rest⟩, hrest, heq⟩ := Option.map_eq_some_iff.1 hw
          obtain ⟨rfl, rfl⟩ := Prod.mk.inj heq
          obtain ⟨pos₁, hfirst, hmem, hpos, hsame, hsome⟩ := h.update hstored hr hne hupdate
          obtain ⟨pos₂, r, hall, hroots, hr', hsome'⟩ :=
            ih hfirst.charted (.inl ⟨hmem, hpos⟩) hrests hrest
          obtain rfl := hr' hmem
          have htotal := hfirst.trans hall
          rw [← coe_passed_cons, Nat.add_comm] at htotal
          refine ⟨pos₂, r, htotal, ?_, hsame, List.forall_mem_cons.2 ⟨hsome, hsome'⟩⟩
          rw [hroots]
          rfl

end Stored

/-- Leaves are written one after the other, each into the tree that the writing before gave. Every
root after the first is the first one. Every proper prefix of a path leads to the position of a
container below the root that the writings started from, and the store has grown by the leaves and
by one copy for each of these positions. A slot is the same one however a key spells it, and a
container that stands in two places has two positions.

The ids below the root have to be those of entries: an id without an entry would come to be that of
a copy. -/
theorem writeAll_copies (s : σ) (root : NodeId)
    (hstored : ∀ i, Relation.ReflTransGen (Links s) root i → i < size s)
    (writes : List (Path × α)) (hpaths : ∀ w ∈ writes, w.1 ≠ []) {d : Draft σ}
    {roots : List NodeId} (h : Draft.writeAll { store := s } root writes = some (d, roots)) :
    (∃ r, roots = List.replicate writes.length r) ∧
    (∀ w ∈ writes, ∀ q, q <+: w.1 → q ≠ w.1 → (position? s ([], root) q).isSome) ∧
    size d.store = size s + writes.length + (passed s root (writes.map Prod.fst)).card := by
  have hstart : Charted s root { store := s } fun _ => [] := by
    refine ⟨⟨⟨Nat.le_refl _, fun _ _ => rfl, ?_⟩, List.nodup_nil, ?_, ?_⟩, ?_⟩ <;> simp
  obtain ⟨pos, r, hadvance, hroots, -, hsome⟩ :=
    hstart.writeAll hstored (.inr ⟨rfl, rfl⟩) hpaths h
  refine ⟨⟨r, hroots⟩, fun w hw q hq hne => hsome w hw q ?_, ?_⟩
  · obtain ⟨rest, hrest⟩ := hq
    have hnil : rest ≠ [] := by
      rintro rfl
      exact hne (q.append_nil.symm.trans hrest)
    exact ⟨rest.dropLast, by rw [← hrest, List.dropLast_append_of_ne_nil hnil]⟩
  · have himage : d.copies.toFinset.image pos = passed s root (writes.map Prod.fst) := by
      ext p
      simpa using hadvance.labelled p
    have hcard : (passed s root (writes.map Prod.fst)).card = d.copies.length := by
      rw [← himage, Finset.card_image_of_injOn, List.toFinset_card_of_nodup hadvance.charted.nodup]
      intro i hi j hj
      exact hadvance.charted.inj i (by simpa using hi) j (by simpa using hj)
    have hcounted := hadvance.counted
    simp only [List.length_nil, Nat.add_zero] at hcounted
    rw [hcounted, hcard]

/-- Writings below a mapping that contains itself. They pass a mapping in two places of a sequence,
one of which is spelled in two ways, come back to the first mapping, go to the end of a sequence and
put a leaf in the place of a copy. -/
def laps : List (Path × Nat) :=
  [([.field "a", .index 0, .field "x"], 1), ([.field "a", .field "0", .field "y"], 2),
    ([.field "a", .field "1", .field "x"], 3),
    ([.field "b", .index 1, .field "a", .index 2], 4), ([.field "a", .index 0], 5)]

theorem writeAll_copies_laps : ∃ d, writeAll { store := looped } 3 laps =
    some (d, List.replicate 5 5) ∧ size d.store = size looped + 5 + 7 := by
  have hlinks : ∀ i j, Links looped i j → j < size looped := by
    rintro i j ⟨e, key, he, hmem⟩
    have hall : ∀ i < 5, ∀ e ∈ get? looped i, ∀ x ∈ e.children, x.2 < 5 := by decide
    exact hall i (lt_size_of_get? he) e he _ hmem
  have hstored : ∀ i, Relation.ReflTransGen (Links looped) 3 i → i < size looped := by
    intro i hi
    cases hi with
    | refl => decide
    | tail _ hlink => exact hlinks _ _ hlink
  have hpaths : ∀ w ∈ laps, w.1 ≠ [] := by decide
  have hroots : (writeAll { store := looped } 3 laps).map Prod.snd = some (List.replicate 5 5) := by
    decide
  obtain ⟨⟨d, roots⟩, h, rfl⟩ := Option.map_eq_some_iff.1 hroots
  obtain ⟨-, -, hsize⟩ := writeAll_copies looped 3 hstored laps hpaths h
  have hcard : (passed looped 3 (laps.map Prod.fst)).card = 7 := by decide
  exact ⟨d, h, by rw [hsize, hcard]; rfl⟩

end Draft

end ValueResolution
