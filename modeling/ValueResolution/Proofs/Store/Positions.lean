import Mathlib.Data.List.Infix
import ValueResolution.Proofs.Store.Acyclic
import ValueResolution.Proofs.Store.Isolation
/-!
# Positions

Several keys can address one slot of a container: a sequence takes a field whose text is a numeral,
and a mapping takes a number for its text. The container has one spelling of its own for the slot
(`Entry.slot?`). The position of an entry below a root is a path in the spelling of the containers
it goes through (`Store.locate?`), so two paths go through the same position exactly when they take
the same slots, and a container that stands in two places has two positions.

Writing a child leaves the spelling of a container as it is and changes one slot
(`Entry.slot?_place`, `Entry.child?_place_or`).
-/

set_option autoImplicit false

namespace ValueResolution

namespace Entry

variable {α : Type} {e e' : Entry α} {key key' slot : Key} {child : NodeId}

theorem isContainer_of_ne_leaf (h : ∀ a, e ≠ leaf a) : e.isContainer = true := by
  cases e with
  | leaf a => exact absurd rfl (h a)
  | map _ | seq _ => rfl

/-- The slot that a key addresses, in the spelling of the container. -/
def slot? (e : Entry α) (key : Key) : Option Key :=
  match e with
  | leaf _ => none
  | map _ => some (.field key.text)
  | seq _ => key.index?.map .index

/-- A slot is spelled as it is. -/
theorem slot?_slot (h : e.slot? key = some slot) : e.slot? slot = some slot := by
  cases e with
  | leaf a => cases h
  | map children =>
    obtain rfl := Option.some.inj h
    rfl
  | seq items =>
    obtain ⟨i, -, rfl⟩ := Option.map_eq_some_iff.1 h
    rfl

/-- Keys of one slot lead to the same child. -/
theorem child?_congr (h : e.slot? key = e.slot? key') : e.child? key = e.child? key' := by
  cases e with
  | leaf a => rfl
  | map children => rw [child?, child?, Key.field.inj (Option.some.inj h)]
  | seq items =>
    have hindex : key.index? = key'.index? :=
      Option.map_injective (fun _ _ => Key.index.inj) h
    rw [child?, child?, hindex]

/-- The name of a slot is itself a key of it. -/
theorem child?_slot (h : e.slot? key = some slot) : e.child? slot = e.child? key :=
  child?_congr ((slot?_slot h).trans h.symm)

/-- A child stands in a slot. -/
theorem exists_slot (h : e.child? key = some child) : ∃ slot, e.slot? key = some slot := by
  cases e with
  | leaf a => cases h
  | map children => exact ⟨_, rfl⟩
  | seq items =>
    obtain ⟨i, hi, -⟩ := Option.bind_eq_some_iff.1 h
    exact ⟨.index i, by rw [slot?, hi]; rfl⟩

/-- Writing a child that is there makes no slots and takes none away. -/
theorem slot?_place (h : e.place? key (some child) = some e') (key' : Key) :
    e'.slot? key' = e.slot? key' := by
  cases e with
  | leaf a => cases h
  | map children =>
    obtain rfl := Option.some.inj h
    rfl
  | seq items =>
    obtain ⟨i, -, -, rfl⟩ := place?_seq_some h
    rfl

/-- After a child was written, a key of its slot leads to it, and any other to where it led. -/
theorem child?_place_or (h : e.place? key (some child) = some e') (key' : Key) :
    e.slot? key' = e.slot? key ∧ e'.child? key' = some child ∨ e'.child? key' = e.child? key' := by
  by_cases hslot : e.slot? key' = e.slot? key
  · refine .inl ⟨hslot, ?_⟩
    rw [← child?_place h]
    exact child?_congr (by rw [slot?_place h, slot?_place h, hslot])
  · right
    have hshares := place?_shares h
    cases e with
    | leaf a => cases h
    | map children =>
      obtain rfl := Option.some.inj h
      exact hshares _ fun htext => hslot (by rw [slot?, slot?, htext])
    | seq items =>
      obtain ⟨i, hi, -, rfl⟩ := place?_seq_some h
      obtain ⟨j, hj, hsame⟩ := hshares
      cases hk : key'.index? with
      | none => simp [child?, hk]
      | some k =>
        have hne : k ≠ j := by
          rintro rfl
          exact hslot (by rw [slot?, slot?, hk, hj])
        simpa [child?, hk] using hsame k hne

end Entry

namespace Store

variable {σ α : Type} [Store σ α] {s : σ}

/-- A step from an entry, whose position is given, to the child under a key. -/
def step? (s : σ) (x : Path × NodeId) (key : Key) : Option (Path × NodeId) := do
  let e ← get? s x.2
  return (x.1 ++ [← e.slot? key], ← e.child? key)

/-- The position and the entry that a path leads to from an entry with the given position. -/
def locate? (s : σ) (x : Path × NodeId) (path : Path) : Option (Path × NodeId) :=
  path.foldlM (step? s) x

/-- The position that a path leads to, if there is a container. -/
def position? (s : σ) (x : Path × NodeId) (path : Path) : Option Path :=
  (locate? s x path).bind fun y => if (get? s y.2).any Entry.isContainer then some y.1 else none

/-- The positions of the containers below a root that stand in front of the ends of paths. -/
def passed (s : σ) (root : NodeId) (paths : List Path) : Finset Path :=
  (paths.flatMap fun path => path.dropLast.inits.filterMap (position? s ([], root))).toFinset

/-- The positions in front of the ends of paths are those that their beginnings lead to. -/
theorem mem_passed {root : NodeId} {paths : List Path} {p : Path} : p ∈ passed s root paths ↔
    ∃ path ∈ paths, ∃ q, q <+: path.dropLast ∧ position? s ([], root) q = some p := by
  simp [passed, List.mem_inits]

variable {x y : Path × NodeId} {key : Key} {rest : Path}

/-- A step goes into a slot with a child, and adds the slot to the position. -/
theorem step?_eq_some_iff : step? s x key = some y ↔ ∃ e slot child, get? s x.2 = some e ∧
    e.slot? key = some slot ∧ e.child? key = some child ∧ y = (x.1 ++ [slot], child) := by
  simp only [step?, bind, Option.bind_eq_some_iff, pure, Option.some.injEq, eq_comm (a := y),
    exists_and_left]

theorem position?_nil {e : Entry α} (he : get? s x.2 = some e) (hc : e.isContainer = true) :
    position? s x [] = some x.1 := by
  simp [position?, locate?, he, hc]

theorem position?_cons (h : step? s x key = some y) : position? s x (key :: rest) =
    position? s y rest := by
  rw [position?, locate?, List.foldlM_cons, h]
  rfl

/-- The last step of a path is taken from where the keys before it lead. -/
theorem locate?_snoc {path : Path} (h : locate? s x path = some y) :
    locate? s x (path ++ [key]) = step? s y key := by
  rw [locate?, List.foldlM_append, ← locate?, h]
  simp

theorem position?_nil_of_isSome (h : (position? s x []).isSome) : position? s x [] = some x.1 := by
  obtain ⟨p, hp⟩ := Option.isSome_iff_exists.1 h
  obtain ⟨y, hy, hif⟩ := Option.bind_eq_some_iff.1 hp
  obtain rfl := Option.some.inj hy
  exact hp.trans (Option.ite_none_right_eq_some.1 hif).2.symm

/-- The positions of the containers in front of the end of a path. -/
def before (s : σ) (x : Path × NodeId) (path : Path) : Set Path :=
  {p | ∃ q, q <+: path.dropLast ∧ position? s x q = some p}

/-- The same without the position that the path starts from. -/
def below (s : σ) (x : Path × NodeId) (path : Path) : Set Path :=
  {p | ∃ q, q <+: path.dropLast ∧ q ≠ [] ∧ position? s x q = some p}

/-- The positions on the way are the one where it begins and those below. -/
theorem before_eq {path : Path} (h : position? s x [] = some x.1) :
    before s x path = {x.1} ∪ below s x path := by
  ext p
  constructor
  · rintro ⟨q, hq, hp⟩
    by_cases hnil : q = []
    · subst hnil
      exact .inl (Option.some.inj (hp.symm.trans h))
    · exact .inr ⟨q, hq, hnil, hp⟩
  · rintro (rfl | ⟨q, hq, -, hp⟩)
    · exact ⟨[], List.nil_prefix, h⟩
    · exact ⟨q, hq, hp⟩

theorem below_singleton (s : σ) (x : Path × NodeId) (key : Key) : below s x [key] = ∅ :=
  Set.eq_empty_of_forall_notMem fun _ ⟨_, hq, hne, _⟩ => hne (List.prefix_nil.1 hq)

/-- The positions below an entry on a path are those from its child on. -/
theorem below_cons {next : Key} (hy : step? s x key = some y) :
    below s x (key :: next :: rest) = before s y (next :: rest) := by
  ext p
  constructor
  · rintro ⟨q, hq, hne, hp⟩
    obtain ⟨k, q, rfl⟩ := List.exists_cons_of_ne_nil hne
    obtain ⟨rfl, hrest⟩ := List.cons_prefix_cons.1 hq
    rw [position?_cons hy] at hp
    exact ⟨q, hrest, hp⟩
  · rintro ⟨q, hq, hp⟩
    exact ⟨key :: q, List.cons_prefix_cons.2 ⟨rfl, hq⟩, by simp, (position?_cons hy).trans hp⟩

theorem coe_passed (s : σ) (root : NodeId) (path : Path) :
    (passed s root [path] : Set Path) = before s ([], root) path := by
  ext p
  simp [mem_passed, before]

theorem coe_passed_cons (s : σ) (root : NodeId) (path : Path) (paths : List Path) :
    (passed s root (path :: paths) : Set Path) =
      (passed s root [path] : Set Path) ∪ (passed s root paths : Set Path) := by
  ext p
  simp [mem_passed]

/-- The slot of a key is a key that leads to the same place. -/
theorem step?_slot {e : Entry α} {slot : Key} (he : get? s x.2 = some e)
    (hslot : e.slot? key = some slot) : step? s x slot = step? s x key := by
  simp [step?, he, hslot, Entry.slot?_slot hslot, Entry.child?_slot hslot]

/-- A position leads to the entry that it is the position of. -/
theorem locate?_step {root : NodeId} (hx : locate? s ([], root) x.1 = some x)
    (hy : step? s x key = some y) : locate? s ([], root) y.1 = some y := by
  obtain ⟨e, slot, child, he, hslot, -, rfl⟩ := step?_eq_some_iff.1 hy
  rw [locate?_snoc hx, step?_slot he hslot, hy]

theorem links_of_child? {i j : NodeId} {e : Entry α} (he : get? s i = some e)
    (h : e.child? key = some j) : Links s i j := by
  cases e with
  | leaf a => cases h
  | map children => exact links_of_mem_map he (Fields.mem_of_at? h)
  | seq items =>
    obtain ⟨k, -, hk⟩ := Option.bind_eq_some_iff.1 h
    exact links_of_mem_seq he (List.mem_of_getElem? hk)

/-- A path follows links of the store. -/
theorem reflTransGen_of_locate? {path : Path} (h : locate? s x path = some y) :
    Relation.ReflTransGen (Links s) x.2 y.2 := by
  induction path generalizing x with
  | nil =>
    obtain rfl := Option.some.inj h
    exact .refl
  | cons key rest ih =>
    obtain ⟨z, hz, hrest⟩ := Option.bind_eq_some_iff.1 (List.foldlM_cons.symm.trans h)
    obtain ⟨e, slot, child, he, -, hchild, rfl⟩ := step?_eq_some_iff.1 hz
    exact .head (links_of_child? he hchild) (ih hrest)

/-- Writing a child writes it into one entry of the store. -/
theorem exists_place? [LawfulStore σ] {s' : σ} {parent : NodeId} {key : Key}
    {child : Option NodeId} (h : place? s parent key child = some s') : ∃ e e',
      get? s parent = some e ∧ e.place? key child = some e' ∧ get? s' parent = some e' ∧
      ∀ i ≠ parent, get? s' i = get? s i := by
  obtain ⟨e, he, h⟩ := Option.bind_eq_some_iff.1 h
  obtain ⟨e', he', h⟩ := Option.bind_eq_some_iff.1 h
  refine ⟨e, e', he, he', ?_, fun i hi => ?_⟩
  · rw [LawfulStore.get?_replace h, if_pos rfl]
  · rw [LawfulStore.get?_replace h, if_neg hi]

end Store

end ValueResolution
