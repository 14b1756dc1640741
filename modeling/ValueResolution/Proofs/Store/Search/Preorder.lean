import ValueResolution.Proofs.Store.Search.Tree
/-!
# The order of what a search finds

Where the store below a root is a tree (`Store.Treelike`), a search finds the entries that pass and
stand below no entry that passes (`Store.Outermost`). It finds them in the reverse of the order in
which a depth-first walk comes to them, a container before its children and the children in the
order of their container (`Store.Precedes`). So of two items of a sequence the later one is found
first. This is `Store.findPaths_outermost`; the test may go by the entry and by its path.

The store is a tree below a root exactly when the root unfolds into a tree that has every container
once (`Store.treelike_iff`). What is outermost in the unfolding is listed child by child
(`Unfolding.outermost_nil`), and this is how its members and its order are compared with those of
the store.
-/

set_option autoImplicit false

namespace ValueResolution

namespace Unfolding

variable {α : Type}

/-- Induction over an unfolding, with the hypothesis for every child that is listed. -/
@[elab_as_elim]
theorem listed_induction {motive : Unfolding α → Prop}
    (h : ∀ u : Unfolding α, (∀ c ∈ u.listed, motive c.2) → motive u) (u : Unfolding α) :
    motive u := by
  induction u using Unfolding.induction with
  | leaf i a => exact h _ (by simp [listed])
  | map i children ih =>
    refine h _ fun c hc => ?_
    obtain ⟨child, hchild, rfl⟩ := List.mem_map.1 hc
    exact ih child hchild
  | seq i items ih =>
    refine h _ fun c hc => ?_
    obtain ⟨k, hk, rfl⟩ := List.mem_mapIdx.1 hc
    exact ih _ (List.getElem_mem hk)

theorem beneath_append (u : Unfolding α) (base path : Path) :
    u.beneath (base ++ path) = (u.beneath path).map fun x => (base ++ x.1, x.2) := by
  simp [beneath, Function.comp_def]

/-- The paths of what is outermost go on from the path of the root. -/
theorem outermost_append (test : Entry α → Path → Bool) (u : Unfolding α) (base path : Path) :
    u.outermost test (base ++ path) =
      (u.outermost (fun e p => test e (base ++ p)) path).map (base ++ ·) := by
  induction u using listed_induction generalizing path with
  | h u ih =>
    rw [outermost_eq, outermost_eq]
    split
    · rfl
    · rw [beneath_append, List.flatMap_map, List.map_flatMap]
      refine List.flatMap_congr fun x hx => ?_
      obtain ⟨c, hc, rfl⟩ := List.mem_map.1 hx
      exact ih c hc (path ++ [c.1])

/-- What is outermost is listed child by child, unless the root passes. -/
theorem outermost_nil (test : Entry α → Path → Bool) (u : Unfolding α) :
    u.outermost test [] = if test u.entry [] then [[]] else
      u.listed.flatMap fun c =>
        (c.2.outermost (fun e p => test e (c.1 :: p)) []).map (c.1 :: ·) := by
  rw [outermost_eq, beneath, List.flatMap_map]
  congr 1
  exact List.flatMap_congr fun c _ => outermost_append test c.2 [c.1] []

theorem containers_leaf {u : Unfolding α} (h : u.entry.isContainer = false) :
    u.containers = [] := by
  cases u with
  | leaf i a => rfl
  | map i children => cases h
  | seq i items => cases h

theorem containers_eq_listed {u : Unfolding α} (h : u.entry.isContainer = true) :
    u.containers = u.id :: u.listed.flatMap fun c => c.2.containers := by
  rw [containers_eq h [], beneath, List.flatMap_map]

end Unfolding

namespace Store

open Relation

variable {σ α : Type} [Store σ α] {s : σ} {via : NodeId → Prop} {i j k : NodeId} {key : Key}
variable {p q : Path} {e : Entry α}

/-! ## Ways, key by key -/

theorem Leads.eq_of_nil (h : Leads s via i [] j) : i = j := by
  cases h
  rfl

theorem Leads.of_cons (h : Leads s via i (key :: p) j) :
    ∃ k, Under s i key k ∧ Leads s via k p j := by
  cases h with
  | step _ h rest => exact ⟨_, h, rest⟩

/-- A child is a way of one key. -/
theorem Under.leads (h : Under s i key j) : Leads s (fun _ => True) i [key] j :=
  .step trivial h (.here j)

theorem Under.unique (hs : Tidy s) (hj : Under s i key j) (hk : Under s i key k) : j = k :=
  hj.leads.unique hs hk.leads

theorem Under.isContainer (h : Under s i key j) {e : Entry α} (he : get? s i = some e) :
    e.isContainer = true := by
  obtain ⟨e', he', hmem⟩ := h
  obtain rfl := Option.some.inj (he.symm.trans he')
  cases e with
  | leaf a => cases hmem
  | map children => rfl
  | seq items => rfl

namespace Holds

variable {u : Unfolding α}

theorem of_mem_listed (h : Holds s u) {c : Key × Unfolding α} (hc : c ∈ u.listed) :
    Holds s c.2 := by
  intro x hx
  refine h x ?_
  rw [u.entries_eq, u.inner_eq]
  exact List.mem_cons_of_mem _ (List.mem_flatMap.2 ⟨c, hc, hx⟩)

/-- The keys of a root lead to the roots of the children. -/
theorem under_iff (h : Holds s u) :
    Under s u.id key j ↔ ∃ c ∈ u.listed, c.1 = key ∧ c.2.id = j := by
  constructor
  · rintro ⟨e, he, hmem⟩
    obtain rfl := Option.some.inj (h.root.symm.trans he)
    rw [u.children_entry] at hmem
    obtain ⟨c, hc, heq⟩ := List.mem_map.1 hmem
    exact ⟨c, hc, Prod.mk.inj heq⟩
  · rintro ⟨c, hc, rfl, rfl⟩
    refine ⟨u.entry, h.root, ?_⟩
    rw [u.children_entry]
    exact List.mem_map_of_mem (f := fun c => (c.1, c.2.id)) hc

/-- The children of a root are listed under keys of their own. -/
theorem nodup_keys (hs : Tidy s) (h : Holds s u) : (u.listed.map Prod.fst).Nodup := by
  have hnodup := Entry.nodup_keys fun children heq => hs u.id children (heq ▸ h.root)
  rwa [u.children_entry, List.map_map] at hnodup

/-- Every entry of an unfolding stands at the end of a way from the root. -/
theorem exists_leads (h : Holds s u) {x : NodeId × Entry α} (hx : x ∈ u.entries) :
    ∃ p, Leads s (fun _ => True) u.id p x.1 := by
  induction u using Unfolding.listed_induction with
  | h u ih =>
    rw [u.entries_eq, u.inner_eq, List.mem_cons, List.mem_flatMap] at hx
    obtain rfl | ⟨c, hc, hx⟩ := hx
    · exact ⟨[], .here _⟩
    · obtain ⟨p, hp⟩ := ih c hc (h.of_mem_listed hc) hx
      exact ⟨c.1 :: p, .step trivial (h.under_iff.2 ⟨c, hc, rfl, rfl⟩) hp⟩

/-- A way from the root ends in the unfolding. -/
theorem mem_ids_of_leads (h : Holds s u) (hp : Leads s via u.id p j) : j ∈ u.ids := by
  induction u using Unfolding.listed_induction generalizing p with
  | h u ih =>
    cases p with
    | nil => exact hp.eq_of_nil ▸ u.id_mem_ids
    | cons key p =>
      obtain ⟨k, hk, hrest⟩ := hp.of_cons
      obtain ⟨c, hc, rfl, rfl⟩ := h.under_iff.1 hk
      have hmem := ih c hc (h.of_mem_listed hc) hrest
      rw [Unfolding.ids, u.entries_eq, u.inner_eq, List.map_cons, List.map_flatMap]
      exact List.mem_cons_of_mem _ (List.mem_flatMap.2 ⟨c, hc, hmem⟩)

/-- A container in a child stands at the end of a way that begins with the key of the child. -/
theorem exists_leads_container (h : Holds s u) {c : Key × Unfolding α} (hc : c ∈ u.listed)
    (hi : i ∈ c.2.containers) : (∃ e, get? s i = some e ∧ e.isContainer = true) ∧
      ∃ p, Leads s (fun _ => True) u.id (c.1 :: p) i := by
  obtain ⟨⟨i, e⟩, hx, rfl⟩ := List.mem_map.1 hi
  obtain ⟨hx, he⟩ := List.mem_filter.1 hx
  obtain ⟨p, hp⟩ := (h.of_mem_listed hc).exists_leads hx
  exact ⟨⟨e, h.of_mem_listed hc _ hx, he⟩, p, .step trivial (h.under_iff.2 ⟨c, hc, rfl, rfl⟩) hp⟩

/-- A way to a container goes on in a child that has the container in it. -/
theorem exists_child_container (h : Holds s u) (he : get? s i = some e)
    (hc : e.isContainer = true) (hp : Leads s via u.id (key :: p) i) :
    u.entry.isContainer = true ∧
      ∃ c ∈ u.listed, c.1 = key ∧ Leads s via c.2.id p i ∧ i ∈ c.2.containers := by
  obtain ⟨k, hk, hrest⟩ := hp.of_cons
  obtain ⟨c, hin, rfl, rfl⟩ := h.under_iff.1 hk
  have hheld := h.of_mem_listed hin
  exact ⟨hk.isContainer h.root, c, hin, rfl, hrest,
    hheld.mem_containers he hc (hheld.mem_ids_of_leads hrest)⟩

end Holds

/-! ## Trees in a store -/

/-- What can be reached from the root is a tree: all of it is in the store, and one way at most
leads to a container. A leaf may stand in many places. -/
structure Treelike (s : σ) (root : NodeId) : Prop where
  whole : ∀ i, ReflTransGen (Links s) root i → i < size s
  once : ∀ {i e p q}, get? s i = some e → e.isContainer = true →
    Leads s (fun _ => True) root p i → Leads s (fun _ => True) root q i → p = q

namespace Treelike

/-- What is below a child is a tree too. -/
theorem under (h : Treelike s i) (hj : Under s i key j) : Treelike s j where
  whole k hk := h.whole k (.head (links_iff.2 ⟨key, hj⟩) hk)
  once he hc hp hq := (List.cons.inj (h.once he hc (.step trivial hj hp) (.step trivial hj hq))).2

theorem acyclic (h : Treelike s i) : Acyclic s i where
  whole := h.whole
  noLoop j hj hloop := by
    obtain ⟨p, hp⟩ := exists_leads_iff.2 hj
    obtain ⟨c, hne, hc⟩ := exists_leads_of_transGen hloop
    obtain ⟨key, c, rfl⟩ := List.exists_cons_of_ne_nil hne
    obtain ⟨k, hk, -⟩ := hc.of_cons
    have ⟨e, he, _⟩ := hk
    have heq := h.once he (hk.isContainer he) hp (hp.append hc)
    simp at heq

/-- A container that is in the unfolding twice can be reached in two ways. -/
theorem nodup_containers (hs : Tidy s) {u : Unfolding α} (hu : Holds s u)
    (h : Treelike s u.id) : u.containers.Nodup := by
  induction u using Unfolding.listed_induction with
  | h u ih =>
    cases hc : u.entry.isContainer with
    | false => simp [Unfolding.containers_leaf hc]
    | true =>
      rw [Unfolding.containers_eq_listed hc, List.nodup_cons, List.nodup_flatMap]
      refine ⟨fun hmem => ?_, fun c hc => ?_, ?_⟩
      · obtain ⟨c, hc, hi⟩ := List.mem_flatMap.1 hmem
        obtain ⟨⟨e, he, hcont⟩, p, hp⟩ := hu.exists_leads_container hc hi
        simpa using h.once he hcont (.here _) hp
      · exact ih c hc (hu.of_mem_listed hc) (h.under (hu.under_iff.2 ⟨c, hc, rfl, rfl⟩))
      · refine (List.pairwise_map.1 (hu.nodup_keys hs)).imp_of_mem ?_
        intro a b ha hb hne i hia hib
        obtain ⟨⟨e, he, hcont⟩, p, hp⟩ := hu.exists_leads_container ha hia
        obtain ⟨-, q, hq⟩ := hu.exists_leads_container hb hib
        exact hne (List.cons.inj (h.once he hcont hp hq)).1

end Treelike

/-- In an unfolding that has every container once, one way at most leads to a container: a second
one would part from it at some child, and come back to what is in another. -/
theorem Holds.path_unique {u : Unfolding α} (hu : Holds s u) (hnodup : u.containers.Nodup)
    (he : get? s i = some e) (hc : e.isContainer = true)
    (hp : Leads s via u.id p i) (hq : Leads s via u.id q i) : p = q := by
  induction u using Unfolding.listed_induction generalizing p q with
  | h u ih =>
    have hloop : ∀ {key p}, Leads s via u.id (key :: p) i → u.id ≠ i := by
      rintro key p hp rfl
      obtain ⟨hcont, c, hin, -, -, hmem⟩ := hu.exists_child_container he hc hp
      rw [Unfolding.containers_eq_listed hcont, List.nodup_cons] at hnodup
      exact hnodup.1 (List.mem_flatMap.2 ⟨c, hin, hmem⟩)
    cases p with
    | nil =>
      cases q with
      | nil => rfl
      | cons key q => exact absurd hp.eq_of_nil (hloop hq)
    | cons key p =>
      cases q with
      | nil => exact absurd hq.eq_of_nil (hloop hp)
      | cons key' q =>
        obtain ⟨hcont, a, ha, rfl, hpa, hia⟩ := hu.exists_child_container he hc hp
        obtain ⟨-, b, hb, rfl, hqb, hib⟩ := hu.exists_child_container he hc hq
        rw [Unfolding.containers_eq_listed hcont, List.nodup_cons, List.nodup_flatMap] at hnodup
        obtain ⟨-, heach, hapart⟩ := hnodup
        have : Std.Symm (Function.onFun List.Disjoint fun c : Key × Unfolding α =>
            c.2.containers) := ⟨fun _ _ h => h.symm⟩
        obtain rfl : a = b := by
          by_contra hne
          exact hapart.forall ha hb hne hia hib
        rw [ih a ha (hu.of_mem_listed ha) (heach a ha) hpa hqb]

/-- An unfolding that has every container once makes a tree of the store. -/
theorem Holds.treelike [LawfulStore σ] {u : Unfolding α} (hu : Holds s u)
    (hnodup : u.containers.Nodup) : Treelike s u.id where
  whole := hu.acyclic.whole
  once he hc hp hq := hu.path_unique hnodup he hc hp hq

/-- The store is a tree below a root exactly when the root unfolds and has every container once. -/
theorem treelike_iff [LawfulStore σ] (hs : Tidy s) :
    Treelike s i ↔ ∃ u, Holds s u ∧ u.id = i ∧ u.containers.Nodup := by
  constructor
  · intro h
    obtain ⟨-, u, hu, rfl, -⟩ := exists_unfolds_iff.2 h.acyclic
    exact ⟨u, hu, rfl, h.nodup_containers hs hu⟩
  · rintro ⟨u, hu, rfl, hnodup⟩
    exact hu.treelike hnodup

/-! ## What is found -/

/-- The path leads from the root to an entry that passes. -/
def PassesAt (s : σ) (root : NodeId) (test : Entry α → Path → Bool) (path : Path) : Prop :=
  ∃ i e, Leads s (fun _ => True) root path i ∧ get? s i = some e ∧ test e path = true

/-- The path leads to an entry that passes, and above it there is none. -/
def Outermost (s : σ) (root : NodeId) (test : Entry α → Path → Bool) (path : Path) : Prop :=
  PassesAt s root test path ∧ ∀ above, above <+: path → above ≠ path → ¬ PassesAt s root test above

variable {test : Entry α → Path → Bool}

theorem passesAt_nil (he : get? s i = some e) : PassesAt s i test [] ↔ test e [] = true := by
  constructor
  · rintro ⟨j, e', hj, he', ht⟩
    obtain rfl := hj.eq_of_nil
    obtain rfl := Option.some.inj (he.symm.trans he')
    exact ht
  · exact fun ht => ⟨i, e, .here i, he, ht⟩

theorem passesAt_cons : PassesAt s i test (key :: p) ↔
    ∃ j, Under s i key j ∧ PassesAt s j (fun e q => test e (key :: q)) p := by
  constructor
  · rintro ⟨k, e, hk, he, ht⟩
    obtain ⟨j, hj, hrest⟩ := hk.of_cons
    exact ⟨j, hj, k, e, hrest, he, ht⟩
  · rintro ⟨j, hj, k, e, hrest, he, ht⟩
    exact ⟨k, e, .step trivial hj hrest, he, ht⟩

theorem outermost_nil (he : get? s i = some e) : Outermost s i test [] ↔ test e [] = true := by
  rw [Outermost, passesAt_nil he]
  exact and_iff_left fun above h hne => absurd (List.prefix_nil.1 h) hne

theorem outermost_cons (hs : Tidy s) (he : get? s i = some e) : Outermost s i test (key :: p) ↔
    test e [] = false ∧ ∃ j, Under s i key j ∧ Outermost s j (fun e q => test e (key :: q)) p := by
  constructor
  · rintro ⟨hpass, habove⟩
    have hroot : test e [] = false := by
      simpa [passesAt_nil he] using habove [] List.nil_prefix (by simp)
    obtain ⟨j, hj, hpass⟩ := passesAt_cons.1 hpass
    refine ⟨hroot, j, hj, hpass, fun above h hne hat => ?_⟩
    exact habove (key :: above) (List.cons_prefix_cons.2 ⟨rfl, h⟩) (by simpa using hne)
      (passesAt_cons.2 ⟨j, hj, hat⟩)
  · rintro ⟨hroot, j, hj, hpass, habove⟩
    refine ⟨passesAt_cons.2 ⟨j, hj, hpass⟩, fun above h hne hat => ?_⟩
    cases above with
    | nil => simp [(passesAt_nil he).1 hat] at hroot
    | cons key' above =>
      obtain ⟨rfl, hprefix⟩ := List.cons_prefix_cons.1 h
      obtain ⟨k, hk, hat⟩ := passesAt_cons.1 hat
      obtain rfl := hj.unique hs hk
      exact habove above hprefix (by simpa using hne) hat

/-- What is outermost in an unfolding is outermost in the store. -/
theorem Holds.mem_outermost (hs : Tidy s) {u : Unfolding α} (hu : Holds s u) :
    p ∈ u.outermost test [] ↔ Outermost s u.id test p := by
  induction u using Unfolding.listed_induction generalizing p test with
  | h u ih =>
    rw [Unfolding.outermost_nil]
    cases ht : test u.entry [] with
    | true =>
      cases p with
      | nil => simp [outermost_nil hu.root, ht]
      | cons key p => simp [outermost_cons hs hu.root, ht]
    | false =>
      cases p with
      | nil => simp [outermost_nil hu.root, ht]
      | cons key p =>
        rw [outermost_cons hs hu.root, if_neg (by simp), List.mem_flatMap]
        simp only [ht, true_and]
        constructor
        · rintro ⟨c, hc, hmem⟩
          obtain ⟨q, hq, heq⟩ := List.mem_map.1 hmem
          obtain ⟨rfl, rfl⟩ := List.cons.inj heq
          exact ⟨c.2.id, hu.under_iff.2 ⟨c, hc, rfl, rfl⟩, (ih c hc (hu.of_mem_listed hc)).1 hq⟩
        · rintro ⟨j, hj, hout⟩
          obtain ⟨c, hc, rfl, rfl⟩ := hu.under_iff.1 hj
          exact ⟨c, hc, List.mem_map_of_mem ((ih c hc (hu.of_mem_listed hc)).2 hout)⟩

/-! ## The order -/

/-- The order in which a depth-first walk from an entry comes to the paths below it. -/
inductive Precedes (s : σ) : NodeId → Path → Path → Prop where
  /-- An entry comes before what is in it. -/
  | inside {i : NodeId} {key : Key} {p : Path} : Precedes s i [] (key :: p)
  /-- What is in one child comes before what is in a later child. -/
  | apart {i j k : NodeId} {e : Entry α} {m n : Nat} {key key' : Key} {p q : Path}
      (he : get? s i = some e) (hj : e.children[m]? = some (key, j))
      (hk : e.children[n]? = some (key', k)) (h : m < n) : Precedes s i (key :: p) (key' :: q)
  /-- What is in one child comes in the order of the walk from there. -/
  | within {i j : NodeId} {key : Key} {p q : Path} (hj : Under s i key j)
      (h : Precedes s j p q) : Precedes s i (key :: p) (key :: q)

/-- A key has one place among the children. -/
theorem place_unique (hs : Tidy s) (he : get? s i = some e) {m n : Nat}
    (hj : e.children[m]? = some (key, j)) (hk : e.children[n]? = some (key, k)) : m = n := by
  have hnodup := Entry.nodup_keys fun children heq => hs i children (heq ▸ he)
  have hm : m < (e.children.map Prod.fst).length := by
    simpa using (List.getElem?_eq_some_iff.1 hj).1
  exact (List.getElem?_inj hm hnodup).1 (by simp [hj, hk])

/-- The order is strict: keys say which child they lead to, and at which place it is listed. -/
theorem Precedes.asymm (hs : Tidy s) (h : Precedes s i p q) : ¬ Precedes s i q p := by
  induction h with
  | inside =>
    intro h
    cases h
  | apart he hj hk hlt =>
    intro h
    cases h with
    | apart he' hj' hk' hlt' =>
      obtain rfl := Option.some.inj (he.symm.trans he')
      have := place_unique hs he hj hk'
      have := place_unique hs he hk hj'
      omega
    | within _ _ => exact hlt.ne (place_unique hs he hj hk)
  | within hj _ ih =>
    intro h
    cases h with
    | apart he hj' hk hlt => exact hlt.ne (place_unique hs he hj' hk)
    | within hk h =>
      obtain rfl := hj.unique hs hk
      exact ih h

/-- Only a sequence has children with indices, each at the place that its index says. -/
theorem index_of_children {e : Entry α} {m a : Nat} (h : e.children[m]? = some (.index a, j)) :
    a = m := by
  cases e with
  | leaf b => simp [Entry.children] at h
  | map children => simp [Entry.children] at h
  | seq items =>
    simp only [Entry.children, List.getElem?_mapIdx, Option.map_eq_some_iff, Prod.mk.injEq,
      Key.index.injEq] at h
    obtain ⟨_, -, rfl, -⟩ := h
    rfl

/-- Of two items of a sequence the one with the smaller index comes first. -/
theorem Precedes.index_le (hs : Tidy s) {c : Path} {a b : Nat}
    (h : Precedes s i (c ++ .index a :: p) (c ++ .index b :: q)) : a ≤ b := by
  induction c generalizing i with
  | nil =>
    cases h with
    | apart he hj hk hlt =>
      rw [index_of_children hj, index_of_children hk]
      exact hlt.le
    | within _ _ => exact le_refl a
  | cons key c ih =>
    cases h with
    | apart he hj hk hlt => exact absurd (place_unique hs he hj hk) hlt.ne
    | within _ h => exact ih h

/-- What is outermost in an unfolding is listed in the order of a depth-first walk. -/
theorem Holds.pairwise_outermost {u : Unfolding α} (hu : Holds s u) :
    (u.outermost test []).Pairwise (Precedes s u.id) := by
  induction u using Unfolding.listed_induction generalizing test with
  | h u ih =>
    rw [Unfolding.outermost_nil]
    split
    · exact List.pairwise_singleton _ _
    · refine List.pairwise_flatMap.2 ⟨fun c hc => ?_, ?_⟩
      · refine List.pairwise_map.2 ((ih c hc (hu.of_mem_listed hc)).imp fun h => ?_)
        exact .within (hu.under_iff.2 ⟨c, hc, rfl, rfl⟩) h
      · refine List.pairwise_iff_getElem.2 fun m n hm hn hlt x hx y hy => ?_
        obtain ⟨p, -, rfl⟩ := List.mem_map.1 hx
        obtain ⟨q, -, rfl⟩ := List.mem_map.1 hy
        have hchild : ∀ m (hm : m < u.listed.length),
            u.entry.children[m]? = some (u.listed[m].1, u.listed[m].2.id) := fun m hm => by
          rw [u.children_entry, List.getElem?_map, List.getElem?_eq_getElem hm]
          rfl
        exact .apart hu.root (hchild m hm) (hchild n hn) hlt

/-- In a tree a search finds exactly the entries that pass and have none that passes above them,
each of them once and in the reverse of the order of a depth-first walk; so the items of a sequence
come with falling indices. -/
theorem findPaths_outermost [LawfulStore σ] (s : σ) (hs : Tidy s) (root : NodeId)
    (h : Treelike s root) (test : Entry α → Path → Bool) :
    (∀ path, path ∈ findPaths s root test ↔ Outermost s root test path) ∧
      (findPaths s root test).Nodup ∧
      (findPaths s root test).reverse.Pairwise (Precedes s root) ∧
      (findPaths s root test).Pairwise fun p q => ∀ c i j p' q', p = c ++ .index i :: p' →
        q = c ++ .index j :: q' → j ≤ i := by
  obtain ⟨u, hu, rfl, hnodup⟩ := (treelike_iff hs).1 h
  have horder : (findPaths s u.id test).reverse.Pairwise (Precedes s u.id) := by
    rw [findPaths_tree hu hnodup, List.reverse_reverse]
    exact hu.pairwise_outermost
  have hreverse := List.pairwise_reverse.1 horder
  refine ⟨fun path => ?_, hreverse.imp fun h heq => ?_, horder, hreverse.imp ?_⟩
  · rw [findPaths_tree hu hnodup, List.mem_reverse, hu.mem_outermost hs]
  · subst heq
    exact h.asymm hs h
  · rintro p q h c i j p' q' rfl rfl
    exact h.index_le hs

/-- A tree that has the same leaf in several places. -/
def orchard : Arena Nat :=
  ⟨#[.leaf 7, .leaf 1, .seq [0, 1, 0], .map [("e", 0)], .map [("b", 2), ("c", 1), ("d", 3)],
    .map [("a", 4), ("f", 0)]]⟩

/-- The leaf is found where it stands below no mapping that passes, from the end to the start. -/
theorem findPaths_outermost_orchard :
    let test : Entry Nat → Path → Bool := fun e path =>
      e = .leaf 7 || path = [.field "a", .field "d"]
    let found : List Path := [[.field "f"], [.field "a", .field "d"],
      [.field "a", .field "b", .index 2], [.field "a", .field "b", .index 0]]
    Tidy orchard ∧ Treelike orchard 5 ∧ findPaths orchard 5 test = found ∧
      (∀ path, path ∈ found ↔ Outermost orchard 5 test path) ∧
      found.reverse.Pairwise (Precedes orchard 5) := by
  intro test found
  have hs : Tidy orchard := by
    intro i children h
    have hmem : Entry.map children ∈ orchard.entries := Array.mem_of_getElem? h
    simp only [orchard, List.mem_toArray, List.mem_cons, reduceCtorEq, Entry.map.injEq,
      List.not_mem_nil, false_or, or_false] at hmem
    unfold Fields.Distinct
    rcases hmem with rfl | rfl | rfl <;> decide
  have htree : Treelike orchard 5 := by
    let u : Unfolding Nat := .map 5 [("a", .map 4 [("b", .seq 2 [.leaf 0 7, .leaf 1 1, .leaf 0 7]),
      ("c", .leaf 1 1), ("d", .map 3 [("e", .leaf 0 7)])]), ("f", .leaf 0 7)]
    have hu : Holds orchard u := by
      unfold Holds
      decide
    exact hu.treelike (by decide)
  have hfound : findPaths orchard 5 test = found := by cbv
  obtain ⟨hmem, -, horder, -⟩ := findPaths_outermost orchard hs 5 htree test
  rw [hfound] at hmem horder
  exact ⟨hs, htree, hfound, hmem, horder⟩

end Store

end ValueResolution
