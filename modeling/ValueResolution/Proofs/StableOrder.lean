import Mathlib.Logic.Relation
import ValueResolution.Proofs.Placement
/-!
# The stable order of items

What a sorter answers, said without its run. `Sorter.DependsOn` is the relation between positions:
an item comes after the last item registered under each name that it lists, itself apart. An order
is legal (`Sorter.Legal`) when it has every position once and each behind all it depends on.

A legal order leaves no room for an item that depends on itself through others (`Legal.not_cycle`).
Where the run leaves items unplaced, each of them has an unplaced dependency, so the walk along
these comes back to an item that it has met, and that item depends on itself (`exists_trail`,
`transGen_of_cycle?`). So sorting succeeds exactly without such items, and the name in the error is
that of one (`sort_eq_error`). As every step places the least item that can be placed
(`Progress.Least`), the order found is the least of all legal ones (`sort_stable`).
-/

set_option autoImplicit false

namespace ValueResolution.Sorter

open Relation

variable {α : Type} (s : Sorter α)

/-! ## Dependencies between positions -/

/-- The item at `j` is the last one registered under the name. -/
def IsLast (name : α) (j : Nat) : Prop :=
  s.name? j = some name ∧ ∀ k, j < k → s.name? k ≠ some name

/-- The item at `i` has to come after the one at `j`, which is another item and the last one
registered under some name that `i` lists. -/
def DependsOn (i j : Nat) : Prop :=
  j ≠ i ∧ ∃ item name, s.items[i]? = some item ∧ name ∈ item.after ∧ s.IsLast name j

variable {s}

theorem lt_size_of_name? {i : Nat} {name : α} (h : s.name? i = some name) : i < s.size := by
  obtain ⟨item, hitem, -⟩ := Option.map_eq_some_iff.1 h
  exact (List.getElem?_eq_some_iff.1 hitem).1

theorem exists_name? {i : Nat} (h : i < s.size) : ∃ name, s.name? i = some name :=
  ⟨s.items[i].name, by rw [name?, List.getElem?_eq_getElem h]; rfl⟩

theorem IsLast.eq {name : α} {i j : Nat} (hi : s.IsLast name i) (hj : s.IsLast name j) : i = j := by
  rcases Nat.lt_trichotomy i j with hlt | heq | hgt
  · exact absurd hj.1 (hi.2 j hlt)
  · exact heq
  · exact absurd hi.1 (hj.2 i hgt)

theorem DependsOn.lt_size {i j : Nat} (h : s.DependsOn i j) : i < s.size ∧ j < s.size := by
  obtain ⟨-, item, name, hitem, -, hlast⟩ := h
  exact ⟨(List.getElem?_eq_some_iff.1 hitem).1, lt_size_of_name? hlast.1⟩

variable [DecidableEq α]

theorem isLast_of_position? {name : α} {j : Nat} (h : s.position? name = some j) :
    s.IsLast name j := by
  refine ⟨position?_eq_some s h, fun k hk hname => ?_⟩
  obtain ⟨-, later, earlier, hsplit, hlater⟩ := List.find?_eq_some_iff_append.1 h
  have hdown : (List.range s.size).reverse.Pairwise (· > ·) :=
    List.pairwise_reverse.2 List.pairwise_lt_range
  have hmem : k ∈ (List.range s.size).reverse :=
    List.mem_reverse.2 (List.mem_range.2 (lt_size_of_name? hname))
  rw [hsplit] at hdown hmem
  obtain ⟨item, hitem, hitemname⟩ := Option.map_eq_some_iff.1 hname
  rcases List.mem_append.1 hmem with hmem | hmem
  · simpa [hitem, hitemname] using hlater k hmem
  · rcases List.mem_cons.1 hmem with rfl | hmem
    · exact Nat.lt_irrefl _ hk
    · have hlt := (List.pairwise_cons.1 (List.pairwise_append.1 hdown).2.1).1 k hmem
      exact Nat.lt_asymm hk hlt

theorem position?_eq_some_iff {name : α} {j : Nat} :
    s.position? name = some j ↔ s.IsLast name j := by
  refine ⟨isLast_of_position?, fun h => ?_⟩
  obtain ⟨item, hitem, rfl⟩ := Option.map_eq_some_iff.1 h.1
  have hknown : item.name ∈ s.names := List.mem_map_of_mem (List.mem_of_getElem? hitem)
  obtain ⟨k, hk⟩ := Option.isSome_iff_exists.1 (isSome_position? s hknown)
  rw [hk, (isLast_of_position? hk).eq h]

theorem mem_dependsOn_iff {i j : Nat} : j ∈ s.dependsOn i ↔ s.DependsOn i j := by
  rw [mem_dependsOn]
  simp only [position?_eq_some_iff]
  constructor
  · rintro ⟨item, hitem, -, hne, name, hafter, hlast⟩
    exact ⟨hne, item, name, hitem, hafter, hlast⟩
  · rintro ⟨hne, item, name, hitem, hafter, hlast⟩
    exact ⟨item, hitem, lt_size_of_name? hlast.1, hne, name, hafter, hlast⟩

/-! ## Legal orders -/

/-- All positions in an order in which each stands behind all it depends on. -/
structure Legal (s : Sorter α) (order : List Nat) : Prop where
  perm : order.Perm (List.range s.size)
  behind : ∀ i j, s.DependsOn i j → [j, i].Sublist order

omit [DecidableEq α] in
theorem Legal.nodup {order : List Nat} (h : s.Legal order) : order.Nodup :=
  h.perm.nodup_iff.2 List.nodup_range

omit [DecidableEq α] in
theorem Legal.mem_before {before behind : List Nat} {i j : Nat}
    (h : s.Legal (before ++ i :: behind)) (hj : s.DependsOn i j) : j ∈ before :=
  mem_of_sublist_pair h.nodup (h.behind i j hj)

omit [DecidableEq α] in
/-- Where there is a legal order, no item depends on itself through others. -/
theorem Legal.not_cycle {order : List Nat} (h : s.Legal order) (i : Nat) :
    ¬ TransGen s.DependsOn i i := by
  have hdown : ∀ i j, s.DependsOn i j → order.idxOf j < order.idxOf i := by
    intro i j hij
    have hi : i ∈ order := h.perm.mem_iff.2 (List.mem_range.2 hij.lt_size.1)
    obtain ⟨before, behind, rfl⟩ := List.append_of_mem hi
    have hj := h.mem_before hij
    have hno : i ∉ before := fun hmem =>
      (List.nodup_append.1 h.nodup).2.2 i hmem i List.mem_cons_self rfl
    rw [List.idxOf_append_of_mem hj, List.idxOf_append_of_notMem hno]
    exact Nat.lt_of_lt_of_le (List.idxOf_lt_length_of_mem hj) (Nat.le_add_right _ _)
  intro hcycle
  have hgt : TransGen (fun a b : Nat => b < a) (order.idxOf i) (order.idxOf i) :=
    TransGen.lift order.idxOf hdown i i hcycle
  rw [transGen_eq_self] at hgt
  exact Nat.lt_irrefl _ hgt

/-- Once everything is placed, the order of the run is legal. -/
theorem placement_legal (h : ∀ i < s.size, i ∈ s.placement.order) : s.Legal s.placement.order := by
  have hs := placement_sound s
  refine ⟨?_, fun i j hij => ?_⟩
  · have hall : (List.range s.size).Subperm s.placement.order :=
      List.nodup_range.subperm fun i hi => h i (List.mem_range.1 hi)
    simpa using hs.order_perm (by simpa using hall.length_le)
  · obtain ⟨before, behind, hsplit⟩ := List.append_of_mem (h i hij.lt_size.1)
    have hj : j ∈ before := by
      refine hs.after before i behind hsplit j ?_
      rw [dependencies_getD]
      exact mem_dependsOn_iff.2 hij
    rw [hsplit]
    exact (List.singleton_sublist.2 hj).append (List.singleton_sublist.2 List.mem_cons_self)

/-! ## The walk to a cycle -/

/-- A walk from one position to another, one step of `next` at a time; the list has the positions
that it leaves. -/
inductive Trail (next : Nat → Nat → Prop) : Nat → List Nat → Nat → Prop where
  | here (i : Nat) : Trail next i [] i
  | step {i j k : Nat} {trail : List Nat} (h : next i j) (rest : Trail next j trail k) :
      Trail next i (i :: trail) k

namespace Trail

variable {next next' : Nat → Nat → Prop} {i j : Nat} {trail : List Nat}

theorem imp (h : Trail next i trail j) (hnext : ∀ i j, next i j → next' i j) :
    Trail next' i trail j := by
  induction h with
  | here i => exact .here i
  | step h _ ih => exact .step (hnext _ _ h) ih

theorem reflTransGen (h : Trail next i trail j) : ReflTransGen next i j := by
  induction h with
  | here i => exact .refl
  | step h _ ih => exact .head h ih

/-- A walk that ends where it has been before goes round a cycle. -/
theorem transGen_of_mem (h : Trail next i trail j) (hmem : j ∈ trail) : TransGen next j j := by
  induction h with
  | here i => exact absurd hmem List.not_mem_nil
  | step h rest ih =>
    rcases List.mem_cons.1 hmem with rfl | hmem
    · exact .head' h rest.reflTransGen
    · exact ih hmem

end Trail

/-- A walk that can always go on inside a finite set comes back to a place that it has visited, and
the first such place is the one that is found. -/
theorem exists_trail {next : Nat → List Nat} {inside : Nat → Prop} {n : Nat}
    (hnext : ∀ i, inside i → ∃ j rest, next i = j :: rest ∧ inside j)
    (hbound : ∀ i, inside i → i < n) (steps current : Nat) (visited : List Nat)
    (hcurrent : inside current) (hvisited : ∀ v ∈ visited, inside v) (hnodup : visited.Nodup)
    (hsteps : steps + visited.length = n + 1) :
    ∃ trail, Trail (fun i j => (next i).head? = some j) current trail
        (repeated next steps current visited) ∧ (trail.reverse ++ visited).Nodup ∧
      repeated next steps current visited ∈ trail.reverse ++ visited := by
  induction steps generalizing current visited with
  | zero =>
    -- more places would have been visited than there are
    have hsub : visited.Subperm (List.range n) := hnodup.subperm fun v hv =>
      List.mem_range.2 (hbound v (hvisited v hv))
    have hle := hsub.length_le
    rw [List.length_range] at hle
    omega
  | succ steps ih =>
    unfold repeated
    split_ifs with hmem
    · exact ⟨[], .here current, hnodup, hmem⟩
    · obtain ⟨j, rest, hj, hinside⟩ := hnext current hcurrent
      rw [hj]
      obtain ⟨trail, htrail, hnodup, hback⟩ := ih j (current :: visited) hinside
        (List.forall_mem_cons.2 ⟨hcurrent, hvisited⟩) (List.nodup_cons.2 ⟨hmem, hnodup⟩)
        (by rw [List.length_cons]; omega)
      have hlist : (current :: trail).reverse ++ visited = trail.reverse ++ current :: visited := by
        simp
      exact ⟨current :: trail, .step (by rw [hj]; rfl) htrail, by rwa [hlist], by rwa [hlist]⟩

/-- An item is left unplaced only because of a dependency that is. -/
theorem exists_unplaced {i : Nat} (hi : i < s.size) (hno : i ∉ s.placement.order) :
    ∃ j rest, (s.dependsOn i).filter (fun j => !s.placement.order.contains j) = j :: rest ∧
      j < s.size ∧ j ∉ s.placement.order := by
  have hne : (s.dependsOn i).filter (fun j => !s.placement.order.contains j) ≠ [] := by
    intro hnil
    refine hno (mem_placement s hi fun j hj => ?_)
    simpa using List.filter_eq_nil_iff.1 hnil j hj
  obtain ⟨j, rest, hj⟩ := List.exists_cons_of_ne_nil hne
  have hmem := List.mem_filter.1 (hj.symm ▸ List.mem_cons_self (a := j) (l := rest))
  exact ⟨j, rest, hj, (mem_dependsOn_iff.1 hmem.1).lt_size.2, by simpa using hmem.2⟩

/-- The walk that finds a position when items are left unplaced. It starts at the first of them and
always goes on to the first unplaced dependency, until it comes back to a position. -/
theorem exists_trail_of_cycle? {c : Nat} (h : s.cycle? = some c) : ∃ first trail,
    (List.range s.size).find? (fun i => !s.placement.order.contains i) = some first ∧
      Trail (fun i j => ((s.dependsOn i).filter fun j => !s.placement.order.contains j).head? =
        some j) first trail c ∧ trail.Nodup ∧ c ∈ trail := by
  obtain ⟨first, hfind, rfl⟩ := Option.map_eq_some_iff.1 h
  have hfirst : first < s.size ∧ first ∉ s.placement.order :=
    ⟨List.mem_range.1 (List.mem_of_find?_eq_some hfind), by simpa using List.find?_some hfind⟩
  obtain ⟨trail, htrail, hnodup, hback⟩ := exists_trail (fun i hi => exists_unplaced hi.1 hi.2)
    (fun i hi => hi.1) (s.size + 1) first [] hfirst (by simp) List.nodup_nil rfl
  rw [List.append_nil] at hnodup hback
  exact ⟨first, trail, hfind, htrail, List.nodup_reverse.1 hnodup, List.mem_reverse.1 hback⟩

/-- The position that is found when items are left unplaced is on a cycle. -/
theorem transGen_of_cycle? {c : Nat} (h : s.cycle? = some c) : TransGen s.DependsOn c c := by
  obtain ⟨first, trail, -, htrail, -, hback⟩ := exists_trail_of_cycle? h
  exact (htrail.imp fun i j hj =>
    mem_dependsOn_iff.1 (List.mem_filter.1 (List.mem_of_head? hj)).1).transGen_of_mem hback

/-- If sorting fails, it names the position that was found. -/
theorem cycle?_of_sort {name : α} (h : s.sort = .error name) :
    ∃ c, s.cycle? = some c ∧ s.name? c = some name := by
  unfold sort at h
  cases hc : s.cycle?.bind s.name? with
  | none => simp [hc] at h
  | some culprit =>
    obtain rfl : culprit = name := by simpa [hc] using h
    exact Option.bind_eq_some_iff.1 hc

/-- If sorting fails, it names an item that depends on itself through others. -/
theorem sort_eq_error {name : α} (h : s.sort = .error name) :
    ∃ c, s.name? c = some name ∧ TransGen s.DependsOn c c := by
  obtain ⟨c, hcycle, hname⟩ := cycle?_of_sort h
  exact ⟨c, hname, transGen_of_cycle? hcycle⟩

omit [DecidableEq α] in
/-- Every position has a name. -/
theorem map_some_filterMap_name? {positions : List Nat} (h : ∀ i ∈ positions, i < s.size) :
    (positions.filterMap s.name?).map some = positions.map s.name? := by
  induction positions with
  | nil => rfl
  | cons i rest ih =>
    obtain ⟨name, hname⟩ := exists_name? (h i List.mem_cons_self)
    rw [List.filterMap_cons_some hname, List.map_cons, List.map_cons, hname,
      ih fun j hj => h j (List.mem_cons_of_mem _ hj)]

/-- Sorting succeeds exactly when no item depends on itself through others. -/
theorem exists_sort_iff : (∃ order, s.sort = .ok order) ↔ ∀ i, ¬ TransGen s.DependsOn i i := by
  constructor
  · rintro ⟨order, h⟩
    exact (placement_legal (placement_of_sort s h).1).not_cycle
  · intro h
    cases hsort : s.sort with
    | ok order => exact ⟨order, rfl⟩
    | error name =>
      obtain ⟨c, -, hcycle⟩ := sort_eq_error hsort
      exact absurd hcycle (h c)

/-! ## The least order -/

namespace Progress

variable {dependencies : List (List Nat)} {p : Progress}

/-- Whatever was placed was the least item that could be placed then. -/
def Least (dependencies : List (List Nat)) (p : Progress) : Prop :=
  ∀ before i behind, p.order = before ++ i :: behind → ∀ j < dependencies.length, j ∉ before →
    (∀ k ∈ dependencies.getD j [], k ∈ before) → i ≤ j

theorem least_start (dependencies : List (List Nat)) : Least dependencies (start dependencies) :=
  fun _ _ _ h => by simp [start] at h

/-- An item whose dependencies are placed is ready. -/
theorem Sound.mem_ready_of_placed (h : p.Sound dependencies) {j : Nat}
    (hj : j < dependencies.length) (hno : j ∉ p.order)
    (hplaced : ∀ k ∈ dependencies.getD j [], k ∈ p.order) : j ∈ p.ready := by
  refine (h.mem_ready j).2 ⟨hj, hno, ?_⟩
  rw [h.count j hj, List.length_eq_zero_iff, unplaced, List.filter_eq_nil_iff]
  simpa using hplaced

theorem Least.step (hs : p.Sound dependencies) (h : Least dependencies p) :
    Least dependencies (p.step (dependentsOf dependencies)) := by
  cases hr : p.ready with
  | nil => simpa [Progress.step, hr] using h
  | cons next ready =>
    intro before i behind hsplit j hj hno hplaced
    rw [order_step _ hr] at hsplit
    rcases List.eq_nil_or_concat behind with rfl | ⟨behind, last, rfl⟩
    · obtain ⟨rfl, hi⟩ := List.append_inj' hsplit rfl
      obtain rfl := List.singleton_inj.1 hi
      have hready := hs.mem_ready_of_placed hj hno hplaced
      have hasc := hs.ascending
      rw [hr] at hready hasc
      rcases List.mem_cons.1 hready with rfl | hready
      · exact Nat.le_refl _
      · exact Nat.le_of_lt ((List.pairwise_cons.1 hasc).1 j hready)
    · have hsplit' : p.order ++ [next] = (before ++ i :: behind) ++ [last] := by simpa using hsplit
      exact h before i behind (List.append_inj' hsplit' rfl).1 j hj hno hplaced

theorem Least.run (hp : Proper dependencies) (n : Nat) (hs : p.Sound dependencies)
    (h : Least dependencies p) :
    Least dependencies (Progress.run (dependentsOf dependencies) n p) := by
  induction n generalizing p with
  | zero => exact h
  | succ n ih => exact ih (hs.step hp) (h.step hs)

end Progress

theorem placement_least : Progress.Least s.dependencies s.placement :=
  (Progress.least_start _).run (proper_dependencies s) _ (Progress.sound_start _)

/-- No legal order is smaller than the one in which the run places the items. -/
theorem placement_le (h : s.Legal s.placement.order) {other : List Nat} (ho : s.Legal other) :
    s.placement.order = other ∨ List.Lex (· < ·) s.placement.order other := by
  suffices ∀ rest rest' before, s.placement.order = before ++ rest → other = before ++ rest' →
      rest = rest' ∨ List.Lex (· < ·) rest rest' from this _ _ [] rfl rfl
  intro rest
  induction rest with
  | nil =>
    intro rest' before hsplit hsplit'
    have hlength := (h.perm.trans ho.perm.symm).length_eq
    rw [hsplit, hsplit', List.length_append, List.length_append] at hlength
    exact Or.inl (List.eq_nil_of_length_eq_zero (by simpa using hlength.symm)).symm
  | cons i rest ih =>
    intro rest' before hsplit hsplit'
    cases rest' with
    | nil =>
      have hlength := (h.perm.trans ho.perm.symm).length_eq
      rw [hsplit, hsplit', List.length_append, List.length_append] at hlength
      simp at hlength
    | cons j rest' =>
      rcases Nat.lt_trichotomy i j with hlt | rfl | hgt
      · exact Or.inr (.rel hlt)
      · rcases ih rest' (before ++ [i]) (by simpa using hsplit) (by simpa using hsplit')
          with rfl | hlex
        · exact Or.inl rfl
        · exact Or.inr (.cons hlex)
      · -- the other order shows that `j` could have been placed instead of `i`
        subst hsplit'
        have hj : j < s.size :=
          List.mem_range.1 (ho.perm.mem_iff.1 (List.mem_append_right _ List.mem_cons_self))
        have hno : j ∉ before := fun hmem =>
          (List.nodup_append.1 ho.nodup).2.2 j hmem j List.mem_cons_self rfl
        have hle := placement_least before i rest hsplit j (by simpa using hj) hno fun k hk => by
          rw [dependencies_getD] at hk
          exact ho.mem_before (mem_dependsOn_iff.1 hk)
        exact absurd hgt (Nat.not_lt.2 hle)

/-- No arrangement of an ascending range is smaller than the range. -/
theorem not_lex_range' {positions : List Nat} {first count : Nat}
    (h : positions.Perm (List.range' first count)) :
    ¬ List.Lex (· < ·) positions (List.range' first count) := by
  induction count generalizing first positions with
  | zero =>
    intro hlex
    cases hlex
  | succ count ih =>
    rw [List.range'_succ] at h ⊢
    intro hlex
    cases hlex with
    | nil => simpa using h.length_eq
    | rel hlt =>
      have hmem := h.subset List.mem_cons_self
      rw [← List.range'_succ, List.mem_range'_1] at hmem
      exact Nat.lt_irrefl _ (Nat.lt_of_lt_of_le hlt hmem.1)
    | cons hlex => exact ih h.cons_inv hlex

/-- Sorting is stable: it succeeds exactly when no item depends on itself through others, and then
it answers with the names of the items in the least legal order of their positions. If the order of
registration is legal, that is the answer. -/
theorem sort_stable (s : Sorter α) :
    ((∃ order, s.sort = .ok order) ↔ ∀ i, ¬ TransGen s.DependsOn i i) ∧
    ∀ order, s.sort = .ok order →
      (∃ positions, s.Legal positions ∧ order.map some = positions.map s.name? ∧
        ∀ other, s.Legal other → positions = other ∨ List.Lex (· < ·) positions other) ∧
      (s.Legal (List.range s.size) → order = s.names) := by
  refine ⟨exists_sort_iff, fun order h => ?_⟩
  obtain ⟨hall, rfl⟩ := placement_of_sort s h
  have hlegal := placement_legal hall
  have hbound : ∀ i ∈ s.placement.order, i < s.size := fun i hi =>
    List.mem_range.1 (hlegal.perm.mem_iff.1 hi)
  refine ⟨⟨_, hlegal, map_some_filterMap_name? hbound, fun other ho => placement_le hlegal ho⟩,
    fun hrange => ?_⟩
  have hperm := hlegal.perm
  have heq : s.placement.order = List.range s.size := by
    refine (placement_le hlegal hrange).resolve_right ?_
    rw [List.range_eq_range'] at hperm ⊢
    exact not_lex_range' hperm
  rw [heq]
  exact filterMap_range_getElem? Item.name s.items

/-- Two names that are registered twice, one of them by an item that lists its own name and one that
is not registered. -/
def twiceNamed : Sorter String :=
  ⟨[⟨"a", ["b"]⟩, ⟨"b", []⟩, ⟨"a", ["c", "a"]⟩, ⟨"b", ["a"]⟩]⟩

theorem sort_stable_twice : twiceNamed.sort = .ok ["b", "a", "b", "a"] ∧
    ∃ positions, twiceNamed.Legal positions ∧
      ["b", "a", "b", "a"].map some = positions.map twiceNamed.name? ∧
      ∀ other, twiceNamed.Legal other → positions = other ∨ List.Lex (· < ·) positions other := by
  have h : twiceNamed.sort = .ok ["b", "a", "b", "a"] := by decide
  exact ⟨h, ((sort_stable twiceNamed).2 _ h).1⟩

end ValueResolution.Sorter
