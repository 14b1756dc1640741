import ValueResolution.Proofs.StableOrder
/-!
# The culprit of a failed sort

When a sorter fails it names one item. That item is found by a walk, which starts at the first item
that was left unplaced (`Sorter.IsFirstUnplaced`) and goes on from each item to the first of its
dependencies that are unplaced (`Sorter.GoesTo`). Every unplaced item has such a dependency, so the
walk never gets stuck, and since there are finitely many items it comes back to one that it has left
before (`Sorter.sort_names_culprit`). It stops at the first such item, which need not be the one it
started from: on the way it may pass items that only lead to the cycle and are not on it.
-/

set_option autoImplicit false

namespace ValueResolution.Sorter

open Relation

variable {α : Type} [DecidableEq α] {s : Sorter α}

/-- The item at `i` was left unplaced, and all items before it were placed. -/
structure IsFirstUnplaced (s : Sorter α) (i : Nat) : Prop where
  lt_size : i < s.size
  unplaced : i ∉ s.placement.order
  least : ∀ j < i, j ∈ s.placement.order

/-- The item at `j` is the first unplaced one among the dependencies of the item at `i`. -/
structure GoesTo (s : Sorter α) (i j : Nat) : Prop where
  dependsOn : s.DependsOn i j
  unplaced : j ∉ s.placement.order
  least : ∀ k, s.DependsOn i k → k ∉ s.placement.order → j ≤ k

theorem isFirstUnplaced_of_find? {i : Nat}
    (h : (List.range s.size).find? (fun i => !s.placement.order.contains i) = some i) :
    s.IsFirstUnplaced i := by
  have hlt : i < s.size := List.mem_range.1 (List.mem_of_find?_eq_some h)
  refine ⟨hlt, by simpa using List.find?_some h, fun j hj => ?_⟩
  obtain ⟨-, before, behind, hsplit, hbefore⟩ := List.find?_eq_some_iff_append.1 h
  have hmem : j ∈ before ++ i :: behind := by
    rw [← hsplit]
    exact List.mem_range.2 (Nat.lt_trans hj hlt)
  rcases List.mem_append.1 hmem with hmem | hmem
  · simpa using hbefore j hmem
  · -- the items behind `i` come later
    have hup : (before ++ i :: behind).Pairwise (· < ·) := hsplit ▸ List.pairwise_lt_range
    rcases List.mem_cons.1 hmem with rfl | hmem
    · exact absurd hj (Nat.lt_irrefl _)
    · have hlt := (List.pairwise_cons.1 (List.pairwise_append.1 hup).2.1).1 j hmem
      exact absurd hj (Nat.lt_asymm hlt)

theorem pairwise_dependsOn (s : Sorter α) (i : Nat) : (s.dependsOn i).Pairwise (· < ·) := by
  unfold dependsOn
  split
  · exact .nil
  · exact List.pairwise_lt_range.filter _

theorem goesTo_of_head? {i j : Nat}
    (h : ((s.dependsOn i).filter fun j => !s.placement.order.contains j).head? = some j) :
    s.GoesTo i j := by
  obtain ⟨rest, hlist⟩ := List.head?_eq_some_iff.1 h
  have hmem := List.mem_filter.1 (List.mem_of_head? h)
  refine ⟨mem_dependsOn_iff.1 hmem.1, by simpa using hmem.2, fun k hk hno => ?_⟩
  have hup := (pairwise_dependsOn s i).filter fun j => !s.placement.order.contains j
  have hkmem : k ∈ (s.dependsOn i).filter fun j => !s.placement.order.contains j :=
    List.mem_filter.2 ⟨mem_dependsOn_iff.2 hk, by simpa using hno⟩
  rw [hlist] at hup hkmem
  rcases List.mem_cons.1 hkmem with rfl | hkmem
  · exact Nat.le_refl _
  · exact Nat.le_of_lt ((List.pairwise_cons.1 hup).1 k hkmem)

/-- From an unplaced item the walk can go on. -/
theorem exists_goesTo {i : Nat} (hi : i < s.size) (hno : i ∉ s.placement.order) :
    ∃ j, s.GoesTo i j := by
  obtain ⟨j, rest, hj, -, -⟩ := exists_unplaced hi hno
  exact ⟨j, goesTo_of_head? (by rw [hj]; rfl)⟩

/-- A sort that fails names an item on a cycle. Fewer items were placed than there are, and from
every unplaced one the walk along unplaced dependencies can go on. It starts at the first unplaced
item, leaves no item twice, and ends at one that it has left before, which is the one that is named
and depends on itself through others. -/
theorem sort_names_culprit {name : α} (h : s.sort = .error name) :
    s.placement.order.length < s.size ∧
    (∀ i < s.size, i ∉ s.placement.order → ∃ j, s.GoesTo i j) ∧
    ∃ first trail culprit, s.IsFirstUnplaced first ∧ Trail s.GoesTo first trail culprit ∧
      trail.Nodup ∧ culprit ∈ trail ∧ s.cycle? = some culprit ∧ s.name? culprit = some name ∧
      TransGen s.DependsOn culprit culprit := by
  obtain ⟨culprit, hcycle, hname⟩ := cycle?_of_sort h
  obtain ⟨first, trail, hfind, htrail, hnodup, hback⟩ := exists_trail_of_cycle? hcycle
  have hfirst := isFirstUnplaced_of_find? hfind
  have hwalk := htrail.imp fun i j => goesTo_of_head?
  refine ⟨?_, fun i hi hno => exists_goesTo hi hno, first, trail, culprit, hfirst, hwalk, hnodup,
    hback, hcycle, hname, transGen_of_cycle? hcycle⟩
  refine Nat.lt_of_not_le fun hle => hfirst.unplaced ?_
  have hperm := (placement_sound s).order_perm (by simpa using hle)
  exact hperm.mem_iff.2 (List.mem_range.2 (by simpa using hfirst.lt_size))

/-- Two items that wait for each other, one of whose names was registered before for an item that
can be placed, and an item in front that waits for one of them. -/
def outsideFirst : Sorter String :=
  ⟨[⟨"outside", ["free", "x"]⟩, ⟨"x", []⟩, ⟨"free", []⟩, ⟨"y", ["x"]⟩, ⟨"x", ["y", "free"]⟩]⟩

/-- The walk starts outside of the cycle and does not name the item that it started from. -/
theorem sort_names_culprit_outside : outsideFirst.sort = .error "x" ∧
    outsideFirst.IsFirstUnplaced 0 ∧ ∃ trail culprit,
      Trail outsideFirst.GoesTo 0 trail culprit ∧ culprit ∈ trail ∧
      outsideFirst.name? culprit = some "x" ∧
      TransGen outsideFirst.DependsOn culprit culprit := by
  have h : outsideFirst.sort = .error "x" := by decide
  obtain ⟨-, -, first, trail, culprit, hfirst, htrail, -, hback, -, hname, hcycle⟩ :=
    sort_names_culprit h
  have hzero : outsideFirst.IsFirstUnplaced 0 := ⟨by decide, by decide, by decide⟩
  obtain rfl : first = 0 := by
    by_contra hne
    exact hzero.unplaced (hfirst.least 0 (Nat.pos_of_ne_zero hne))
  exact ⟨h, hzero, trail, culprit, htrail, hback, hname, hcycle⟩

end ValueResolution.Sorter
