import Mathlib.Data.Set.Card
import ValueResolution.Proofs.StableOrder
/-!
# The counts of a sorter

While it places items, a sorter keeps a count for each of them. Placing an item takes one off the
count of every item that waits for it (`Sorter.Progress.Due`), and an item becomes ready when
nothing is left of its count. Between two steps the count of an item is the number of items that it
depends on and that are not placed (`Sorter.run_counts`), however often their names are listed or
registered: a list of dependencies has every position once, and so has the list of those that wait
for a position. So a count is taken from only while the item just placed is still counted in it, and
no count is ever taken below zero.
-/

set_option autoImplicit false

namespace ValueResolution.Sorter

namespace Progress

variable {dependencies : List (List Nat)} {dependents : Nat → List Nat} {p q : Progress} {i : Nat}
  {rest : List Nat}

/-- In the middle of the step from `p`, in the state `q`, one is about to be taken off the count of
`i`, and those of `rest` come after it. -/
def Due (dependents : Nat → List Nat) (p q : Progress) (i : Nat) (rest : List Nat) : Prop :=
  ∃ next ready before, p.ready = next :: ready ∧ dependents next = before ++ i :: rest ∧
    q = before.foldl settle { p with order := p.order ++ [next], ready := ready }

/-- The step goes on with `i` and the rest. -/
theorem Due.step_eq (h : Due dependents p q i rest) :
    p.step dependents = rest.foldl settle (q.settle i) := by
  obtain ⟨next, ready, before, hready, hsplit, rfl⟩ := h
  simp only [step, hready, hsplit, List.foldl_append, List.foldl_cons]

/-- A step is one more of the steps of a run. -/
theorem run_succ (dependents : Nat → List Nat) (n : Nat) (p : Progress) :
    run dependents (n + 1) p = (run dependents n p).step dependents := by
  induction n generalizing p with
  | zero => rfl
  | succ n ih => exact ih (p.step dependents)

theorem getElem?_of_getD {counts : List Nat} {count : Nat} (hi : i < counts.length)
    (h : counts.getD i 0 = count) : counts[i]? = some count := by
  rw [← h, List.getD_eq_getElem?_getD, List.getElem?_eq_getElem hi, Option.getD_some]

theorem Sound.getElem?_remaining (h : p.Sound dependencies) (hi : i < dependencies.length) :
    p.remaining[i]? = some (unplaced dependencies p.order i).length :=
  getElem?_of_getD (h.length.symm ▸ hi) (h.count i hi)

/-- What is about to be taken from is still the count from before the step, and the item that is
being placed is counted in it. -/
theorem Sound.due (h : p.Sound dependencies)
    (hq : Due (dependentsOf dependencies) p q i rest) : ∃ count,
      q.remaining[i]? = some (count + 1) ∧ (q.settle i).remaining[i]? = some count := by
  obtain ⟨next, ready, before, hready, hsplit, rfl⟩ := hq
  have hnodup : (before ++ i :: rest).Nodup := hsplit ▸ nodup_dependentsOf dependencies next
  have hwaits : i ∈ dependentsOf dependencies next := by simp [hsplit]
  obtain ⟨hi, hnext⟩ := mem_dependentsOf.1 hwaits
  obtain ⟨-, hfresh, -⟩ := h.ready_item (hready ▸ List.mem_cons_self)
  have hcounted : next ∈ unplaced dependencies p.order i := by
    simpa [unplaced, hfresh] using hnext
  obtain ⟨count, hcount⟩ := Nat.exists_eq_add_one.2 (List.length_pos_of_mem hcounted)
  generalize hq : before.foldl settle { p with order := p.order ++ [next], ready := ready } = q
  have hlen : i < q.remaining.length := by
    rw [← hq, length_foldl_settle, h.length]
    exact hi
  have hkept : q.remaining.getD i 0 = count + 1 := by
    have hno : i ∉ before := fun hmem =>
      (List.nodup_append.1 hnodup).2.2 i hmem i List.mem_cons_self rfl
    rw [← hq, remaining_foldl_settle (List.nodup_append.1 hnodup).1, if_neg hno, h.count i hi,
      hcount]
  have htaken : (q.settle i).remaining.getD i 0 = count := by
    rw [remaining_settle, if_pos rfl, hkept, Nat.add_sub_cancel]
  exact ⟨count, getElem?_of_getD hlen hkept, getElem?_of_getD (by simpa [settle] using hlen) htaken⟩

end Progress

open Progress

variable {α : Type} [DecidableEq α]

/-- Every position that an item waits for is counted once. -/
theorem length_unplaced (s : Sorter α) (order : List Nat) (i : Nat) :
    (unplaced s.dependencies order i).length = {j | s.DependsOn i j ∧ j ∉ order}.ncard := by
  have hnodup : (unplaced s.dependencies order i).Nodup := (proper_dependencies s i).1.filter _
  have hset : {j | s.DependsOn i j ∧ j ∉ order} =
      ((unplaced s.dependencies order i).toFinset : Set Nat) := by
    ext j
    simp only [unplaced, dependencies_getD, List.coe_toFinset, List.mem_filter, Set.mem_ofPred_eq,
      mem_dependsOn_iff, decide_eq_true_eq]
  rw [hset, Set.ncard_coe_finset, List.toFinset_card_of_nodup hnodup]

/-- After any number of steps every item has as its count the number of items that it depends on and
that are not placed, the ready items are those that are not placed and have the count zero, and no
item is placed twice. Wherever the next step takes one off a count, there is one to take. -/
theorem run_counts (s : Sorter α) (n : Nat) :
    let dependents := dependentsOf s.dependencies
    let p := run dependents n (start s.dependencies)
    (∀ i < s.size, p.remaining[i]? = some {j | s.DependsOn i j ∧ j ∉ p.order}.ncard) ∧
    (p.ready.Nodup ∧
      ∀ i, i ∈ p.ready ↔ i < s.size ∧ i ∉ p.order ∧ p.remaining[i]? = some 0) ∧
    (p.order.Nodup ∧ ∀ i ∈ p.order, i < s.size) ∧
    run dependents (n + 1) (start s.dependencies) = p.step dependents ∧
    ∀ q i rest, Due dependents p q i rest → p.step dependents = rest.foldl settle (q.settle i) ∧
      ∃ count, q.remaining[i]? = some (count + 1) ∧ (q.settle i).remaining[i]? = some count := by
  intro dependents p
  have hp := proper_dependencies s
  have hs : p.Sound s.dependencies := (sound_start _).run hp n
  have hsize : s.dependencies.length = s.size := length_dependencies s
  have hcount : ∀ i < s.size,
      p.remaining[i]? = some (unplaced s.dependencies p.order i).length := fun i hi =>
    hs.getElem?_remaining (hsize.symm ▸ hi)
  refine ⟨fun i hi => ?_, ⟨hs.ascending.imp Nat.ne_of_lt, fun i => ?_⟩, ⟨hs.nodup, fun i hi => ?_⟩,
    run_succ dependents n _, fun q i rest hq => ⟨hq.step_eq, hs.due hq⟩⟩
  · rw [hcount i hi, length_unplaced]
  · rw [hs.mem_ready, hsize]
    refine and_congr_right fun hi => and_congr_right fun _ => ?_
    rw [hcount i hi, hs.count i (hsize.symm ▸ hi), Option.some.injEq]
  · exact hsize ▸ hs.bound i hi

/-- An item that lists a name twice, its own and an unknown one, and a name that is registered again
for an item that can be placed. -/
def relisted : Sorter String :=
  ⟨[⟨"a", ["b", "b", "a", "x"]⟩, ⟨"b", ["a"]⟩, ⟨"b", []⟩, ⟨"c", ["b", "a"]⟩]⟩

/-- One item is placed, and the next one is about to be taken off the counts of two others. -/
theorem run_counts_relisted :
    let dependents := dependentsOf relisted.dependencies
    let p := run dependents 1 (start relisted.dependencies)
    p.order = [2] ∧ p.remaining = [0, 1, 0, 1] ∧ p.ready = [0] ∧
      {j | relisted.DependsOn 3 j ∧ j ∉ p.order}.ncard = 1 ∧
      ∃ q, Due dependents p q 3 [] ∧ q.remaining = [0, 0, 0, 1] ∧
        (q.settle 3).remaining = [0, 0, 0, 0] ∧ p.step dependents = q.settle 3 := by
  intro dependents p
  obtain ⟨hcount, -, -, -, hdue⟩ := run_counts relisted 1
  have hthree : some 1 = some {j | relisted.DependsOn 3 j ∧ j ∉ p.order}.ncard :=
    hcount 3 (by decide)
  have hq : Due dependents p
      ([1].foldl settle { p with order := p.order ++ [0], ready := [] }) 3 [] :=
    ⟨0, [], [1], by decide, by decide, rfl⟩
  exact ⟨by decide, by decide, by decide, (Option.some.inj hthree).symm, _, hq, by decide,
    by decide, (hdue _ 3 [] hq).1⟩

end ValueResolution.Sorter
