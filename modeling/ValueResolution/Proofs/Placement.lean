import Mathlib.Data.List.Basic
import Mathlib.Data.List.Induction
import Mathlib.Data.List.Nodup
import Mathlib.Data.List.Perm.Subperm
import ValueResolution.Sorter
/-!
# The run of a sorter

What a run keeps true while it places items one by one (`Sorter.Progress.Sound`): the count of an
item is the number of its dependencies that are not placed, the ready items are those that are not
placed and have count zero, and whatever is placed comes behind all it depends on. One step keeps
this (`Progress.Sound.step`), so the end of the run has it too, and nothing is ready there
(`placement_sound`, `ready_placement`).

If sorting succeeds, everything is placed (`placement_of_sort`). The answer is a permutation of the
names (`sort_perm`) in which every name stands behind the names it has to come after
(`sort_after`), and sorting succeeds whenever there is such a permutation (`exists_sort`).
-/

set_option autoImplicit false

namespace ValueResolution

/-- In a list without repetitions, what comes before an item stands in front of it. -/
theorem mem_of_sublist_pair {α : Type} {a b : α} {before behind : List α}
    (hn : (before ++ b :: behind).Nodup) (h : [a, b].Sublist (before ++ b :: behind)) :
    a ∈ before := by
  have hb : b ∉ behind := (List.nodup_cons.1 (List.nodup_append.1 hn).2.1).1
  induction before with
  | nil =>
    rcases List.sublist_cons_iff.1 h with h | ⟨r, hr, h⟩
    · exact absurd (h.subset (by simp)) hb
    · obtain ⟨-, rfl⟩ := List.cons.inj hr
      exact absurd (h.subset (by simp)) hb
  | cons c before ih =>
    rcases List.sublist_cons_iff.1 h with h | ⟨r, hr, h⟩
    · exact List.mem_cons_of_mem _ (ih (List.nodup_cons.1 hn).2 h)
    · obtain ⟨rfl, -⟩ := List.cons.inj hr
      exact List.mem_cons_self

namespace Sorter

/-! ## Adding to an ascending list -/

theorem mem_insertAscending {i x : Nat} {l : List Nat} :
    x ∈ insertAscending i l ↔ x = i ∨ x ∈ l := by
  induction l with
  | nil => simp [insertAscending]
  | cons j rest ih =>
    unfold insertAscending
    split_ifs with hlt heq
    · simp
    · simp [heq]
    · simp only [List.mem_cons, ih]
      tauto

theorem ascending_insertAscending {i : Nat} {l : List Nat} (h : l.Pairwise (· < ·)) :
    (insertAscending i l).Pairwise (· < ·) := by
  induction l with
  | nil => simp [insertAscending]
  | cons j rest ih =>
    obtain ⟨hj, hrest⟩ := List.pairwise_cons.1 h
    unfold insertAscending
    split_ifs with hlt heq
    · refine List.pairwise_cons.2 ⟨fun x hx => ?_, h⟩
      rcases List.mem_cons.1 hx with rfl | hx
      · exact hlt
      · exact Nat.lt_trans hlt (hj x hx)
    · exact h
    · refine List.pairwise_cons.2 ⟨fun x hx => ?_, ih hrest⟩
      rcases mem_insertAscending.1 hx with rfl | hx
      · omega
      · exact hj x hx

namespace Progress

/-! ## Settling the items that wait for a placed one -/

@[simp] theorem order_settle (p : Progress) (i : Nat) : (p.settle i).order = p.order := rfl

theorem remaining_settle (p : Progress) (i j : Nat) : (p.settle i).remaining.getD j 0 =
    if j = i then p.remaining.getD i 0 - 1 else p.remaining.getD j 0 := by
  unfold settle
  rcases eq_or_ne j i with rfl | hne
  · by_cases hlt : j < p.remaining.length
    · simp [hlt]
    · simp [hlt]
  · simp [hne, List.getElem?_set_ne hne.symm]

theorem mem_ready_settle {p : Progress} {i x : Nat} : x ∈ (p.settle i).ready ↔
    x ∈ p.ready ∨ (x = i ∧ p.remaining.getD i 0 - 1 = 0) := by
  unfold settle
  dsimp only
  split_ifs with h
  · rw [mem_insertAscending]
    tauto
  · tauto

theorem ascending_settle {p : Progress} (i : Nat) (h : p.ready.Pairwise (· < ·)) :
    (p.settle i).ready.Pairwise (· < ·) := by
  unfold settle
  dsimp only
  split_ifs
  · exact ascending_insertAscending h
  · exact h

theorem order_foldl_settle (l : List Nat) (p : Progress) :
    (l.foldl settle p).order = p.order := by
  induction l generalizing p with
  | nil => rfl
  | cons i rest ih => rw [List.foldl_cons, ih, order_settle]

theorem length_foldl_settle (l : List Nat) (p : Progress) :
    (l.foldl settle p).remaining.length = p.remaining.length := by
  induction l generalizing p with
  | nil => rfl
  | cons i rest ih => simp [ih, settle]

theorem remaining_foldl_settle {l : List Nat} (hl : l.Nodup) (p : Progress) (j : Nat) :
    (l.foldl settle p).remaining.getD j 0 =
      if j ∈ l then p.remaining.getD j 0 - 1 else p.remaining.getD j 0 := by
  induction l generalizing p with
  | nil => simp
  | cons i rest ih =>
    obtain ⟨hi, hrest⟩ := List.nodup_cons.1 hl
    rw [List.foldl_cons, ih hrest, remaining_settle]
    rcases eq_or_ne j i with rfl | hne
    · simp [hi]
    · simp [hne]

theorem mem_ready_foldl_settle {l : List Nat} (hl : l.Nodup) {p : Progress} {x : Nat} :
    x ∈ (l.foldl settle p).ready ↔
      x ∈ p.ready ∨ (x ∈ l ∧ p.remaining.getD x 0 - 1 = 0) := by
  induction l generalizing p with
  | nil => simp
  | cons i rest ih =>
    obtain ⟨hi, hrest⟩ := List.nodup_cons.1 hl
    rw [List.foldl_cons, ih hrest, mem_ready_settle, remaining_settle]
    rcases eq_or_ne x i with rfl | hne
    · simp [hi]
    · simp [hne]

theorem ascending_foldl_settle (l : List Nat) {p : Progress} (h : p.ready.Pairwise (· < ·)) :
    (l.foldl settle p).ready.Pairwise (· < ·) := by
  induction l generalizing p with
  | nil => exact h
  | cons i rest ih => exact ih (ascending_settle i h)

/-! ## What a step keeps -/

/-- The dependencies of `i` that are not among the placed ones. -/
def unplaced (dependencies : List (List Nat)) (order : List Nat) (i : Nat) : List Nat :=
  (dependencies.getD i []).filter (· ∉ order)

/-- What holds between two steps of a run. -/
structure Sound (dependencies : List (List Nat)) (p : Progress) : Prop where
  nodup : p.order.Nodup
  bound : ∀ i ∈ p.order, i < dependencies.length
  length : p.remaining.length = dependencies.length
  /-- The counts count the dependencies that are not placed. -/
  count : ∀ i < dependencies.length,
    p.remaining.getD i 0 = (unplaced dependencies p.order i).length
  mem_ready : ∀ i, i ∈ p.ready ↔
    i < dependencies.length ∧ i ∉ p.order ∧ p.remaining.getD i 0 = 0
  ascending : p.ready.Pairwise (· < ·)
  /-- What is placed comes behind all it depends on. -/
  after : ∀ before i behind, p.order = before ++ i :: behind →
    ∀ j ∈ dependencies.getD i [], j ∈ before

end Progress

/-- Every item depends on other items only, and on each of them once. -/
def Proper (dependencies : List (List Nat)) : Prop :=
  ∀ i, (dependencies.getD i []).Nodup ∧
    ∀ j ∈ dependencies.getD i [], j < dependencies.length ∧ j ≠ i

theorem mem_dependentsOf {dependencies : List (List Nat)} {i j : Nat} :
    i ∈ dependentsOf dependencies j ↔
      i < dependencies.length ∧ j ∈ dependencies.getD i [] := by
  simp [dependentsOf]

theorem nodup_dependentsOf (dependencies : List (List Nat)) (j : Nat) :
    (dependentsOf dependencies j).Nodup :=
  List.nodup_range.filter _

namespace Progress

variable {dependencies : List (List Nat)} {p : Progress}

/-- A list without repetition loses one item when a member of it becomes placed. -/
theorem length_unplaced_snoc {order : List Nat} {i next : Nat}
    (hd : (dependencies.getD i []).Nodup) (hnext : next ∉ order) :
    (unplaced dependencies (order ++ [next]) i).length =
      if next ∈ dependencies.getD i [] then (unplaced dependencies order i).length - 1
      else (unplaced dependencies order i).length := by
  have hsplit : unplaced dependencies (order ++ [next]) i =
      (unplaced dependencies order i).filter (· ≠ next) := by
    simp only [unplaced, List.filter_filter, List.mem_append, List.mem_singleton, not_or]
    refine List.filter_congr fun x _ => ?_
    simp [and_comm]
  have herase : (unplaced dependencies order i).filter (· ≠ next) =
      (unplaced dependencies order i).erase next := by
    have hn : (unplaced dependencies order i).Nodup := hd.filter _
    rw [hn.erase_eq_filter]
    exact List.filter_congr fun x _ => by rw [decide_not, bne, beq_eq_decide]
  have hmem : next ∈ unplaced dependencies order i ↔ next ∈ dependencies.getD i [] := by
    simp [unplaced, hnext]
  rw [hsplit, herase, List.length_erase]
  simp only [hmem]

theorem sound_start (dependencies : List (List Nat)) :
    (start dependencies).Sound dependencies where
  nodup := List.nodup_nil
  bound := by simp [start]
  length := by simp [start]
  count i hi := by simp [start, unplaced, hi]
  mem_ready i := by
    simp only [start, List.mem_filter, List.mem_range, List.isEmpty_iff, List.not_mem_nil,
      not_false_eq_true, true_and]
    refine and_congr_right fun hi => ?_
    simp [hi]
  ascending := (List.pairwise_lt_range).filter _
  after := by simp [start]

/-- All that a placed item depends on is placed. -/
theorem Sound.closed (h : p.Sound dependencies) {i j : Nat} (hi : i ∈ p.order)
    (hj : j ∈ dependencies.getD i []) : j ∈ p.order := by
  obtain ⟨before, behind, heq⟩ := List.append_of_mem hi
  rw [heq]
  exact List.mem_append_left _ (h.after before i behind heq j hj)

/-- A ready item is not placed, and all that it depends on is. -/
theorem Sound.ready_item (h : p.Sound dependencies) {next : Nat} (hnext : next ∈ p.ready) :
    next < dependencies.length ∧ next ∉ p.order ∧
      ∀ j ∈ dependencies.getD next [], j ∈ p.order := by
  obtain ⟨hbound, hfresh, hzero⟩ := (h.mem_ready next).1 hnext
  have hnil : unplaced dependencies p.order next = [] := by
    rw [← List.length_eq_zero_iff, ← h.count next hbound, hzero]
  refine ⟨hbound, hfresh, fun j hj => ?_⟩
  by_contra hno
  have hmem : j ∈ unplaced dependencies p.order next := by
    simpa [unplaced] using ⟨by simpa using hj, hno⟩
  simp [hnil] at hmem

/-- What is placed still comes behind all it depends on, with one more item at the end. -/
theorem Sound.after_snoc (h : p.Sound dependencies) {next : Nat}
    (hdone : ∀ j ∈ dependencies.getD next [], j ∈ p.order) {before behind : List Nat} {i : Nat}
    (heq : p.order ++ [next] = before ++ i :: behind) :
    ∀ j ∈ dependencies.getD i [], j ∈ before := by
  intro j hj
  rcases List.eq_nil_or_concat behind with rfl | ⟨behind, last, rfl⟩
  · obtain ⟨rfl, hi⟩ := List.append_inj' heq rfl
    rw [← List.singleton_inj.1 hi] at hj
    exact hdone j hj
  · have heq' : p.order ++ [next] = (before ++ i :: behind) ++ [last] := by simpa using heq
    exact h.after before i behind (List.append_inj' heq' rfl).1 j hj

/-- What is ready when the first ready item is placed: the others that were, and the items that
waited for it alone. -/
theorem Sound.mem_ready_snoc (hp : Proper dependencies) (h : p.Sound dependencies) {next : Nat}
    {ready : List Nat} (hr : p.ready = next :: ready) (i : Nat) :
    i ∈ ready ∨ i ∈ dependentsOf dependencies next ∧ p.remaining.getD i 0 - 1 = 0 ↔
      i < dependencies.length ∧ i ∉ p.order ++ [next] ∧
        (if i ∈ dependentsOf dependencies next then p.remaining.getD i 0 - 1
          else p.remaining.getD i 0) = 0 := by
  have hready := h.mem_ready
  have hasc := h.ascending
  rw [hr] at hready
  rw [hr, List.pairwise_cons] at hasc
  obtain ⟨-, hfresh, -⟩ := (hready next).1 List.mem_cons_self
  constructor
  · rintro (hi | ⟨hdep, hcount⟩)
    · obtain ⟨hlt, hno, hz⟩ := (hready i).1 (List.mem_cons_of_mem _ hi)
      have hne : i ≠ next := fun heq => Nat.lt_irrefl _ (heq ▸ hasc.1 i hi)
      exact ⟨hlt, by simp [hno, hne], by split_ifs <;> omega⟩
    · obtain ⟨hlt, hmem⟩ := mem_dependentsOf.1 hdep
      have hno : i ∉ p.order := fun hin => hfresh (h.closed hin hmem)
      have hne : i ≠ next := fun heq => ((hp i).2 next hmem).2 heq.symm
      exact ⟨hlt, by simp [hno, hne], by rwa [if_pos hdep]⟩
  · rintro ⟨hi, hno, hcount⟩
    obtain ⟨hno, hne⟩ : i ∉ p.order ∧ i ≠ next := by simpa using hno
    by_cases hdep : i ∈ dependentsOf dependencies next
    · exact Or.inr ⟨hdep, by rwa [if_pos hdep] at hcount⟩
    · rw [if_neg hdep] at hcount
      exact Or.inl ((List.mem_cons.1 ((hready i).2 ⟨hi, hno, hcount⟩)).resolve_left hne)

/-- Placing the first ready item keeps the run sound. -/
theorem Sound.step (hp : Proper dependencies) (h : p.Sound dependencies) :
    (p.step (dependentsOf dependencies)).Sound dependencies := by
  cases hr : p.ready with
  | nil => simpa [Progress.step, hr] using h
  | cons next ready =>
    obtain ⟨hbound, hfresh, hdone⟩ := h.ready_item (hr ▸ List.mem_cons_self)
    have hasc := h.ascending
    rw [hr, List.pairwise_cons] at hasc
    simp only [Progress.step, hr]
    refine ⟨?_, ?_, ?_, ?_, ?_, ?_, ?_⟩
    · rw [order_foldl_settle]
      exact List.nodup_append.2 ⟨h.nodup, List.nodup_singleton _, by
        simpa using fun a ha => ne_of_mem_of_not_mem ha hfresh⟩
    · rw [order_foldl_settle]
      intro i hi
      rcases List.mem_append.1 hi with hi | hi
      · exact h.bound i hi
      · simpa [List.mem_singleton.1 hi] using hbound
    · rw [length_foldl_settle, h.length]
    · intro i hi
      rw [order_foldl_settle, remaining_foldl_settle (nodup_dependentsOf _ _),
        length_unplaced_snoc (hp i).1 hfresh, ← h.count i hi]
      simp [mem_dependentsOf, hi]
    · intro i
      rw [mem_ready_foldl_settle (nodup_dependentsOf _ _), order_foldl_settle,
        remaining_foldl_settle (nodup_dependentsOf _ _)]
      exact h.mem_ready_snoc hp hr i
    · exact ascending_foldl_settle _ hasc.2
    · rw [order_foldl_settle]
      exact fun before i behind heq => h.after_snoc hdone heq

theorem Sound.run (hp : Proper dependencies) (n : Nat) (h : p.Sound dependencies) :
    (Progress.run (dependentsOf dependencies) n p).Sound dependencies := by
  induction n generalizing p with
  | zero => exact h
  | succ n ih => exact ih (h.step hp)

theorem order_step (dependents : Nat → List Nat) {next : Nat} {ready : List Nat}
    (hr : p.ready = next :: ready) : (p.step dependents).order = p.order ++ [next] := by
  simp [Progress.step, hr, order_foldl_settle]

/-- A run that has not come to an end has placed an item with every step. -/
theorem length_order_run (dependents : Nat → List Nat) (n : Nat) (p : Progress) :
    (run dependents n p).ready = [] ∨
      (run dependents n p).order.length = p.order.length + n := by
  induction n generalizing p with
  | zero => exact Or.inr rfl
  | succ n ih =>
    rcases ih (p.step dependents) with h | h
    · exact Or.inl h
    · cases hr : p.ready with
      | nil =>
        have hstep : p.step dependents = p := by simp [Progress.step, hr]
        have hrun : ∀ m, run dependents m p = p := fun m => by
          induction m with
          | zero => rfl
          | succ m ihm => rw [run, hstep, ihm]
        exact Or.inl (by rw [hrun, hr])
      | cons next ready =>
        refine Or.inr ?_
        rw [run, h, order_step dependents hr, List.length_append, List.length_singleton]
        omega

/-- A sound run that has placed as many items as there are has placed them all. -/
theorem Sound.order_perm (h : p.Sound dependencies) (hn : dependencies.length ≤ p.order.length) :
    p.order.Perm (List.range dependencies.length) :=
  have hsub : p.order.Subperm (List.range dependencies.length) :=
    h.nodup.subperm fun i hi => List.mem_range.2 (h.bound i hi)
  hsub.perm_of_length_le (by simpa using hn)

end Progress

/-! ## The end of the run -/

/-- Looking up every position of a list gives the list. -/
theorem filterMap_range_getElem? {β γ : Type} (f : β → γ) (l : List β) :
    ((List.range l.length).filterMap fun i => l[i]?.map f) = l.map f := by
  induction l with
  | nil => rfl
  | cons b rest ih =>
    rw [List.length_cons, List.range_succ_eq_map, List.filterMap_cons_some (by rfl),
      List.filterMap_map, List.map_cons]
    exact congrArg _ ih

variable {α : Type} [DecidableEq α] (s : Sorter α)

theorem mem_dependsOn {i j : Nat} : j ∈ s.dependsOn i ↔
    ∃ item, s.items[i]? = some item ∧ j < s.size ∧ j ≠ i ∧
      ∃ name ∈ item.after, s.position? name = some j := by
  unfold dependsOn
  cases s.items[i]? with
  | none => simp
  | some item => simp [List.mem_filterMap]

theorem dependencies_getD (i : Nat) : s.dependencies.getD i [] = s.dependsOn i := by
  by_cases hi : i < s.size
  · simp [dependencies, hi]
  · have hnone : s.items[i]? = none := List.getElem?_eq_none (Nat.le_of_not_lt hi)
    have hout : s.dependencies[i]? = none :=
      List.getElem?_eq_none (by simpa [dependencies] using hi)
    simp [dependsOn, hnone, hout]

@[simp] theorem length_dependencies : s.dependencies.length = s.size := by simp [dependencies]

theorem proper_dependencies : Proper s.dependencies := by
  intro i
  rw [dependencies_getD]
  refine ⟨?_, fun j hj => ?_⟩
  · unfold dependsOn
    split
    · exact List.nodup_nil
    · exact List.nodup_range.filter _
  · obtain ⟨_, _, hlt, hne, _⟩ := (mem_dependsOn s).1 hj
    exact ⟨by simpa using hlt, hne⟩

theorem placement_sound : s.placement.Sound s.dependencies :=
  (Progress.sound_start _).run (proper_dependencies s) _

/-- Nothing is ready at the end. -/
theorem ready_placement : s.placement.ready = [] := by
  rcases Progress.length_order_run (dependentsOf s.dependencies) s.size (start s.dependencies)
    with h | h
  · exact h
  · have hs := placement_sound s
    have hperm := hs.order_perm (by rw [placement, h]; simp [start])
    refine List.eq_nil_iff_forall_not_mem.2 fun i hi => ?_
    obtain ⟨hlt, hno, -⟩ := (hs.mem_ready i).1 hi
    exact hno (hperm.mem_iff.2 (List.mem_range.2 hlt))

/-- The walk along dependencies stays among the items. -/
theorem repeated_lt {next : Nat → List Nat} {n : Nat} (hnext : ∀ i, ∀ j ∈ next i, j < n)
    (steps current : Nat) (visited : List Nat) (h : current < n) :
    repeated next steps current visited < n := by
  induction steps generalizing current visited with
  | zero => exact h
  | succ steps ih =>
    unfold repeated
    split_ifs
    · exact h
    · split
      · exact h
      · rename_i j rest heq
        exact ih j _ (hnext current j (by simp [heq]))

/-- If sorting succeeds, every item was placed and the answer is the names in their order. -/
theorem placement_of_sort {order : List α} (h : s.sort = .ok order) :
    (∀ i < s.size, i ∈ s.placement.order) ∧ order = s.placement.order.filterMap s.name? := by
  unfold sort at h
  cases hc : s.cycle?.bind s.name? with
  | some name => simp [hc] at h
  | none =>
    simp only [hc, Except.ok.injEq] at h
    refine ⟨fun i hi => ?_, h.symm⟩
    by_contra hno
    cases hf : (List.range s.size).find? (fun i => !s.placement.order.contains i) with
    | none => exact absurd (List.find?_eq_none.1 hf i (List.mem_range.2 hi)) (by simpa using hno)
    | some first =>
      have hfirst : first < s.size := List.mem_range.1 (List.mem_of_find?_eq_some hf)
      have hstay : ∀ i, ∀ j ∈ (s.dependsOn i).filter fun j => !s.placement.order.contains j,
          j < s.size := fun i j hj => by
        obtain ⟨_, _, hlt, -⟩ := (mem_dependsOn s).1 (List.mem_filter.1 hj).1
        exact hlt
      have hlt := repeated_lt hstay (s.size + 1) first [] hfirst
      simp only [cycle?, hf, Option.map_some, Option.bind_some, name?, Option.map_eq_none_iff,
        List.getElem?_eq_none_iff] at hc
      exact absurd hlt (Nat.not_lt.2 hc)

/-! ## The answer -/

/-- The names of all items, in the order of registration. -/
def names : List α := s.items.map Item.name

theorem position?_eq_some {name : α} {i : Nat} (h : s.position? name = some i) :
    s.name? i = some name := by
  have hi := List.find?_some h
  cases hx : s.items[i]? with
  | none => simp [hx] at hi
  | some item => simpa [name?, hx] using hi

theorem isSome_position? {name : α} (h : name ∈ s.names) : (s.position? name).isSome := by
  obtain ⟨item, hitem, rfl⟩ := List.mem_map.1 h
  obtain ⟨i, hi, hget⟩ := List.getElem_of_mem hitem
  rw [position?, List.find?_isSome]
  exact ⟨i, by simpa [size] using hi, by simp [hi, hget]⟩

/-- The answer of a successful sort holds the name of every item once. -/
theorem sort_perm {order : List α} (h : s.sort = .ok order) : order.Perm s.names := by
  obtain ⟨hall, rfl⟩ := placement_of_sort s h
  have hs := placement_sound s
  have hperm : s.placement.order.Perm (List.range s.size) := by
    simpa using hs.order_perm (by
      have hsub : (List.range s.size).Subperm s.placement.order :=
        List.nodup_range.subperm fun i hi => hall i (List.mem_range.1 hi)
      simpa using hsub.length_le)
  exact (hperm.filterMap s.name?).trans (List.Perm.of_eq (filterMap_range_getElem? _ _))

/-- In the answer of a successful sort a name that another one has to come after stands before
it. -/
theorem sort_after {order : List α} (h : s.sort = .ok order) {item : Item α}
    (hi : item ∈ s.items) {name : α} (hname : name ∈ item.after) (hknown : name ∈ s.names)
    (hne : name ≠ item.name) : [name, item.name].Sublist order := by
  obtain ⟨hall, rfl⟩ := placement_of_sort s h
  obtain ⟨i, hlt, rfl⟩ := List.getElem_of_mem hi
  obtain ⟨j, hj⟩ := Option.isSome_iff_exists.1 (isSome_position? s hknown)
  have hnj := position?_eq_some s hj
  have hni : s.name? i = some s.items[i].name := by simp [name?, hlt]
  obtain ⟨before, behind, heq⟩ := List.append_of_mem (hall i hlt)
  have hdep : j ∈ s.dependsOn i := by
    refine (mem_dependsOn s).2 ⟨s.items[i], by simp [hlt], ?_, ?_, name, hname, hj⟩
    · exact List.mem_range.1 (List.mem_reverse.1 (List.mem_of_find?_eq_some hj))
    · rintro rfl
      exact hne (Option.some.inj (hnj.symm.trans hni))
  have hbefore : j ∈ before :=
    (placement_sound s).after before i behind heq j (by rwa [dependencies_getD])
  rw [heq, List.filterMap_append, List.filterMap_cons_some hni]
  exact (List.singleton_sublist.2 (List.mem_filterMap.2 ⟨j, hbefore, hnj⟩)).append
    (List.singleton_sublist.2 List.mem_cons_self)

/-! ## When there is an answer -/

/-- What depends on placed items only is placed at the end. -/
theorem mem_placement {i : Nat} (hi : i < s.size)
    (h : ∀ j ∈ s.dependsOn i, j ∈ s.placement.order) : i ∈ s.placement.order := by
  have hs := placement_sound s
  have hlt : i < s.dependencies.length := by simpa [dependencies] using hi
  have hnone : Progress.unplaced s.dependencies s.placement.order i = [] := by
    rw [Progress.unplaced, dependencies_getD, List.filter_eq_nil_iff]
    simpa using h
  by_contra hno
  have hready := (hs.mem_ready i).2 ⟨hlt, hno, by rw [hs.count i hlt, hnone, List.length_nil]⟩
  rw [ready_placement] at hready
  exact List.not_mem_nil hready

/-- Once everything is placed, sorting succeeds. -/
theorem sort_of_placement (h : ∀ i < s.size, i ∈ s.placement.order) :
    s.sort = .ok (s.placement.order.filterMap s.name?) := by
  have hnone : s.cycle? = none := by
    rw [cycle?, Option.map_eq_none_iff, List.find?_eq_none]
    exact fun i hi => by simpa using h i (List.mem_range.1 hi)
  rw [sort, hnone]
  rfl

/-- Sorting succeeds as soon as some order of the names puts each behind those it has to come
after. -/
theorem exists_sort (hn : s.names.Nodup) {order : List α} (hp : order.Perm s.names)
    (ha : ∀ item ∈ s.items, ∀ name ∈ item.after, name ∈ s.names → name ≠ item.name →
      [name, item.name].Sublist order) : ∃ found, s.sort = .ok found := by
  have hname : ∀ {i : Nat}, i < s.size → ∃ name ∈ s.names, s.name? i = some name := by
    intro i hi
    have hget : s.items[i]? = some s.items[i] := List.getElem?_eq_getElem hi
    exact ⟨s.items[i].name, List.mem_map_of_mem (List.getElem_mem hi), by rw [name?, hget]; rfl⟩
  -- along the given order, every item finds its dependencies placed
  have hplaced : ∀ before behind, order = before ++ behind → ∀ i < s.size, ∀ name ∈ before,
      s.name? i = some name → i ∈ s.placement.order := by
    intro before
    induction before using List.reverseRecOn with
    | nil => exact fun _ _ _ _ _ h => absurd h List.not_mem_nil
    | append_singleton before last ih =>
      intro behind heq i hi name hmem hni
      rw [List.append_assoc] at heq
      rcases List.mem_append.1 hmem with hmem | hmem
      · exact ih _ heq i hi name hmem hni
      · obtain rfl := List.mem_singleton.1 hmem
        refine mem_placement s hi fun j hj => ?_
        obtain ⟨item, hitem, hlt, hne, other, hafter, hpos⟩ := (mem_dependsOn s).1 hj
        have hnj := position?_eq_some s hpos
        obtain rfl : item.name = name := by simpa [name?, hitem] using hni
        have hdiffers : other ≠ item.name := by
          rintro rfl
          have hsame : s.names[j]? = s.names[i]? := by
            simpa [names, name?] using hnj.trans hni.symm
          exact hne ((List.getElem?_inj (by simpa [names, size] using hlt) hn).1 hsame)
        obtain ⟨other', hknown, hnj'⟩ := hname hlt
        obtain rfl : other = other' := Option.some.inj (hnj.symm.trans hnj')
        have hsub := ha item (List.mem_of_getElem? hitem) other hafter hknown hdiffers
        have hnodup : (before ++ item.name :: behind).Nodup := heq ▸ hp.nodup_iff.2 hn
        exact ih _ heq j hlt other (mem_of_sublist_pair hnodup (heq ▸ hsub)) hnj
  refine ⟨_, sort_of_placement s fun i hi => ?_⟩
  obtain ⟨name, hknown, hni⟩ := hname hi
  exact hplaced order [] (List.append_nil _).symm i hi name (hp.symm.subset hknown) hni

end Sorter

end ValueResolution
