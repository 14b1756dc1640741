import ValueResolution.Proofs.Outcome
import ValueResolution.Proofs.Placement
import ValueResolution.Schema.Order
/-!
# The order of resolution

What a successful `ValueTree.resolutionOrder` gives: every place once (`resolutionOrder_perm`), and
every place behind those it waits for (`resolutionOrder_after`). What a terminal waits for is said
by `mem_waitsFor`: the other places that overlap the target of a reference that counts. Where level
references do not count, the order is the one of the terminals without them
(`resolutionOrder_false`). Whether there is an order does not depend on the order in which the
terminals are given (`exists_resolutionOrder_of_perm`).
-/

set_option autoImplicit false

namespace ValueResolution

/-- A target begins where a container around the reference stands. -/
theorem Reference.target?_eq_some {r : Reference} {place target : Path}
    (h : r.target? place = some target) :
    ∃ k < place.length, target = place.take k ++ r.path := by
  obtain ⟨anchor, path⟩ := r
  cases anchor with
  | root => simp [Reference.target?] at h
  | relative up =>
    simp only [Reference.target?, Option.ite_none_right_eq_some, Option.some.injEq] at h
    obtain ⟨⟨hpos, hle⟩, rfl⟩ := h
    exact ⟨place.length - up, by omega, rfl⟩
  | level depth =>
    simp only [Reference.target?, Option.ite_none_right_eq_some, Option.some.injEq] at h
    obtain ⟨hlt, rfl⟩ := h
    exact ⟨depth, hlt, rfl⟩

namespace ValueTree

theorem mem_waitsFor {places : List Path} {rooted : Bool} {path other : Path}
    {references : List Reference} : other ∈ waitsFor places rooted path references ↔
      other ∈ places ∧ other ≠ path ∧ ∃ r ∈ references, (rooted = true ∨ r.isLevel = false) ∧
        ∃ target, r.target? path = some target ∧ Path.overlaps other target = true := by
  simp only [waitsFor, List.mem_flatMap, List.mem_filterMap, List.mem_filter, Bool.or_eq_true,
    Bool.not_eq_true', Bool.and_eq_true, decide_eq_true_eq]
  constructor
  · rintro ⟨target, ⟨r, ⟨hr, hc⟩, ht⟩, hp, hne, ho⟩
    exact ⟨hp, hne, r, hr, hc, target, ht, ho⟩
  · rintro ⟨hp, hne, r, hr, hc, target, ht, ho⟩
    exact ⟨target, ⟨r, ⟨hr, hc⟩, ht⟩, hp, hne, ho⟩

/-- The item of a terminal. -/
def itemOf (places : List Path) (rooted : Bool) (terminal : Path × List Reference) : Item Path :=
  ⟨terminal.1, waitsFor places rooted terminal.1 terminal.2⟩

/-- The sorter of a tree has an item for every terminal. -/
theorem resolutionOrder_eq (terminals : List (Path × List Reference)) (rooted : Bool) :
    resolutionOrder terminals rooted =
      (Sorter.mk (terminals.map (itemOf (terminals.map Prod.fst) rooted))).sort.mapError
        Path.text := by
  have hadd : ∀ (rest : List (Path × List Reference)) (s : Sorter Path),
      rest.foldl (fun s t => s.add t.1 (waitsFor (terminals.map Prod.fst) rooted t.1 t.2)) s =
        ⟨s.items ++ rest.map (itemOf (terminals.map Prod.fst) rooted)⟩ := by
    intro rest
    induction rest with
    | nil => simp
    | cons t rest ih =>
      intro s
      rw [List.foldl_cons, ih]
      simp [Sorter.add, itemOf]
  exact congrArg (fun s : Sorter Path => s.sort.mapError Path.text) (hadd terminals {})

theorem sort_of_resolutionOrder {terminals : List (Path × List Reference)} {rooted : Bool}
    {order : List Path} (h : resolutionOrder terminals rooted = .ok order) :
    (Sorter.mk (terminals.map (itemOf (terminals.map Prod.fst) rooted))).sort = .ok order := by
  rw [resolutionOrder_eq] at h
  exact mapError_eq_ok_iff.1 h

/-- The order holds the place of every terminal once. -/
theorem resolutionOrder_perm {terminals : List (Path × List Reference)} {rooted : Bool}
    {order : List Path} (h : resolutionOrder terminals rooted = .ok order) :
    order.Perm (terminals.map Prod.fst) := by
  have hp := Sorter.sort_perm _ (sort_of_resolutionOrder h)
  simpa [Sorter.names, itemOf, Function.comp_def] using hp

/-- In the order a terminal stands behind all it waits for. -/
theorem resolutionOrder_after {terminals : List (Path × List Reference)} {rooted : Bool}
    {order : List Path} (h : resolutionOrder terminals rooted = .ok order) {path other : Path}
    {references : List Reference} (ht : (path, references) ∈ terminals)
    (hw : other ∈ waitsFor (terminals.map Prod.fst) rooted path references) :
    [other, path].Sublist order := by
  obtain ⟨hp, hne, -⟩ := mem_waitsFor.1 hw
  have hi := List.mem_map_of_mem (f := itemOf (terminals.map Prod.fst) rooted) ht
  exact Sorter.sort_after _ (sort_of_resolutionOrder h) hi hw
    (by simpa [Sorter.names, itemOf, Function.comp_def] using hp) hne

/-- Whether there is an order does not depend on the order of the terminals. -/
theorem exists_resolutionOrder_of_perm {terminals terminals' : List (Path × List Reference)}
    (hp : terminals.Perm terminals') (hn : (terminals.map Prod.fst).Nodup) {rooted : Bool}
    {order : List Path} (h : resolutionOrder terminals rooted = .ok order) :
    ∃ order', resolutionOrder terminals' rooted = .ok order' := by
  have hplaces : (terminals.map Prod.fst).Perm (terminals'.map Prod.fst) := hp.map _
  let s : Sorter Path := ⟨terminals'.map (itemOf (terminals'.map Prod.fst) rooted)⟩
  have hnames : s.names = terminals'.map Prod.fst := by
    simp [s, Sorter.names, itemOf, Function.comp_def]
  have hafter : ∀ item ∈ s.items, ∀ name ∈ item.after, name ∈ s.names → name ≠ item.name →
      [name, item.name].Sublist order := by
    intro item hitem name hname _ _
    obtain ⟨⟨path, references⟩, ht, rfl⟩ := List.mem_map.1 hitem
    obtain ⟨hmem, hwaits⟩ := mem_waitsFor.1 hname
    exact resolutionOrder_after h (hp.symm.subset ht)
      (mem_waitsFor.2 ⟨hplaces.symm.subset hmem, hwaits⟩)
  obtain ⟨found, hfound⟩ := s.exists_sort (by rw [hnames]; exact hplaces.nodup_iff.1 hn)
    (by rw [hnames]; exact (resolutionOrder_perm h).trans hplaces) hafter
  exact ⟨found, by rw [resolutionOrder_eq]; exact mapError_eq_ok_iff.2 hfound⟩

/-- A reference that counts for a nested tree. -/
def countsNested (r : Reference) : Bool := !r.isLevel

/-- The nested order is the order of the terminals without their level references. -/
theorem resolutionOrder_false (terminals : List (Path × List Reference)) :
    resolutionOrder terminals false =
      resolutionOrder (terminals.map fun t => (t.1, t.2.filter countsNested)) true := by
  rw [resolutionOrder_eq, resolutionOrder_eq]
  congr 3
  simp only [List.map_map]
  refine List.map_congr_left fun t _ => ?_
  simp [itemOf, waitsFor, Function.comp_def, countsNested]

end ValueTree

end ValueResolution
