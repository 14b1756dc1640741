import Mathlib.Data.List.Nodup
import ValueResolution.Node
import ValueResolution.Proofs.Tree
/-!
# The tree a node stands for

`Node.form σ` is a node as a tree, with the slot `σ p` for the terminal at the place `p`. Every
terminal has a place of its own (`Node.nodup_sites`) and its slot stands there
(`Node.form_at?_site`). Writing the slot of one terminal changes `σ` at its place
(`Node.form_put_site`), and what is read at a path depends on the slots whose places overlap it
(`Node.form_read_congr`), as long as the path is spelled as the places are.

A key leads to a child of a node by `Node.step?`, which also gives the key as the places have it: a
field in a mapping, a position in a sequence.
-/

set_option autoImplicit false

namespace ValueResolution

/-- A site as the node has it whose child at `key` it is in. -/
def Site.inside (key : Key) (site : Site) : Site := ⟨key :: site.path, site.terminal⟩

namespace Node

/-- Induction over a node, with the hypothesis for every entry of a mapping and every item. -/
@[elab_as_elim]
theorem induction {motive : Node → Prop} (literal : ∀ v, motive (literal v))
    (terminal : ∀ t, motive (terminal t))
    (map : ∀ entries, (∀ e ∈ entries, motive e.2) → motive (map entries))
    (seq : ∀ items, (∀ n ∈ items, motive n) → motive (seq items)) : ∀ n, motive n
  | .literal v => literal v
  | .terminal t => terminal t
  | .map entries => map entries fun e _he => induction literal terminal map seq e.2
  | .seq items => seq items fun n _hn => induction literal terminal map seq n
decreasing_by
  · obtain ⟨name, n⟩ := e
    have := List.sizeOf_lt_of_mem _he
    simp only [Node.map.sizeOf_spec, Prod.mk.sizeOf_spec] at this ⊢
    omega
  · have := List.sizeOf_lt_of_mem _hn
    simp only [Node.seq.sizeOf_spec]
    omega

/-! ## Children -/

/-- The child that a key addresses, with the key that its place begins with. -/
def step? (n : Node) (key : Key) : Option (Key × Node) :=
  match n with
  | literal _ => none
  | terminal _ => none
  | map entries => (Fields.at? (Fields.ofEntries entries) key.text).map fun child =>
      (.field key.text, child)
  | seq items => key.index?.bind fun i => items[i]?.map fun child => (.index i, child)

theorem step?_map {entries : List (String × Node)} {key slot : Key} {child : Node} :
    (map entries).step? key = some (slot, child) ↔
      Fields.at? (Fields.ofEntries entries) key.text = some child ∧ slot = .field key.text := by
  simp only [step?, Option.map_eq_some_iff, Prod.mk.injEq]
  constructor
  · rintro ⟨_, h, rfl, rfl⟩
    exact ⟨h, rfl⟩
  · rintro ⟨h, rfl⟩
    exact ⟨child, h, rfl, rfl⟩

theorem step?_seq {items : List Node} {key slot : Key} {child : Node} :
    (seq items).step? key = some (slot, child) ↔
      ∃ i, key.index? = some i ∧ items[i]? = some child ∧ slot = .index i := by
  simp only [step?, Option.bind_eq_some_iff, Option.map_eq_some_iff, Prod.mk.injEq]
  constructor
  · rintro ⟨i, hi, _, h, rfl, rfl⟩
    exact ⟨i, hi, h, rfl⟩
  · rintro ⟨i, hi, h, rfl⟩
    exact ⟨i, hi, child, h, rfl, rfl⟩

/-- The key of a place addresses the child that it begins the place of. -/
theorem step?_slot {n child : Node} {key slot : Key} (h : n.step? key = some (slot, child)) :
    n.step? slot = some (slot, child) := by
  cases n with
  | literal v => simp [step?] at h
  | terminal t => simp [step?] at h
  | map entries =>
    obtain ⟨hc, rfl⟩ := step?_map.1 h
    exact step?_map.2 ⟨hc, rfl⟩
  | seq items =>
    obtain ⟨i, -, hc, rfl⟩ := step?_seq.1 h
    exact step?_seq.2 ⟨i, rfl, hc, rfl⟩

/-! ## The form of a node -/

mutual

/-- The tree of a node, given the slots of its terminals by their places. -/
def form : Node → (Path → Slot) → Tree Slot
  | literal v => fun _ => .leaf (some v)
  | terminal _ => fun σ => .leaf (σ [])
  | map entries => fun σ => .map
      ((Fields.ofEntries (formsOfEntries entries)).map fun (name, form) =>
        (name, form fun p => σ (.field name :: p)))
  | seq items => fun σ => .seq
      ((formsOfItems items).mapIdx fun i form => form fun p => σ (.index i :: p))

/-- The forms of the entries of a mapping. -/
def formsOfEntries : List (String × Node) → List (String × ((Path → Slot) → Tree Slot))
  | [] => []
  | (name, node) :: rest => (name, form node) :: formsOfEntries rest

/-- The forms of the items of a sequence. -/
def formsOfItems : List Node → List ((Path → Slot) → Tree Slot)
  | [] => []
  | node :: rest => form node :: formsOfItems rest

end

theorem formsOfEntries_eq (entries : List (String × Node)) :
    formsOfEntries entries = Fields.mapEntries form entries := by
  induction entries with
  | nil => rfl
  | cons e rest ih => rw [formsOfEntries, ih]; rfl

theorem formsOfItems_eq (items : List Node) : formsOfItems items = items.map form := by
  induction items with
  | nil => rfl
  | cons n rest ih => rw [formsOfItems, ih]; rfl

theorem sitesOfEntries_eq (entries : List (String × Node)) :
    sitesOfEntries entries = Fields.mapEntries sites entries := by
  induction entries with
  | nil => rfl
  | cons e rest ih => rw [sitesOfEntries, ih]; rfl

theorem sitesOfItems_eq (items : List Node) : sitesOfItems items = items.map sites := by
  induction items with
  | nil => rfl
  | cons n rest ih => rw [sitesOfItems, ih]; rfl

/-- The slots below a key. -/
def under (σ : Path → Slot) (key : Key) : Path → Slot := fun p => σ (key :: p)

theorem form_map (entries : List (String × Node)) (σ : Path → Slot) : (map entries).form σ =
    .map ((Fields.ofEntries entries).map fun e => (e.1, e.2.form (under σ (.field e.1)))) := by
  simp only [form, formsOfEntries_eq]
  rw [Fields.ofEntries_mapEntries, Fields.mapEntries, List.map_map]
  rfl

theorem form_seq (items : List Node) (σ : Path → Slot) : (seq items).form σ =
    .seq (items.mapIdx fun i n => n.form (under σ (.index i))) := by
  simp only [form, formsOfItems_eq, mapIdx_map]
  rfl

/-- The children of the form of a node are the forms of its children. -/
theorem form_child? (n : Node) (σ : Path → Slot) (key : Key) : (n.form σ).child? key =
    (n.step? key).map fun s => s.2.form (under σ s.1) := by
  cases n with
  | literal v => rfl
  | terminal t => rfl
  | map entries =>
    rw [form_map, Tree.child?, step?, Option.map_map]
    exact Fields.at?_mapNamed (fun name (child : Node) => child.form (under σ (.field name))) _ _
  | seq items =>
    rw [form_seq, Tree.child?, step?, Option.map_bind]
    refine Option.bind_congr fun i _ => ?_
    simp [Function.comp_def]

theorem sites_map (entries : List (String × Node)) : (map entries).sites =
    (Fields.ofEntries entries).flatMap fun e => e.2.sites.map (Site.inside (.field e.1)) := by
  rw [sites, sitesOfEntries_eq, Fields.ofEntries_mapEntries, Fields.mapEntries, List.flatMap_map]
  rfl

theorem sites_seq (items : List Node) : (seq items).sites =
    (items.mapIdx fun i n => n.sites.map (Site.inside (.index i))).flatten := by
  rw [sites, sitesOfItems_eq, mapIdx_map]
  rfl

/-- A node is a terminal, or its terminals are those of its children. -/
theorem mem_sites {n : Node} {site : Site} : site ∈ n.sites ↔
    (∃ t, n = terminal t ∧ site = ⟨[], t⟩) ∨ ∃ slot child, n.step? slot = some (slot, child) ∧
      ∃ inner ∈ child.sites, site = inner.inside slot := by
  cases n with
  | literal v => simp [sites, step?]
  | terminal t => simp [sites, step?]
  | map entries =>
    simp only [sites_map, List.mem_flatMap, List.mem_map, step?_map, reduceCtorEq, false_and,
      exists_false, false_or]
    constructor
    · rintro ⟨⟨name, child⟩, hmem, inner, hinner, rfl⟩
      exact ⟨.field name, child, ⟨Fields.at?_of_mem (Fields.distinct_ofEntries _) hmem, rfl⟩,
        inner, hinner, rfl⟩
    · rintro ⟨slot, child, ⟨hc, hslot⟩, inner, hinner, rfl⟩
      exact ⟨(slot.text, child), Fields.mem_of_at? hc, inner, hinner, by rw [← hslot]⟩
  | seq items =>
    simp only [sites_seq, List.mem_flatten, List.mem_mapIdx, step?_seq, reduceCtorEq, false_and,
      exists_false, false_or]
    constructor
    · rintro ⟨_, ⟨i, hi, rfl⟩, hmem⟩
      obtain ⟨inner, hinner, rfl⟩ := List.mem_map.1 hmem
      exact ⟨.index i, items[i], ⟨i, rfl, List.getElem?_eq_getElem hi, rfl⟩, inner, hinner, rfl⟩
    · rintro ⟨_, child, ⟨i, -, hc, rfl⟩, inner, hinner, rfl⟩
      obtain ⟨hi, rfl⟩ := List.getElem?_eq_some_iff.1 hc
      exact ⟨_, ⟨i, hi, rfl⟩, List.mem_map_of_mem hinner⟩

theorem inside_mem_sites_map {entries : List (String × Node)} {e : String × Node}
    (he : e ∈ Fields.ofEntries entries) {site : Site} (h : site ∈ e.2.sites) :
    site.inside (.field e.1) ∈ (map entries).sites := by
  rw [sites_map]
  exact List.mem_flatMap.2 ⟨e, he, List.mem_map_of_mem h⟩

theorem inside_mem_sites_seq {items : List Node} {i : Nat} (hi : i < items.length) {site : Site}
    (h : site ∈ items[i].sites) : site.inside (.index i) ∈ (seq items).sites := by
  rw [sites_seq]
  exact List.mem_flatten.2 ⟨_, List.mem_mapIdx.2 ⟨i, hi, rfl⟩, List.mem_map_of_mem h⟩

/-! ## Places of terminals -/

theorem map_path_inside (key : Key) (sites : List Site) :
    (sites.map (Site.inside key)).map Site.path = (sites.map Site.path).map (List.cons key) := by
  rw [List.map_map, List.map_map]
  rfl

theorem disjoint_map_cons {a b : Key} (h : a ≠ b) (ps qs : List Path) :
    (ps.map (List.cons a)).Disjoint (qs.map (List.cons b)) := by
  intro path hp hq
  obtain ⟨p, -, rfl⟩ := List.mem_map.1 hp
  obtain ⟨q, -, heq⟩ := List.mem_map.1 hq
  exact h (List.cons.inj heq).1.symm

/-- No two terminals have one place. -/
theorem nodup_sites (n : Node) : (n.sites.map Site.path).Nodup := by
  induction n using Node.induction with
  | literal v => exact List.nodup_nil
  | terminal t => exact List.nodup_singleton _
  | map entries ih =>
    rw [sites_map, List.map_flatMap, List.nodup_flatMap]
    constructor
    · intro e he
      rw [map_path_inside]
      exact (ih e ((Fields.ofEntries_subperm entries).subset he)).map List.cons_injective
    · have hd : (Fields.ofEntries entries).Pairwise fun a b => a.1 ≠ b.1 :=
        List.pairwise_map.1 (Fields.distinct_ofEntries entries)
      refine hd.imp fun hne => ?_
      simp only [Function.onFun, map_path_inside]
      exact disjoint_map_cons (by simpa using hne) _ _
  | seq items ih =>
    rw [sites_seq, List.map_flatten, List.nodup_flatten]
    constructor
    · intro l hl
      simp only [List.mem_map, List.mem_mapIdx] at hl
      obtain ⟨_, ⟨i, hi, rfl⟩, rfl⟩ := hl
      rw [map_path_inside]
      exact (ih _ (List.getElem_mem hi)).map List.cons_injective
    · rw [List.pairwise_iff_getElem]
      intro i j hi hj hlt
      simp only [List.getElem_map, List.getElem_mapIdx, map_path_inside]
      exact disjoint_map_cons (by simpa using Nat.ne_of_lt hlt) _ _

/-- Induction over the way from a node to one of its terminals. -/
theorem site_induction {motive : Node → Path → Prop} (here : ∀ t, motive (terminal t) [])
    (inside : ∀ n slot child path, n.step? slot = some (slot, child) → motive child path →
      motive n (slot :: path)) {n : Node} {site : Site} (h : site ∈ n.sites) :
    motive n site.path := by
  obtain ⟨path, t⟩ := site
  induction path generalizing n with
  | nil =>
    rcases mem_sites.1 h with ⟨t, rfl, -⟩ | ⟨slot, child, -, inner, -, heq⟩
    · exact here t
    · simp [Site.inside] at heq
  | cons key path ih =>
    rcases mem_sites.1 h with ⟨t, -, heq⟩ | ⟨slot, child, hs, ⟨path', t'⟩, hinner, heq⟩
    · simp at heq
    · obtain ⟨⟨rfl, rfl⟩, rfl⟩ : (key = slot ∧ path = path') ∧ t = t' := by
        simpa [Site.inside] using heq
      exact inside n key child path hs (ih hinner)

/-- The slot of a terminal stands at its place. -/
theorem form_at?_site {n : Node} {site : Site} (h : site ∈ n.sites) (σ : Path → Slot) :
    (n.form σ).at? site.path = some (.leaf (σ site.path)) := by
  refine site_induction (motive := fun n path => ∀ σ, (n.form σ).at? path = some (.leaf (σ path)))
    (fun t σ => rfl) (fun n slot child path hs ih σ => ?_) h σ
  rw [Tree.at?, form_child?, hs]
  exact ih (under σ slot)

/-- A path into the form of a node is spelled when its first key is the one places begin with, up
to its text, and the rest is spelled in the child. -/
theorem form_spelled_cons {n : Node} {σ : Path → Slot} {key : Key} {rest : Path} :
    (n.form σ).Spelled (key :: rest) ↔ ∀ slot child, n.step? key = some (slot, child) →
      slot.text = key.text ∧ (child.form (under σ slot)).Spelled rest := by
  have hstep := form_child? n σ key
  cases n with
  | literal v => simp [form, Tree.Spelled, step?]
  | terminal t => simp [form, Tree.Spelled, step?]
  | map entries =>
    rw [form_map] at hstep ⊢
    simp only [Tree.child?] at hstep
    simp only [Tree.Spelled, hstep, step?_map, Option.map_eq_some_iff, Prod.exists]
    constructor
    · rintro h slot child ⟨hc, rfl⟩
      exact ⟨rfl, h _ ⟨_, _, ⟨hc, rfl⟩, rfl⟩⟩
    · rintro h _ ⟨slot, child, hs, rfl⟩
      exact (h slot child hs).2
  | seq items =>
    rw [form_seq]
    simp only [Tree.Spelled, step?_seq, List.getElem?_mapIdx, Option.map_eq_some_iff]
    constructor
    · rintro h slot child ⟨i, hi, hc, rfl⟩
      obtain ⟨htext, hrest⟩ := h i _ hi ⟨child, hc, rfl⟩
      exact ⟨htext.symm, hrest⟩
    · rintro h i _ hi ⟨child, hc, rfl⟩
      obtain ⟨htext, hrest⟩ := h (.index i) child ⟨i, hi, hc, rfl⟩
      exact ⟨htext.symm, hrest⟩

/-- The places of terminals are spelled. -/
theorem form_spelled_site {n : Node} {site : Site} (h : site ∈ n.sites) (σ : Path → Slot) :
    (n.form σ).Spelled site.path := by
  refine site_induction (motive := fun n path => ∀ σ, (n.form σ).Spelled path)
    (fun t σ => trivial) (fun n slot child path hs ih σ => ?_) h σ
  refine form_spelled_cons.2 fun slot' child' hs' => ?_
  obtain ⟨rfl, rfl⟩ : slot = slot' ∧ child = child' := by simpa [hs] using hs'
  exact ⟨rfl, ih (under σ slot)⟩

/-! ## What the form depends on -/

/-- The form depends on the slots of the terminals. -/
theorem form_congr {n : Node} {σ τ : Path → Slot}
    (h : ∀ site ∈ n.sites, σ site.path = τ site.path) : n.form σ = n.form τ := by
  induction n using Node.induction generalizing σ τ with
  | literal v => rfl
  | terminal t => exact congrArg Tree.leaf (h ⟨[], t⟩ (List.mem_singleton_self _))
  | map entries ih =>
    rw [form_map, form_map]
    refine congrArg Tree.map (List.map_congr_left fun e he => ?_)
    rw [ih e ((Fields.ofEntries_subperm entries).subset he) fun site hsite => ?_]
    exact h (site.inside (.field e.1)) (inside_mem_sites_map he hsite)
  | seq items ih =>
    rw [form_seq, form_seq]
    refine congrArg Tree.seq (List.mapIdx_eq_mapIdx_iff.2 fun i hi => ?_)
    exact ih _ (List.getElem_mem hi) fun site hsite =>
      h (site.inside (.index i)) (inside_mem_sites_seq hi hsite)

/-- What is read at a spelled path depends on the slots of the terminals whose places overlap
it. -/
theorem form_read_congr {n : Node} {σ τ : Path → Slot} {path : Path}
    (hs : (n.form σ).Spelled path)
    (h : ∀ site ∈ n.sites, Path.overlaps site.path path = true → σ site.path = τ site.path) :
    (n.form σ).read path = (n.form τ).read path := by
  induction path generalizing n σ τ with
  | nil =>
    rw [form_congr fun site hsite => h site hsite (by cases site.path <;> rfl)]
  | cons key rest ih =>
    by_cases hleaf : ∃ t, n = terminal t
    · obtain ⟨t, rfl⟩ := hleaf
      have hσ : σ [] = τ [] := h ⟨[], t⟩ (List.mem_singleton_self _) rfl
      simp only [form, hσ]
    · by_cases hlit : ∃ v, n = literal v
      · obtain ⟨v, rfl⟩ := hlit
        rfl
      · have hne : ∀ ρ slot, n.form ρ ≠ .leaf slot := by
          intro ρ slot
          cases n with
          | literal v => exact absurd ⟨v, rfl⟩ hlit
          | terminal t => exact absurd ⟨t, rfl⟩ hleaf
          | map entries => simp [form_map]
          | seq items => simp [form_seq]
        rw [Tree.read_cons (hne σ), Tree.read_cons (hne τ), form_child?, form_child?]
        cases hstep : n.step? key with
        | none => rfl
        | some s =>
          obtain ⟨slot, child⟩ := s
          obtain ⟨htext, hrest⟩ := form_spelled_cons.1 hs slot child hstep
          refine ih hrest fun site hsite ho => ?_
          refine h (site.inside slot) (mem_sites.2 (Or.inr ?_)) ?_
          · exact ⟨slot, child, step?_slot hstep, site, hsite, rfl⟩
          · simp [Site.inside, Path.overlaps, Key.sameSlot_iff, htext, ho]

/-! ## Writing slots -/

/-- Two changes of all items that differ at one position are one write apart. -/
theorem set_mapIdx {α β : Type} {items : List α} {i : Nat} {a : α} (ha : items[i]? = some a)
    {f g : Nat → α → β} (h : ∀ j ≠ i, ∀ b, f j b = g j b) :
    (items.mapIdx f).set i (g i a) = items.mapIdx g := by
  refine List.ext_getElem? fun j => ?_
  by_cases hij : i = j
  · subst hij
    obtain ⟨hlt, rfl⟩ := List.getElem?_eq_some_iff.1 ha
    simp [hlt]
  · simp [List.getElem?_set_ne hij, funext (h j (Ne.symm hij))]

/-- Another slot table below one key is another child. -/
theorem form_withChild {n child : Node} {slot : Key} (hs : n.step? slot = some (slot, child))
    {σ τ : Path → Slot} (h : ∀ key ≠ slot, under σ key = under τ key) :
    (n.form σ).withChild slot (child.form (under τ slot)) = n.form τ := by
  cases n with
  | literal v => simp [step?] at hs
  | terminal t => simp [step?] at hs
  | map entries =>
    obtain ⟨hc, hslot⟩ := step?_map.1 hs
    rw [form_map, form_map, Tree.withChild, hslot]
    refine congrArg Tree.map (Fields.put_map_of_distinct (Fields.distinct_ofEntries entries) hc
      (f := fun name (n : Node) => n.form (under σ (.field name)))
      (g := fun name (n : Node) => n.form (under τ (.field name))) fun e _ hne => ?_)
    rw [h (.field e.1) (by rw [hslot]; simpa using hne)]
  | seq items =>
    obtain ⟨i, hi, hc, rfl⟩ := step?_seq.1 hs
    rw [form_seq, form_seq]
    simp only [Tree.withChild, Key.index?]
    refine congrArg Tree.seq (set_mapIdx hc (f := fun j (n : Node) => n.form (under σ (.index j)))
      (g := fun j (n : Node) => n.form (under τ (.index j))) fun j hne n => ?_)
    rw [h (.index j) (by simpa using hne)]

theorem under_update_self (σ : Path → Slot) (key : Key) (path : Path) (a : Slot) :
    under (Function.update σ (key :: path) a) key = Function.update (under σ key) path a := by
  funext p
  simp [under, Function.update_apply]

theorem under_update_of_ne (σ : Path → Slot) {key other : Key} (h : other ≠ key) (path : Path)
    (a : Slot) : under (Function.update σ (key :: path) a) other = under σ other := by
  funext p
  simp [under, h]

/-- Writing the slot of a terminal changes its slot in the table. -/
theorem form_put_site {n : Node} {site : Site} (h : site ∈ n.sites) (σ : Path → Slot)
    (a : Slot) : (n.form σ).put a site.path = n.form (Function.update σ site.path a) := by
  refine site_induction
    (motive := fun n path => ∀ σ, (n.form σ).put a path = n.form (Function.update σ path a))
    (fun t σ => ?_) (fun n slot child path hs ih σ => ?_) h σ
  · simp [form, Tree.put, Tree.modify]
  · have hother : ∀ key ≠ slot,
        under σ key = under (Function.update σ (slot :: path) a) key :=
      fun key hne => (under_update_of_ne σ hne path a).symm
    rw [← form_withChild hs hother, under_update_self, ← ih (under σ slot), Tree.put, Tree.modify,
      form_child?, hs]
    rfl

end Node

end ValueResolution
