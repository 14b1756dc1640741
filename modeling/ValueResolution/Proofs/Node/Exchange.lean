import ValueResolution.Proofs.Node.Form
import ValueResolution.Proofs.Reading
/-!
# A node in the place of another

`Node.exchange` puts a node at a place of another one, where a mapping is entered by a name and a
sequence by a position (`Node.at?`). The other terminals stay where they are
(`Node.mem_sites_exchange`), and the form changes at that place only (`Node.form_exchange`).
-/

set_option autoImplicit false

namespace ValueResolution

/-- A site as the node has it that has the site's node at `place`. -/
def Site.within (site : Site) (place : Path) : Site := ⟨place ++ site.path, site.terminal⟩

@[simp] theorem Site.within_nil (site : Site) : site.within [] = site := by
  obtain ⟨path, terminal⟩ := site
  rfl

namespace Node

/-- The node at a place. -/
def at? : Node → Path → Option Node
  | n, [] => some n
  | map entries, .field name :: rest =>
    (Fields.at? (Fields.ofEntries entries) name).bind fun child => at? child rest
  | seq items, .index i :: rest => items[i]?.bind fun child => at? child rest
  | _, _ :: _ => none

/-- The node with another one at a place. -/
def exchange : Node → Path → Node → Node
  | _, [], x => x
  -- of several entries with the name only the last one counts
  | map entries, .field name :: rest, x =>
    map (entries.map fun e => (e.1, if e.1 = name then exchange e.2 rest x else e.2))
  | seq items, .index i :: rest, x =>
    seq (items.mapIdx fun j n => if j = i then exchange n rest x else n)
  | n, _ :: _, _ => n

theorem at?_cons {n inner : Node} {key : Key} {rest : Path} :
    n.at? (key :: rest) = some inner ↔
      ∃ child, n.step? key = some (key, child) ∧ child.at? rest = some inner := by
  cases n with
  | literal v => simp [at?, step?]
  | terminal t => simp [at?, step?]
  | map entries =>
    cases key with
    | field name => simp [at?, step?_map, Key.text, Option.bind_eq_some_iff]
    | index i => simp [at?, step?_map]
  | seq items =>
    cases key with
    | field name => simp [at?, step?_seq]
    | index i => simp [at?, step?_seq, Key.index?, Option.bind_eq_some_iff]

/-- The children of the exchanged node: one of them is exchanged itself. -/
theorem step?_exchange (n x : Node) (key : Key) (rest : Path) (other : Key) :
    (n.exchange (key :: rest) x).step? other =
      (n.step? other).map fun s => (s.1, if s.1 = key then s.2.exchange rest x else s.2) := by
  cases n with
  | literal v => cases key <;> rfl
  | terminal t => cases key <;> rfl
  | map entries =>
    cases key with
    | index i => simp [exchange, step?, Function.comp_def]
    | field name =>
      rw [exchange, step?, step?, Fields.ofEntries_mapNamed fun other (n : Node) =>
        if other = name then n.exchange rest x else n, Fields.at?_mapNamed fun other (n : Node) =>
        if other = name then n.exchange rest x else n]
      simp [Function.comp_def]
  | seq items =>
    cases key with
    | field name => simp [exchange, step?, Function.comp_def]
    | index i =>
      simp only [exchange, step?, Option.map_bind]
      refine Option.bind_congr fun j _ => ?_
      simp [Function.comp_def]

/-! ## Terminals -/

/-- Where a key leads somewhere, the terminals are those of the children. -/
theorem mem_sites_of_step? {n : Node} {key : Key} {found : Key × Node}
    (h : n.step? key = some found) {site : Site} : site ∈ n.sites ↔
      ∃ slot child, n.step? slot = some (slot, child) ∧
        ∃ inner ∈ child.sites, site = inner.inside slot := by
  rw [mem_sites, or_iff_right]
  rintro ⟨t, rfl, -⟩
  simp [step?] at h

/-- The terminals below a place are those of the node there. -/
theorem mem_sites_below {n inner : Node} {place : Path} (h : n.at? place = some inner)
    {site : Site} : site ∈ n.sites ∧ place <+: site.path ↔
      ∃ s ∈ inner.sites, site = s.within place := by
  induction place generalizing n site with
  | nil =>
    obtain rfl := Option.some.inj h
    simp
  | cons key rest ih =>
    obtain ⟨child, hs, hchild⟩ := at?_cons.1 h
    rw [mem_sites_of_step? hs]
    constructor
    · rintro ⟨⟨slot, other, hslot, s, hmem, rfl⟩, hprefix⟩
      obtain ⟨rfl, hrest⟩ := List.cons_prefix_cons.1 hprefix
      obtain rfl : child = other := by simpa [hs] using hslot
      obtain ⟨t, ht, rfl⟩ := (ih hchild).1 ⟨hmem, hrest⟩
      exact ⟨t, ht, rfl⟩
    · rintro ⟨s, hmem, rfl⟩
      obtain ⟨hin, hprefix⟩ := (ih hchild).2 ⟨s, hmem, rfl⟩
      exact ⟨⟨key, child, hs, _, hin, rfl⟩, List.cons_prefix_cons.2 ⟨rfl, hprefix⟩⟩

/-- The terminals that are not below a place. -/
def sitesAway (n : Node) (place : Path) : List Site :=
  n.sites.filter fun site => ¬ place <+: site.path

theorem mem_sitesAway {n : Node} {place : Path} {site : Site} :
    site ∈ n.sitesAway place ↔ site ∈ n.sites ∧ ¬ place <+: site.path := by
  simp [sitesAway]

/-- The terminals of the exchanged node are those that are not below the place, and those of the new
node there. -/
theorem mem_sites_exchange {n inner : Node} {place : Path} (h : n.at? place = some inner)
    (x : Node) {site : Site} : site ∈ (n.exchange place x).sites ↔
      site ∈ n.sitesAway place ∨ ∃ s ∈ x.sites, site = s.within place := by
  rw [mem_sitesAway]
  induction place generalizing n site with
  | nil => simp [exchange]
  | cons key rest ih =>
    obtain ⟨child, hs, hchild⟩ := at?_cons.1 h
    have hs' : (n.exchange (key :: rest) x).step? key = some (key, child.exchange rest x) := by
      simp [step?_exchange, hs]
    rw [mem_sites_of_step? hs, mem_sites_of_step? hs']
    constructor
    · rintro ⟨slot, other, hslot, s, hmem, rfl⟩
      rw [step?_exchange] at hslot
      obtain ⟨⟨slot', child'⟩, hslot', heq⟩ := Option.map_eq_some_iff.1 hslot
      obtain ⟨rfl, rfl⟩ := Prod.mk.inj heq
      by_cases hkey : slot' = key
      · obtain ⟨rfl, rfl⟩ : slot' = key ∧ child' = child := by
          subst hkey
          simpa [hs, eq_comm] using hslot'
        rw [if_pos rfl] at hmem
        rcases (ih hchild).1 hmem with ⟨hin, hno⟩ | ⟨t, ht, rfl⟩
        · refine Or.inl ⟨⟨slot', child', hslot', s, hin, rfl⟩, fun hprefix => hno ?_⟩
          exact (List.cons_prefix_cons.1 hprefix).2
        · exact Or.inr ⟨t, ht, rfl⟩
      · rw [if_neg hkey] at hmem
        refine Or.inl ⟨⟨slot', child', hslot', s, hmem, rfl⟩, fun hprefix => hkey ?_⟩
        exact (List.cons_prefix_cons.1 hprefix).1.symm
    · rintro (⟨⟨slot, other, hslot, s, hmem, rfl⟩, hno⟩ | ⟨s, hmem, rfl⟩)
      · refine ⟨slot, if slot = key then other.exchange rest x else other, ?_, s, ?_, rfl⟩
        · simp [step?_exchange, hslot]
        · by_cases hkey : slot = key
          · obtain ⟨rfl, rfl⟩ : slot = key ∧ other = child := by
              subst hkey
              simpa [hs, eq_comm] using hslot
            rw [if_pos rfl]
            refine (ih hchild).2 (Or.inl ⟨hmem, fun hprefix => hno ?_⟩)
            exact List.cons_prefix_cons.2 ⟨rfl, hprefix⟩
          · rwa [if_neg hkey]
      · exact ⟨key, _, hs', _, (ih hchild).2 (Or.inr ⟨s, hmem, rfl⟩), rfl⟩

/-- Terminals with distinct places are those that a list and a node have, when the latter stands at
a place that the former are not below. -/
theorem perm_away {n m x : Node} {place : Path} (h : ∀ site, site ∈ m.sites ↔
    site ∈ n.sitesAway place ∨ ∃ s ∈ x.sites, site = s.within place) :
    m.sites.Perm (n.sitesAway place ++ x.sites.map fun s => s.within place) := by
  have hn : ∀ n : Node, n.sites.Nodup := fun n => n.nodup_sites.of_map
  refine (List.perm_ext_iff_of_nodup (hn m) ?_).2 fun site => ?_
  · refine List.nodup_append.2 ⟨(hn n).filter _, ?_, ?_⟩
    · refine List.Nodup.of_map Site.path ?_
      have hpaths : (x.sites.map fun s => s.within place).map Site.path =
          (x.sites.map Site.path).map (place ++ ·) := by
        rw [List.map_map, List.map_map]
        rfl
      rw [hpaths]
      exact (List.nodup_map_iff fun _ _ => List.append_cancel_left).2 x.nodup_sites
    · rintro a ha b hb rfl
      obtain ⟨s, -, rfl⟩ := List.mem_map.1 hb
      exact (mem_sitesAway.1 ha).2 (List.prefix_append place s.path)
  · simp only [h, List.mem_append, List.mem_map, eq_comm]

theorem sites_perm {n inner : Node} {place : Path} (h : n.at? place = some inner) :
    n.sites.Perm (n.sitesAway place ++ inner.sites.map fun s => s.within place) := by
  refine perm_away fun site => ?_
  rw [mem_sitesAway, ← mem_sites_below h, ← and_or_left, and_iff_left (Classical.em _).symm]

theorem sites_exchange_perm {n inner : Node} {place : Path} (h : n.at? place = some inner)
    (x : Node) : (n.exchange place x).sites.Perm
      (n.sitesAway place ++ x.sites.map fun s => s.within place) :=
  perm_away fun _ => mem_sites_exchange h x

/-! ## Forms -/

/-- A form is full when all slots of the node have values. -/
theorem form_full {n : Node} {σ : Path → Slot}
    (h : ∀ site ∈ n.sites, (σ site.path).isSome = true) : (n.form σ).Full := by
  induction n using Node.induction generalizing σ with
  | literal v => exact .leaf v
  | terminal t =>
    obtain ⟨v, hv⟩ : ∃ v, σ [] = some v :=
      Option.isSome_iff_exists.1 (h ⟨[], t⟩ (List.mem_singleton_self _))
    simp only [form, hv]
    exact .leaf v
  | map entries ih =>
    rw [form_map]
    refine .map fun c hc => ?_
    obtain ⟨e, he, rfl⟩ := List.mem_map.1 hc
    exact ih e ((Fields.ofEntries_subperm entries).subset he) fun site hsite =>
      h (site.inside (.field e.1)) (inside_mem_sites_map he hsite)
  | seq items ih =>
    rw [form_seq]
    refine .seq fun t ht => ?_
    obtain ⟨i, hi, rfl⟩ := List.mem_mapIdx.1 ht
    exact ih _ (List.getElem_mem hi) fun site hsite =>
      h (site.inside (.index i)) (inside_mem_sites_seq hi hsite)

/-- The slots beyond a place. -/
def beyond (σ : Path → Slot) (place : Path) : Path → Slot := fun p => σ (place ++ p)

/-- The form at a place is that of the node there. -/
theorem form_at? {n inner : Node} {place : Path} (h : n.at? place = some inner)
    (σ : Path → Slot) : (n.form σ).at? place = some (inner.form (beyond σ place)) := by
  induction place generalizing n σ with
  | nil =>
    obtain rfl := Option.some.inj h
    rfl
  | cons key rest ih =>
    obtain ⟨child, hs, hchild⟩ := at?_cons.1 h
    rw [Tree.at?, form_child?, hs]
    exact ih hchild (under σ key)

/-- Exchanging a node changes the form at its place. -/
theorem form_exchange {n inner : Node} {place : Path} (h : n.at? place = some inner) (x : Node)
    {σ τ : Path → Slot} (hστ : ∀ p, ¬ place <+: p → σ p = τ p) :
    (n.exchange place x).form τ =
      Tree.modify (fun _ => x.form (beyond τ place)) place (n.form σ) := by
  induction place generalizing n σ τ with
  | nil => rfl
  | cons key rest ih =>
    obtain ⟨child, hs, hchild⟩ := at?_cons.1 h
    have hunder : ∀ p, ¬ rest <+: p → under σ key p = under τ key p := fun p hp =>
      hστ (key :: p) fun hprefix => hp (List.cons_prefix_cons.1 hprefix).2
    have hinner := ih hchild hunder
    have hother : ∀ other ≠ key, under σ other = under τ other := fun other hne =>
      funext fun p => hστ (other :: p) fun hprefix => hne (List.cons_prefix_cons.1 hprefix).1.symm
    rw [Tree.modify, form_child?, hs]
    refine Eq.trans ?_ (congrArg ((n.form σ).withChild key) hinner)
    cases n with
    | literal v => simp [step?] at hs
    | terminal t => simp [step?] at hs
    | map entries =>
      obtain ⟨name, rfl⟩ : ∃ name, key = .field name := ⟨_, (step?_map.1 hs).2⟩
      have hc : Fields.at? (Fields.ofEntries entries) name = some child := (step?_map.1 hs).1
      have hput := Fields.put_map_of_distinct (Fields.distinct_ofEntries entries) hc
        (f := fun other (n : Node) => n.form (under σ (.field other)))
        (g := fun other (n : Node) =>
          (if other = name then n.exchange rest x else n).form (under τ (.field other)))
        fun e _ hne => by rw [if_neg hne, hother (.field e.1) (by simpa using hne)]
      rw [if_pos rfl] at hput
      rw [exchange, form_map, form_map, Tree.withChild, Key.text, hput,
        Fields.ofEntries_mapNamed fun other (n : Node) =>
          if other = name then n.exchange rest x else n, List.map_map]
      rfl
    | seq items =>
      obtain ⟨i, -, hc, rfl⟩ := step?_seq.1 hs
      have hset := set_mapIdx hc (f := fun j (n : Node) => n.form (under σ (.index j)))
        (g := fun j (n : Node) =>
          (if j = i then n.exchange rest x else n).form (under τ (.index j)))
        fun j hne n => by rw [if_neg hne, hother (.index j) (by simpa using hne)]
      rw [if_pos rfl] at hset
      simp only [exchange, form_seq, Tree.withChild, Key.index?, hset, List.mapIdx_mapIdx]
      rfl

/-- A terminal with the value of the node in its place reads the same, from outside. -/
theorem read_exchange {n inner : Node} {place : Path} (h : n.at? place = some inner) (t : Terminal)
    {σ τ : Path → Slot} (hστ : ∀ p, ¬ place <+: p → σ p = τ p)
    (hfull : (inner.form (beyond σ place)).Full)
    (hplace : τ place = (inner.form (beyond σ place)).value fun slot => slot)
    (path : Path) :
    ((n.exchange place (terminal t)).form τ).read path = (n.form σ).read path := by
  rw [form_exchange h _ hστ]
  refine Tree.read_modify (form_at? h σ) (fun path => ?_) path
  simp only [form, beyond, Tree.read_leaf, List.append_nil, hplace]
  exact hfull.reach_value path

end Node

end ValueResolution
