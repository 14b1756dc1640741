import Mathlib.Data.List.Flatten
import ValueResolution.Proofs.Node.Form
/-!
# The terminals that a node declares

A terminal is declared where a path leads to it through the written form: by the name of an entry
that is the last one of its name, and by the position of an item (`Node.Declares`). An entry that
was replaced declares nothing. Declarations are ordered as they are written, with every name where
it is written first (`Node.Precedes`).

`Node.sites` lists exactly the terminals that are declared (`Node.mem_sites_iff`), in this order
(`Node.pairwise_sites`).
-/

set_option autoImplicit false

namespace ValueResolution

namespace Node

/-- The path leads to the terminal through the written form. -/
inductive Declares : Node → Path → Terminal → Prop where
  | here (t : Terminal) : Declares (terminal t) [] t
  /-- An entry counts if its name is not written again behind it. -/
  | entry {before behind : List (String × Node)} {name : String} {child : Node} {path : Path}
      {t : Terminal} (hlast : name ∉ Fields.names behind) (h : Declares child path t) :
      Declares (map (before ++ (name, child) :: behind)) (.field name :: path) t
  | item {items : List Node} {i : Nat} {child : Node} {path : Path} {t : Terminal}
      (hi : items[i]? = some child) (h : Declares child path t) :
      Declares (seq items) (.index i :: path) t

/-- One path comes before another in the written form. -/
inductive Precedes : Node → Path → Path → Prop where
  /-- A name stands where it is written first. -/
  | names {entries : List (String × Node)} {a b : String} {p q : Path}
      (h : (Fields.names entries).idxOf a < (Fields.names entries).idxOf b) :
      Precedes (map entries) (.field a :: p) (.field b :: q)
  | entry {before behind : List (String × Node)} {name : String} {child : Node} {p q : Path}
      (hlast : name ∉ Fields.names behind) (h : Precedes child p q) :
      Precedes (map (before ++ (name, child) :: behind)) (.field name :: p) (.field name :: q)
  | positions {items : List Node} {i j : Nat} {p q : Path} (h : i < j) :
      Precedes (seq items) (.index i :: p) (.index j :: q)
  | item {items : List Node} {i : Nat} {child : Node} {p q : Path}
      (hi : items[i]? = some child) (h : Precedes child p q) :
      Precedes (seq items) (.index i :: p) (.index i :: q)

/-- What is declared in an entry that is looked up. -/
theorem Declares.of_at? {entries : List (String × Node)} {name : String} {child : Node}
    {path : Path} {t : Terminal} (hc : Fields.at? (Fields.ofEntries entries) name = some child)
    (h : child.Declares path t) : (map entries).Declares (.field name :: path) t := by
  obtain ⟨before, behind, rfl, hlast⟩ := Fields.mem_ofEntries.1 (Fields.mem_of_at? hc)
  exact .entry hlast h

/-- The terminals of a node are those it declares. -/
theorem mem_sites_iff {n : Node} {path : Path} {t : Terminal} :
    (⟨path, t⟩ : Site) ∈ n.sites ↔ n.Declares path t := by
  constructor
  · intro h
    induction path generalizing n with
    | nil =>
      rcases mem_sites.1 h with ⟨t', rfl, heq⟩ | ⟨slot, child, -, inner, -, heq⟩
      · obtain rfl : t = t' := by simpa using heq
        exact .here t
      · simp [Site.inside] at heq
    | cons key path ih =>
      rcases mem_sites.1 h with ⟨t', rfl, heq⟩ | ⟨slot, child, hs, ⟨path', t'⟩, hinner, heq⟩
      · simp at heq
      · obtain ⟨⟨rfl, rfl⟩, rfl⟩ : (key = slot ∧ path = path') ∧ t = t' := by
          simpa [Site.inside] using heq
        have hchild := ih hinner
        cases n with
        | literal v => simp [step?] at hs
        | terminal t' => simp [step?] at hs
        | map entries =>
          obtain ⟨hc, hkey⟩ := step?_map.1 hs
          rw [hkey]
          exact .of_at? hc hchild
        | seq items =>
          obtain ⟨i, -, hc, rfl⟩ := step?_seq.1 hs
          exact .item hc hchild
  · intro h
    induction h with
    | here t => exact List.mem_singleton_self _
    | @entry before behind name child path t hlast _ ih =>
      refine mem_sites.2 (Or.inr ⟨.field name, child, step?_map.2 ⟨?_, rfl⟩, _, ih, rfl⟩)
      exact Fields.at?_of_mem (Fields.distinct_ofEntries _)
        (Fields.mem_ofEntries.2 ⟨before, behind, rfl, hlast⟩)
    | @item items i child path t hi _ ih =>
      exact mem_sites.2 (Or.inr ⟨.index i, child, step?_seq.2 ⟨i, rfl, hi, rfl⟩, _, ih, rfl⟩)

/-! ## The order of declaration -/

/-- The children that count with their keys, in the order of their places. -/
def listed : Node → List (Key × Node)
  | literal _ => []
  | terminal _ => []
  | map entries => (Fields.ofEntries entries).map fun e => (.field e.1, e.2)
  | seq items => items.mapIdx fun i n => (.index i, n)

/-- Induction over a node, with the hypothesis for every child that counts. -/
@[elab_as_elim]
theorem listed_induction {motive : Node → Prop}
    (h : ∀ n : Node, (∀ c ∈ n.listed, motive c.2) → motive n) (n : Node) : motive n := by
  induction n using Node.induction with
  | literal v => exact h _ (by simp [listed])
  | terminal t => exact h _ (by simp [listed])
  | map entries ih =>
    refine h _ fun c hc => ?_
    obtain ⟨e, he, rfl⟩ := List.mem_map.1 hc
    exact ih e ((Fields.ofEntries_subperm entries).subset he)
  | seq items ih =>
    refine h _ fun c hc => ?_
    obtain ⟨i, hi, rfl⟩ := List.mem_mapIdx.1 hc
    exact ih _ (List.getElem_mem hi)

/-- A node that is no terminal has the terminals of its children. -/
theorem sites_eq_listed {n : Node} (hn : ∀ t, n ≠ terminal t) :
    n.sites = n.listed.flatMap fun c => c.2.sites.map (Site.inside c.1) := by
  cases n with
  | literal v => rfl
  | terminal t => exact absurd rfl (hn t)
  | map entries => rw [sites_map, listed, List.flatMap_map]
  | seq items =>
    rw [sites_seq, listed, List.flatMap_def, map_mapIdx]

theorem Precedes.of_listed {n : Node} {c : Key × Node} (hc : c ∈ n.listed) {p q : Path}
    (h : c.2.Precedes p q) : n.Precedes (c.1 :: p) (c.1 :: q) := by
  cases n with
  | literal v => simp [listed] at hc
  | terminal t => simp [listed] at hc
  | map entries =>
    obtain ⟨e, he, rfl⟩ := List.mem_map.1 hc
    obtain ⟨before, behind, rfl, hlast⟩ := Fields.mem_ofEntries.1 he
    exact .entry hlast h
  | seq items =>
    obtain ⟨i, hi, rfl⟩ := List.mem_mapIdx.1 hc
    exact .item (List.getElem?_eq_getElem hi) h

/-- What is in a child precedes what is in the children behind it. -/
theorem pairwise_listed (n : Node) :
    n.listed.Pairwise fun a b => ∀ p q, n.Precedes (a.1 :: p) (b.1 :: q) := by
  cases n with
  | literal v => exact .nil
  | terminal t => exact .nil
  | map entries =>
    have hnames := List.pairwise_map.1 (Fields.names_ofEntries_pairwise entries)
    exact List.pairwise_map.2 (hnames.imp fun hlt p q => .names hlt)
  | seq items =>
    refine List.pairwise_iff_getElem.2 fun i j hi hj hlt p q => ?_
    simp only [listed, List.getElem_mapIdx]
    exact .positions hlt

/-- The terminals of a node come in the order of their declaration. -/
theorem pairwise_sites (n : Node) : (n.sites.map Site.path).Pairwise n.Precedes := by
  induction n using listed_induction with
  | h n ih =>
    by_cases hn : ∃ t, n = terminal t
    · obtain ⟨t, rfl⟩ := hn
      exact List.pairwise_singleton _ _
    · rw [sites_eq_listed fun t heq => hn ⟨t, heq⟩, List.map_flatMap, List.pairwise_flatMap]
      constructor
      · intro c hc
        rw [map_path_inside, List.pairwise_map]
        exact (ih c hc).imp fun h => .of_listed hc h
      · refine n.pairwise_listed.imp fun h p hp q hq => ?_
        rw [map_path_inside] at hp hq
        obtain ⟨p, -, rfl⟩ := List.mem_map.1 hp
        obtain ⟨q, -, rfl⟩ := List.mem_map.1 hq
        exact h p q

end Node

end ValueResolution
