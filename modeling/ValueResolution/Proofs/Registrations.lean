import ValueResolution.Proofs.Node.Declared
import ValueResolution.Proofs.Node.Layout
import ValueResolution.Proofs.Store.Search.Tree
import ValueResolution.Proofs.Trace
/-!
# What compiling finds

The skeleton of a compiled tree has an empty slot for every terminal. A search for the empty slots
comes to them in the reverse of the order in which the terminals are declared
(`Node.findPaths_lay`): the skeleton is the form of the node, and what is outermost there are the
places of the terminals, since an empty slot is a leaf (`Node.outermost_form`). So the terminals of
a compiled tree are those that the node declares, and its order of resolution has each of them once
(`ValueTree.compile_registrations`).
-/

set_option autoImplicit false

namespace ValueResolution

/-! ## Children -/

/-- The children of a tree with their keys, in order. -/
def Tree.listed {α : Type} : Tree α → List (Key × Tree α)
  | .leaf _ => []
  | .map children => children.map fun c => (.field c.1, c.2)
  | .seq items => items.mapIdx fun i t => (.index i, t)

theorem Unfolding.listed_tree {α : Type} (u : Unfolding α) :
    u.tree.listed = u.listed.map fun c => (c.1, c.2.tree) := by
  cases u with
  | leaf i a => rfl
  | map i children => simp [Tree.listed, Unfolding.listed, Fields.mapEntries]
  | seq i items =>
    rw [tree_seq, Tree.listed, Unfolding.listed, mapIdx_map, map_mapIdx]

namespace Node

theorem listed_form (n : Node) (σ : Path → Slot) :
    (n.form σ).listed = n.listed.map fun c => (c.1, c.2.form (under σ c.1)) := by
  cases n with
  | literal v => rfl
  | terminal t => rfl
  | map entries => simp [form_map, Tree.listed, listed, Function.comp_def]
  | seq items =>
    rw [form_seq, Tree.listed, listed, List.mapIdx_mapIdx, map_mapIdx]
    rfl

end Node

/-! ## Empty slots -/

/-- A slot that waits for a terminal. -/
def Entry.isVacant : Entry Slot → Bool
  | .leaf none => true
  | _ => false

/-- The form of a node is an empty slot if the node is a terminal. -/
theorem isVacant_entry {n : Node} {u : Unfolding Slot} (htree : u.tree = n.form Node.noSlots) :
    u.entry.isVacant = true ↔ ∃ t, n = .terminal t := by
  cases u with
  | leaf i slot =>
    cases n with
    | literal v =>
      obtain rfl : slot = some v := by simpa [Node.form] using htree
      simp [Unfolding.entry, Entry.isVacant]
    | terminal t =>
      obtain rfl : slot = none := by simpa [Node.form, Node.noSlots] using htree
      simp [Unfolding.entry, Entry.isVacant]
    | map entries => simp [Node.form_map] at htree
    | seq items => simp [Node.form_seq] at htree
  | map i children => cases n <;> simp_all [Node.form, Unfolding.entry, Entry.isVacant]
  | seq i items => cases n <;> simp_all [Node.form, Unfolding.entry, Entry.isVacant]

/-- Two lists that look alike give the same when each element of one gives what its like in the
other one does. -/
theorem flatMap_eq_of_map_eq {α β γ δ : Type} {f : α → γ} {g : β → γ} {F : α → List δ}
    {G : β → List δ} {l : List α} {l' : List β} (h : l.map f = l'.map g)
    (hFG : ∀ a ∈ l, ∀ b ∈ l', f a = g b → F a = G b) : l.flatMap F = l'.flatMap G := by
  induction l generalizing l' with
  | nil =>
    obtain rfl : l' = [] := by simpa using h.symm
    rfl
  | cons a l ih =>
    cases l' with
    | nil => simp at h
    | cons b l' =>
      obtain ⟨hab, h⟩ := List.cons.inj h
      rw [List.flatMap_cons, List.flatMap_cons, hFG a List.mem_cons_self b List.mem_cons_self hab,
        ih h fun a ha b hb => hFG a (List.mem_cons_of_mem _ ha) b (List.mem_cons_of_mem _ hb)]

namespace Node

/-- The empty slots of the form stand at the places of the terminals. -/
theorem outermost_form (n : Node) : ∀ {u : Unfolding Slot}, u.tree = n.form noSlots → ∀ path,
    u.outermost (fun e _ => e.isVacant) path = n.sites.map fun site => path ++ site.path := by
  induction n using listed_induction with
  | h n ih =>
    intro u htree path
    rw [Unfolding.outermost_eq]
    by_cases hn : ∃ t, n = terminal t
    · rw [if_pos ((isVacant_entry htree).2 hn)]
      obtain ⟨t, rfl⟩ := hn
      simp [sites]
    · have hlisted : u.listed.map (fun c => (c.1, c.2.tree)) =
          n.listed.map fun c => (c.1, c.2.form noSlots) := by
        rw [← u.listed_tree, htree]
        exact listed_form n noSlots
      rw [if_neg (mt (isVacant_entry htree).1 hn), Unfolding.beneath, List.flatMap_map,
        sites_eq_listed fun t heq => hn ⟨t, heq⟩, List.map_flatMap]
      refine flatMap_eq_of_map_eq hlisted fun c _ d hd heq => ?_
      obtain ⟨hkey, hchild⟩ := Prod.mk.inj heq
      rw [ih d hd hchild, hkey, List.map_map]
      simp [Site.inside, Function.comp_def]

/-- A search for empty slots in the skeleton comes to the terminals, the last one first. -/
theorem findPaths_lay (n : Node) :
    (Store.findPaths (n.lay {}).1 (n.lay {}).2 fun e _ => e.isVacant).reverse =
      n.sites.map Site.path := by
  obtain ⟨u, hid, hlaid, htree⟩ := n.lay_laid {}
  have hnodup : u.containers.Nodup := by
    have hids : u.ids.Nodup := by simpa using hlaid.nodup
    exact hids.sublist (List.filter_sublist.map Prod.fst)
  rw [hid, Store.findPaths_tree (hlaid.holds u List.mem_cons_self) hnodup, List.reverse_reverse,
    n.outermost_form htree]
  simp

end Node

namespace ValueTree

/-- Compiling finds the terminals of a node. They are listed exactly as the node declares them, with
the paths that lead to them and their kinds, each once and in the order of their declaration, as the
search for the empty slots of the skeleton finds them from behind; and the order of resolution has
the same paths. -/
theorem compile_registrations {n : Node} {t : ValueTree} (h : compile n = .ok t) :
    (∀ path kind, (⟨path, kind⟩ : Registration) ∈ t.registrations ↔
      ∃ terminal, n.Declares path terminal ∧ terminal.kind = kind) ∧
    (t.registrations.map Registration.path).Nodup ∧
    (t.registrations.map Registration.path).Pairwise n.Precedes ∧
    (Store.findPaths t.skeleton t.root fun e _ => e.isVacant).reverse =
      t.registrations.map Registration.path ∧
    t.order.Perm (t.registrations.map Registration.path) := by
  have hc := compiledFrom_of_compile h
  have hpaths : t.registrations.map Registration.path = n.sites.map Site.path := by
    rw [registrations, hc.sites, List.map_map]
    rfl
  rw [hpaths]
  refine ⟨fun path kind => ?_, n.nodup_sites, n.pairwise_sites, ?_, ?_⟩
  · rw [registrations, hc.sites, List.mem_map]
    constructor
    · rintro ⟨⟨path', terminal⟩, hsite, heq⟩
      obtain ⟨rfl, hkind⟩ := Registration.mk.inj heq
      exact ⟨terminal, Node.mem_sites_iff.1 hsite, hkind⟩
    · rintro ⟨terminal, hd, rfl⟩
      exact ⟨⟨path, terminal⟩, Node.mem_sites_iff.2 hd, rfl⟩
  · rw [hc.skeleton, hc.root]
    exact n.findPaths_lay
  · rw [← places_terminalsOf]
    exact resolutionOrder_perm hc.order

/-- A name that is written again behind a sequence. -/
def rewritten : Node := .map
  [("a", .reference (.sibling "b")),
    ("b", .seq [.literal (.whole 1), .expression ⟨"nothing", [], fun _ => .ok none⟩]),
    ("a", .map [("x", .reference (.root "y"))])]

/-- The name keeps its place before the sequence, and the first node under it plays no part. -/
theorem compile_registrations_rewritten : ∃ t, compile rewritten = .ok t ∧
    t.registrations =
      [⟨[.field "a", .field "x"], .reference⟩, ⟨[.field "b", .index 1], .expression⟩] ∧
    (∃ terminal, rewritten.Declares [.field "a", .field "x"] terminal ∧
      terminal.kind = .reference) ∧
    (¬∃ terminal, rewritten.Declares [.field "a"] terminal ∧ terminal.kind = .reference) ∧
    rewritten.Precedes [.field "a", .field "x"] [.field "b", .index 1] := by
  have hrun : (compile rewritten).toOption.map registrations = some
      [⟨[.field "a", .field "x"], .reference⟩, ⟨[.field "b", .index 1], .expression⟩] := by
    decide +kernel
  obtain ⟨t, hc, hlist⟩ := Option.map_eq_some_iff.1 hrun
  have hc := eq_ok_of_toOption hc
  obtain ⟨hmem, -, hprecedes, -, -⟩ := compile_registrations hc
  rw [hlist] at hmem hprecedes
  refine ⟨t, hc, hlist, (hmem _ _).1 (by decide), fun h => ?_, ?_⟩
  · exact absurd ((hmem _ _).2 h) (by decide)
  · exact List.rel_of_pairwise_cons hprecedes List.mem_cons_self

end ValueTree

end ValueResolution
