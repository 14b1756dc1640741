import ValueResolution.Proofs.Likeness.Unordered
/-!
# Trees without regard to the order of names

`Tree.Alike` relates trees that have alike leaves in the same places, mappings by their names. Alike
trees are read alike (`Tree.Alike.read`), and the forms of a node are alike when its slots are
(`Node.form_alike`). So resolving does not tell alike values apart (`Value.congruence_alike`).
-/

set_option autoImplicit false

namespace ValueResolution

namespace Tree

/-- Trees that have alike leaves, mappings without regard to the order of their names. -/
inductive Alike : Tree Slot → Tree Slot → Prop where
  | leaf {slot slot' : Slot} (h : Option.Rel Value.Alike slot slot') :
      Alike (leaf slot) (leaf slot')
  | map {children children' : List (String × Tree Slot)} (hd : Fields.Distinct children)
      (hd' : Fields.Distinct children')
      (names : ∀ name, name ∈ Fields.names children ↔ name ∈ Fields.names children')
      (h : ∀ name t t', Fields.at? children name = some t → Fields.at? children' name = some t' →
        Alike t t') :
      Alike (map children) (map children')
  | seq {items items' : List (Tree Slot)} (hlen : items.length = items'.length)
      (h : ∀ (i : Nat) t t', items[i]? = some t → items'[i]? = some t' → Alike t t') :
      Alike (seq items) (seq items')

namespace Alike

variable {t t' : Tree Slot}

/-- The values that alike trees stand for are alike. -/
theorem value (h : t.Alike t') : Option.Rel Value.Alike (t.value fun slot => slot)
    (t'.value fun slot => slot) := by
  induction h with
  | leaf h => exact h
  | @map children children' hd hd' names _ ih =>
    have hrel : ∀ name, Option.Rel Value.Alike
        (Fields.at? (fields (fun slot => slot) children) name)
        (Fields.at? (fields (fun slot => slot) children') name) := by
      intro name
      rw [at?_fields _ hd, at?_fields _ hd']
      exact rel_bind (Fields.rel_at? names ih name) fun _ _ h => h
    exact .some (.object (distinct_fields _ hd) (distinct_fields _ hd')
      (Fields.mem_names_of_rel hrel) (Fields.of_rel_at? hrel))
  | seq hlen _ ih =>
    have hrel := List.rel_filterMap (fun _ _ h => h) (forall₂_of_getElem? hlen ih)
    simp only [Tree.value, values_eq]
    refine .some (.array hrel.length_eq fun i v v' hv hv' => ?_)
    obtain ⟨hi, rfl⟩ := List.getElem?_eq_some_iff.1 hv
    obtain ⟨hi', rfl⟩ := List.getElem?_eq_some_iff.1 hv'
    exact (List.forall₂_iff_get.1 hrel).2 i hi hi'

theorem child? (h : t.Alike t') (key : Key) : Option.Rel Alike (t.child? key) (t'.child? key) := by
  cases h with
  | leaf h => exact .none
  | map _ _ names h => exact Fields.rel_at? names h key.text
  | seq hlen h =>
    simp only [Tree.child?]
    cases key.index? with
    | none => exact .none
    | some i => exact rel_getElem? hlen h i

/-- Alike trees are read alike. -/
theorem read (h : t.Alike t') (path : Path) :
    Option.Rel Value.Alike (t.read path) (t'.read path) := by
  induction path generalizing t t' with
  | nil => exact h.value
  | cons key rest ih =>
    have hchild := h.child? key
    cases h with
    | leaf h => exact rel_bind h fun _ _ hv => hv.reach _
    | map _ _ _ _ | seq _ _ => exact rel_bind hchild fun _ _ hc => ih hc

end Alike

end Tree

namespace Node

/-- The forms of mappings are alike when they have the same names and the forms of their nodes
are. -/
theorem form_map_alike {entries entries' : List (String × Node)} {σ τ : Path → Slot}
    (hn : ∀ name, name ∈ Fields.names (Fields.ofEntries entries) ↔
      name ∈ Fields.names (Fields.ofEntries entries'))
    (h : ∀ name n n', Fields.at? (Fields.ofEntries entries) name = some n →
      Fields.at? (Fields.ofEntries entries') name = some n' →
      (n.form (under σ (.field name))).Alike (n'.form (under τ (.field name)))) :
    ((map entries).form σ).Alike ((map entries').form τ) := by
  have hnames : ∀ (fs : Fields Node) (ρ : Path → Slot),
      Fields.names (fs.map fun e => (e.1, e.2.form (under ρ (.field e.1)))) = fs.names := by
    intro fs ρ
    simp [Fields.names, Function.comp_def]
  rw [form_map, form_map]
  refine .map ?_ ?_ (fun name => ?_) fun name t t' ht ht' => ?_
  · rw [Fields.Distinct, hnames]
    exact Fields.distinct_ofEntries _
  · rw [Fields.Distinct, hnames]
    exact Fields.distinct_ofEntries _
  · rw [hnames, hnames]
    exact hn name
  · rw [Fields.at?_mapNamed fun name (n : Node) => n.form (under σ (.field name))] at ht
    rw [Fields.at?_mapNamed fun name (n : Node) => n.form (under τ (.field name))] at ht'
    obtain ⟨n, hn, rfl⟩ := Option.map_eq_some_iff.1 ht
    obtain ⟨n', hn', rfl⟩ := Option.map_eq_some_iff.1 ht'
    exact h name n n' hn hn'

theorem form_seq_alike {items items' : List Node} {σ τ : Path → Slot}
    (hlen : items.length = items'.length)
    (h : ∀ (i : Nat) n n', items[i]? = some n → items'[i]? = some n' →
      (n.form (under σ (.index i))).Alike (n'.form (under τ (.index i)))) :
    ((seq items).form σ).Alike ((seq items').form τ) := by
  rw [form_seq, form_seq]
  refine .seq (by simpa using hlen) fun i t t' ht ht' => ?_
  rw [List.getElem?_mapIdx] at ht ht'
  obtain ⟨n, hn, rfl⟩ := Option.map_eq_some_iff.1 ht
  obtain ⟨n', hn', rfl⟩ := Option.map_eq_some_iff.1 ht'
  exact h i n n' hn hn'

/-- A literal of a child is one of the node. -/
theorem HasLiteral.of_step? {n child : Node} {slot : Key} {v : Value} (h : child.HasLiteral v)
    (hs : n.step? slot = some (slot, child)) : n.HasLiteral v := by
  obtain ⟨path, hleaf⟩ := h
  have hc := form_child? n noSlots slot
  rw [hs] at hc
  refine ⟨slot :: path, ?_⟩
  cases n with
  | literal v => simp [step?] at hs
  | terminal t => simp [step?] at hs
  | map entries =>
    obtain ⟨-, hslot⟩ := step?_map.1 hs
    rw [form_map] at hc ⊢
    rw [hslot] at hc ⊢
    exact .field hc hleaf
  | seq items =>
    obtain ⟨i, -, -, rfl⟩ := step?_seq.1 hs
    rw [form_seq] at hc ⊢
    exact .item hc hleaf

theorem not_hasLiteral_terminal (t : Terminal) (v : Value) : ¬ (terminal t).HasLiteral v := by
  rintro ⟨path, h⟩
  cases h

/-- A literal of a mapping is one of an entry. -/
theorem HasLiteral.exists_entry {entries : List (String × Node)} {v : Value}
    (h : (map entries).HasLiteral v) : ∃ e ∈ entries, e.2.HasLiteral v := by
  obtain ⟨path, h⟩ := h
  rw [form_map] at h
  cases h with
  | @field _ name _ rest hc h =>
    rw [Fields.at?_mapNamed fun name (n : Node) => n.form (under noSlots (.field name))] at hc
    obtain ⟨n, hn, rfl⟩ := Option.map_eq_some_iff.1 hc
    exact ⟨(name, n), (Fields.ofEntries_subperm entries).subset (Fields.mem_of_at? hn), rest, h⟩

/-- The forms of a node are alike when its literals are well-formed and the slots are alike. -/
theorem form_alike {n : Node} {σ τ : Path → Slot} (hl : ∀ v, n.HasLiteral v → v.Proper)
    (hσ : ∀ site ∈ n.sites, Option.Rel Value.Alike (σ site.path) (τ site.path)) :
    (n.form σ).Alike (n.form τ) := by
  induction n using Node.induction generalizing σ τ with
  | literal v => exact .leaf (.some (Value.alike_self (hl v ⟨[], .here⟩)))
  | terminal t => exact .leaf (hσ ⟨[], t⟩ (List.mem_singleton_self _))
  | map entries ih =>
    refine form_map_alike (fun _ => Iff.rfl) fun name n n' hn hn' => ?_
    obtain rfl : n = n' := Option.some.inj (hn.symm.trans hn')
    have hs : (map entries).step? (.field name) = some (.field name, n) := step?_map.2 ⟨hn, rfl⟩
    refine ih _ ((Fields.ofEntries_subperm entries).subset (Fields.mem_of_at? hn))
      (fun v hv => hl v (hv.of_step? hs)) fun site hsite => ?_
    exact hσ _ (mem_sites.2 (Or.inr ⟨_, _, hs, site, hsite, rfl⟩))
  | seq items ih =>
    refine form_seq_alike rfl fun i n n' hn hn' => ?_
    obtain rfl : n = n' := Option.some.inj (hn.symm.trans hn')
    have hs : (seq items).step? (.index i) = some (.index i, n) := step?_seq.2 ⟨i, rfl, hn, rfl⟩
    refine ih _ (List.mem_of_getElem? hn) (fun v hv => hl v (hv.of_step? hs)) fun site hsite => ?_
    exact hσ _ (mem_sites.2 (Or.inr ⟨_, _, hs, site, hsite, rfl⟩))

end Node

/-- Resolving does not tell alike values apart. -/
theorem Value.congruence_alike : Congruence Value.Alike where
  reach h path := h.reach path
  same h h' := Value.same_congr h h'
  accept h c convert := h.accept? c convert
  form hl hσ path := (Node.form_alike (fun v hv => (hl v hv).proper) hσ).read path

end ValueResolution
