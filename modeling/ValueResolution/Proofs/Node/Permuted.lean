import ValueResolution.Proofs.Likeness.Trees
/-!
# Nodes whose entries are permuted

`Node.Permuted` relates two nodes when the second has the entries of the mappings of the first in
another order, at any depth. Where names are distinct (`Node.Distinct`) the two have the same
terminals at the same places (`Node.Permuted.sites_perm`) and alike forms
(`Node.Permuted.form_alike`).
-/

set_option autoImplicit false

namespace ValueResolution

namespace Node

/-- In every mapping of the node the names are distinct. -/
inductive Distinct : Node → Prop where
  | literal (v : Value) : Distinct (literal v)
  | terminal (t : Terminal) : Distinct (terminal t)
  | map {entries : List (String × Node)} (hd : Fields.Distinct entries)
      (h : ∀ e ∈ entries, Distinct e.2) : Distinct (map entries)
  | seq {items : List Node} (h : ∀ n ∈ items, Distinct n) : Distinct (seq items)

/-- The second node is the first one with the entries of its mappings permuted: the names of each
mapping are, and each name has the node of the first one, which may be permuted inside. -/
inductive Permuted : Node → Node → Prop where
  | literal (v : Value) : Permuted (literal v) (literal v)
  | terminal (t : Terminal) : Permuted (terminal t) (terminal t)
  | map {entries entries' : List (String × Node)}
      (hp : (Fields.names entries).Perm (Fields.names entries'))
      (h : ∀ name n n', (name, n) ∈ entries → (name, n') ∈ entries' → Permuted n n') :
      Permuted (map entries) (map entries')
  | seq {items items' : List Node} (hlen : items.length = items'.length)
      (h : ∀ (i : Nat) n n', items[i]? = some n → items'[i]? = some n' → Permuted n n') :
      Permuted (seq items) (seq items')

variable {n n' : Node}

theorem Distinct.permuted_self (h : n.Distinct) : n.Permuted n := by
  induction h with
  | literal v => exact .literal v
  | terminal t => exact .terminal t
  | map hd _ ih =>
    refine .map (List.Perm.refl _) fun name m m' hm hm' => ?_
    obtain rfl : m = m' :=
      Option.some.inj ((Fields.at?_of_mem hd hm).symm.trans (Fields.at?_of_mem hd hm'))
    exact ih _ hm
  | seq _ ih =>
    refine .seq rfl fun i m m' hm hm' => ?_
    obtain rfl : m = m' := Option.some.inj (hm.symm.trans hm')
    exact ih m (List.mem_of_getElem? hm)

/-- A permutation of the entries of a mapping. -/
theorem Distinct.permuted_of_perm {entries entries' : List (String × Node)}
    (h : (Node.map entries).Distinct) (hp : entries.Perm entries') :
    (Node.map entries).Permuted (.map entries') := by
  cases h with
  | map hd h =>
    refine .map (hp.map Prod.fst) fun name m m' hm hm' => ?_
    obtain rfl : m = m' := Option.some.inj
      ((Fields.at?_of_mem hd hm).symm.trans (Fields.at?_of_mem hd (hp.symm.subset hm')))
    exact (h _ hm).permuted_self

namespace Permuted

theorem symm (h : n.Permuted n') : n'.Permuted n := by
  induction h with
  | literal v => exact .literal v
  | terminal t => exact .terminal t
  | map hp _ ih => exact .map hp.symm fun name m m' hm hm' => ih name m' m hm' hm
  | seq hlen _ ih => exact .seq hlen.symm fun i m m' hm hm' => ih i m' m hm' hm

theorem distinct (h : n.Permuted n') (hd : n.Distinct) : n'.Distinct := by
  induction h with
  | literal v => exact .literal v
  | terminal t => exact .terminal t
  | map hp _ ih =>
    cases hd with
    | map hd hinner =>
      refine .map (hp.nodup_iff.1 hd) fun e he => ?_
      obtain ⟨⟨name, m⟩, hm, hname⟩ :=
        List.mem_map.1 (hp.symm.subset (List.mem_map_of_mem (f := Prod.fst) he))
      obtain rfl : name = e.1 := hname
      exact ih e.1 m e.2 hm he (hinner _ hm)
  | seq hlen _ ih =>
    cases hd with
    | seq hinner =>
      refine .seq fun m' hm' => ?_
      obtain ⟨i, hi, rfl⟩ := List.getElem_of_mem hm'
      have hget := List.getElem?_eq_getElem (hlen.symm ▸ hi)
      exact ih i _ _ hget (List.getElem?_eq_getElem hi) (hinner _ (List.mem_of_getElem? hget))

/-- Every child has its permuted one under the same key. -/
theorem step? (h : n.Permuted n') (hd : n.Distinct) {slot : Key} {child : Node}
    (hs : n.step? slot = some (slot, child)) :
    ∃ child', n'.step? slot = some (slot, child') ∧ child.Permuted child' ∧ child.Distinct := by
  have hd' := h.distinct hd
  cases h with
  | literal v => simp [Node.step?] at hs
  | terminal t => simp [Node.step?] at hs
  | map hp h =>
    cases hd with
    | map hd hinner =>
      cases hd' with
      | map hd' _ =>
        obtain ⟨hc, hslot⟩ := step?_map.1 hs
        rw [Fields.ofEntries_of_distinct hd] at hc
        have hmem := Fields.mem_of_at? hc
        obtain ⟨⟨name, child'⟩, hmem', hname⟩ :=
          List.mem_map.1 (hp.subset (List.mem_map_of_mem (f := Prod.fst) hmem))
        obtain rfl : name = slot.text := hname
        refine ⟨child', step?_map.2 ⟨?_, hslot⟩, h _ _ _ hmem hmem', hinner _ hmem⟩
        rw [Fields.ofEntries_of_distinct hd']
        exact Fields.at?_of_mem hd' hmem'
  | seq hlen h =>
    cases hd with
    | seq hinner =>
      obtain ⟨i, hi, hc, hslot⟩ := step?_seq.1 hs
      obtain ⟨hlt, -⟩ := List.getElem?_eq_some_iff.1 hc
      have hget := List.getElem?_eq_getElem (hlen ▸ hlt)
      exact ⟨_, step?_seq.2 ⟨i, hi, hget, hslot⟩, h i _ _ hc hget,
        hinner _ (List.mem_of_getElem? hc)⟩

theorem sites_subset (h : n.Permuted n') (hd : n.Distinct) : n.sites ⊆ n'.sites := by
  intro site hsite
  obtain ⟨path, t⟩ := site
  induction path generalizing n n' with
  | nil =>
    rcases mem_sites.1 hsite with ⟨t, rfl, heq⟩ | ⟨slot, child, -, inner, -, heq⟩
    · cases h
      exact hsite
    · simp [Site.inside] at heq
  | cons key path ih =>
    rcases mem_sites.1 hsite with ⟨t, -, heq⟩ | ⟨slot, child, hs, ⟨path', t'⟩, hinner, heq⟩
    · simp at heq
    · obtain ⟨⟨rfl, rfl⟩, rfl⟩ : (key = slot ∧ path = path') ∧ t = t' := by
        simpa [Site.inside] using heq
      obtain ⟨child', hs', hchild, hdchild⟩ := h.step? hd hs
      exact mem_sites.2 (Or.inr ⟨key, child', hs', _, ih hchild hdchild hinner, rfl⟩)

/-- The terminals are the same, at the same places. -/
theorem sites_perm (h : n.Permuted n') (hd : n.Distinct) : n.sites.Perm n'.sites :=
  (List.perm_ext_iff_of_nodup n.nodup_sites.of_map n'.nodup_sites.of_map).2 fun _ =>
    ⟨fun hs => h.sites_subset hd hs, fun hs => h.symm.sites_subset (h.distinct hd) hs⟩

/-- The forms are alike when the literals are well-formed and the slots are alike. -/
theorem form_alike (h : n.Permuted n') (hd : n.Distinct) {σ τ : Path → Slot}
    (hl : ∀ v, n.HasLiteral v → v.Proper)
    (hσ : ∀ site ∈ n.sites, Option.Rel Value.Alike (σ site.path) (τ site.path)) :
    (n.form σ).Alike (n'.form τ) := by
  have hd' := h.distinct hd
  induction h generalizing σ τ with
  | literal v => exact .leaf (.some (Value.alike_self (hl v ⟨[], .here⟩)))
  | terminal t => exact .leaf (hσ ⟨[], t⟩ (List.mem_singleton_self _))
  | @map entries entries' hp h ih =>
    cases hd with
    | map hd hinner =>
      cases hd' with
      | map hd' hinner' =>
        refine form_map_alike (fun name => ?_) fun name m m' hm hm' => ?_
        · rw [Fields.ofEntries_of_distinct hd, Fields.ofEntries_of_distinct hd']
          exact hp.mem_iff
        · have hs : (Node.map entries).step? (.field name) = some (.field name, m) :=
            step?_map.2 ⟨hm, rfl⟩
          rw [Fields.ofEntries_of_distinct hd] at hm
          rw [Fields.ofEntries_of_distinct hd'] at hm'
          have hmem := Fields.mem_of_at? hm
          have hmem' := Fields.mem_of_at? hm'
          refine ih name m m' hmem hmem' (hinner _ hmem) (fun v hv => hl v (hv.of_step? hs))
            (fun site hsite => ?_) (hinner' _ hmem')
          exact hσ _ (mem_sites.2 (Or.inr ⟨_, _, hs, site, hsite, rfl⟩))
  | @seq items items' hlen h ih =>
    cases hd with
    | seq hinner =>
      cases hd' with
      | seq hinner' =>
        refine form_seq_alike hlen fun i m m' hm hm' => ?_
        have hs : (Node.seq items).step? (.index i) = some (.index i, m) :=
          step?_seq.2 ⟨i, rfl, hm, rfl⟩
        refine ih i m m' hm hm' (hinner _ (List.mem_of_getElem? hm))
          (fun v hv => hl v (hv.of_step? hs)) (fun site hsite => ?_)
          (hinner' _ (List.mem_of_getElem? hm'))
        exact hσ _ (mem_sites.2 (Or.inr ⟨_, _, hs, site, hsite, rfl⟩))

end Permuted

end Node

end ValueResolution
