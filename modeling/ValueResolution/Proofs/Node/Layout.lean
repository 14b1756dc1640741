import Mathlib.Data.List.Flatten
import ValueResolution.Proofs.Node.Form
import ValueResolution.Proofs.Store.Unfolding
/-!
# Laying a node out

Laying a node out adds its skeleton to an arena, every container once, and touches nothing that was
there (`Laid`). Skeletons laid one after the other stand side by side (`Laid.append`), and an entry
that names them closes them into one tree (`Laid.close`). The tree that `Node.lay` adds is the form
of the node with every slot empty (`Node.lay_laid`).
-/

set_option autoImplicit false

namespace ValueResolution

open Store

/-- The arena `a'` has the unfoldings `us` in addition to `a`, with no entry in two places. -/
structure Laid (a a' : Arena Slot) (us : List (Unfolding Slot)) : Prop where
  holds : ∀ u ∈ us, Holds a' u
  nodup : (us.flatMap Unfolding.ids).Nodup
  fresh : ∀ i ∈ us.flatMap Unfolding.ids, size a ≤ i ∧ i < size a'
  frame : ∀ i < size a, get? a' i = get? a i
  grows : size a ≤ size a'

namespace Laid

variable {a b c : Arena Slot} {us vs : List (Unfolding Slot)}

theorem nil (a : Arena Slot) : Laid a a [] where
  holds := by simp
  nodup := List.nodup_nil
  fresh := by simp
  frame _ _ := rfl
  grows := Nat.le_refl _

/-- What was laid stays when more is laid. -/
theorem append (h₁ : Laid a b us) (h₂ : Laid b c vs) : Laid a c (us ++ vs) where
  holds u hu := by
    rcases List.mem_append.1 hu with hu | hu
    · intro x hx
      have hmem : x.1 ∈ us.flatMap Unfolding.ids :=
        List.mem_flatMap.2 ⟨u, hu, List.mem_map_of_mem (f := Prod.fst) hx⟩
      rw [h₂.frame x.1 (h₁.fresh x.1 hmem).2]
      exact h₁.holds u hu x hx
    · exact h₂.holds u hu
  nodup := by
    rw [List.flatMap_append, List.nodup_append]
    refine ⟨h₁.nodup, h₂.nodup, fun i hi j hj heq => ?_⟩
    exact Nat.lt_irrefl _ (Nat.lt_of_lt_of_le (h₁.fresh i hi).2 (heq ▸ (h₂.fresh j hj).1))
  fresh i hi := by
    rw [List.flatMap_append] at hi
    rcases List.mem_append.1 hi with hi | hi
    · exact ⟨(h₁.fresh i hi).1, Nat.lt_of_lt_of_le (h₁.fresh i hi).2 h₂.grows⟩
    · exact ⟨Nat.le_trans h₁.grows (h₂.fresh i hi).1, (h₂.fresh i hi).2⟩
  frame i hi := (h₂.frame i (Nat.lt_of_lt_of_le hi h₁.grows)).trans (h₁.frame i hi)
  grows := Nat.le_trans h₁.grows h₂.grows

/-- An entry that names some of what was laid, each at most once, makes one tree of it. -/
theorem close (h : Laid a b us) {u : Unfolding Slot} (hid : u.id = size b)
    (hinner : ∃ vs : List (Unfolding Slot), vs.Subperm us ∧
      u.inner = vs.flatMap Unfolding.entries) : Laid a (push b u.entry) [u] := by
  obtain ⟨vs, hsub, hinner⟩ := hinner
  have hids : u.ids = size b :: vs.flatMap Unfolding.ids := by
    rw [Unfolding.ids, Unfolding.entries_eq, hinner, List.map_cons, List.map_flatMap, hid]
    rfl
  have hsub' : (vs.flatMap Unfolding.ids).Subperm (us.flatMap Unfolding.ids) := by
    obtain ⟨ws, hp, hl⟩ := hsub
    exact ⟨_, hp.flatMap_right _, hl.flatMap _⟩
  have hold : ∀ i < size b, get? (push b u.entry) i = get? b i := fun i hi =>
    get?_push_of_lt hi u.entry
  refine ⟨fun w hw x hx => ?_, ?_, fun i hi => ?_, fun i hi => ?_, ?_⟩
  · obtain rfl := List.mem_singleton.1 hw
    rw [Unfolding.entries_eq, hinner] at hx
    rcases List.mem_cons.1 hx with rfl | hx
    · rw [hid, get?_push_size]
    · obtain ⟨v, hv, hx⟩ := List.mem_flatMap.1 hx
      have hmem : x.1 ∈ us.flatMap Unfolding.ids :=
        List.mem_flatMap.2 ⟨v, hsub.subset hv, List.mem_map_of_mem (f := Prod.fst) hx⟩
      rw [hold x.1 (h.fresh x.1 hmem).2]
      exact h.holds v (hsub.subset hv) x hx
  · rw [List.flatMap_cons, List.flatMap_nil, List.append_nil, hids, List.nodup_cons]
    refine ⟨fun hmem => Nat.lt_irrefl _ (h.fresh _ (hsub'.subset hmem)).2, ?_⟩
    obtain ⟨ws, hp, hl⟩ := hsub'
    exact hp.nodup_iff.1 (h.nodup.sublist hl)
  · rw [List.flatMap_cons, List.flatMap_nil, List.append_nil, hids] at hi
    rw [LawfulStore.size_push]
    rcases List.mem_cons.1 hi with rfl | hi
    · exact ⟨h.grows, Nat.lt_succ_self _⟩
    · obtain ⟨hge, hlt⟩ := h.fresh i (hsub'.subset hi)
      exact ⟨hge, Nat.lt_succ_of_lt hlt⟩
  · rw [hold i (Nat.lt_of_lt_of_le hi h.grows), h.frame i hi]
  · rw [LawfulStore.size_push]
    exact Nat.le_succ_of_le h.grows

end Laid

namespace Node

/-- No terminal has a value. -/
def noSlots : Path → Slot := fun _ => none

/-- The tree that laying a node out adds is the form of the node without values. -/
def LaysForm (n : Node) : Prop := ∀ a : Arena Slot, ∃ u, (n.lay a).2 = u.id ∧
  Laid a (n.lay a).1 [u] ∧ u.tree = n.form noSlots

theorem laysForm_leaf {n : Node} {slot : Slot}
    (hlay : ∀ a : Arena Slot, n.lay a = (push a (.leaf slot), size a))
    (hform : n.form noSlots = .leaf slot) : n.LaysForm := by
  intro a
  refine ⟨.leaf (size a) slot, by rw [hlay]; rfl, ?_, hform.symm⟩
  rw [hlay]
  exact (Laid.nil a).close (u := .leaf (size a) slot) rfl ⟨[], List.Subperm.refl _, rfl⟩

/-- The entries of a mapping are laid side by side. -/
theorem layEntries_laid {entries : List (String × Node)} (h : ∀ e ∈ entries, e.2.LaysForm)
    (a : Arena Slot) : ∃ us : Fields (Unfolding Slot),
      (layEntries a entries).2 = us.mapEntries Unfolding.id ∧
      Laid a (layEntries a entries).1 (us.map Prod.snd) ∧
      us.mapEntries Unfolding.tree = Fields.mapEntries (fun n => n.form noSlots) entries := by
  induction entries generalizing a with
  | nil => exact ⟨[], rfl, Laid.nil a, rfl⟩
  | cons e rest ih =>
    obtain ⟨name, n⟩ := e
    obtain ⟨u, hid, hu, htree⟩ := h (name, n) List.mem_cons_self a
    obtain ⟨us, hids, hus, htrees⟩ := ih (fun e he => h e (List.mem_cons_of_mem _ he)) (n.lay a).1
    refine ⟨(name, u) :: us, ?_, hu.append hus, ?_⟩
    · exact congrArg₂ List.cons (congrArg (Prod.mk name) hid) hids
    · exact congrArg₂ List.cons (congrArg (Prod.mk name) htree) htrees

/-- The items of a sequence are laid side by side. -/
theorem layItems_laid {items : List Node} (h : ∀ n ∈ items, n.LaysForm) (a : Arena Slot) :
    ∃ us : List (Unfolding Slot), (layItems a items).2 = us.map Unfolding.id ∧
      Laid a (layItems a items).1 us ∧
      us.map Unfolding.tree = items.map fun n => n.form noSlots := by
  induction items generalizing a with
  | nil => exact ⟨[], rfl, Laid.nil a, rfl⟩
  | cons n rest ih =>
    obtain ⟨u, hid, hu, htree⟩ := h n List.mem_cons_self a
    obtain ⟨us, hids, hus, htrees⟩ := ih (fun e he => h e (List.mem_cons_of_mem _ he)) (n.lay a).1
    exact ⟨u :: us, congrArg₂ List.cons hid hids, hu.append hus, congrArg₂ List.cons htree htrees⟩

/-- Laying a node out adds its form, with every slot empty. -/
theorem lay_laid (n : Node) : n.LaysForm := by
  induction n using Node.induction with
  | literal v => exact laysForm_leaf (fun a => rfl) rfl
  | terminal t => exact laysForm_leaf (fun a => rfl) rfl
  | map entries ih =>
    intro a
    obtain ⟨us, hids, hus, htrees⟩ := layEntries_laid ih a
    obtain ⟨kept, hp, hl⟩ := Fields.ofEntries_subperm us
    have hlay : ((map entries).lay a).1 = push (layEntries a entries).1
        (.map (Fields.ofEntries (layEntries a entries).2)) := rfl
    refine ⟨.map (size (layEntries a entries).1) (Fields.ofEntries us), rfl, ?_, ?_⟩
    · have hclose := hus.close
        (u := .map (size (layEntries a entries).1) (Fields.ofEntries us)) rfl
        ⟨(Fields.ofEntries us).map Prod.snd, ⟨_, hp.map _, hl.map _⟩, by
          rw [List.flatMap_map]; rfl⟩
      rw [hlay, hids, Fields.ofEntries_mapEntries]
      exact hclose
    · rw [Unfolding.tree_map, ← Fields.ofEntries_mapEntries, htrees, Fields.ofEntries_mapEntries,
        form_map]
      rfl
  | seq items ih =>
    intro a
    obtain ⟨us, hids, hus, htrees⟩ := layItems_laid ih a
    have hlay : ((seq items).lay a).1 = push (layItems a items).1 (.seq (layItems a items).2) := rfl
    refine ⟨.seq (size (layItems a items).1) us, rfl, ?_, ?_⟩
    · have hclose := hus.close (u := .seq (size (layItems a items).1) us) rfl
        ⟨us, List.Subperm.refl _, rfl⟩
      rw [hlay, hids]
      exact hclose
    · rw [Unfolding.tree_seq, htrees, form_seq]
      refine congrArg _ (List.ext_getElem? fun i => ?_)
      simp only [List.getElem?_map, List.getElem?_mapIdx]
      rfl

/-- Every terminal has a leaf at its place, wherever the form is kept. -/
theorem exists_leaf_site {n : Node} {u : Unfolding Slot} {σ : Path → Slot}
    (htree : u.tree = n.form σ) {site : Site} (h : site ∈ n.sites) :
    ∃ i slot, u.at? site.path = some (.leaf i slot) := by
  have hat := form_at?_site h σ
  rw [← htree, Unfolding.at?_tree] at hat
  obtain ⟨v, hv, hleaf⟩ := Option.map_eq_some_iff.1 hat
  cases v with
  | leaf i slot => exact ⟨i, slot, hv⟩
  | map i children => simp at hleaf
  | seq i items => simp at hleaf

end Node

end ValueResolution
