import ValueResolution.Proofs.Store.Acyclic
import ValueResolution.Proofs.Store.Isolation
import ValueResolution.Proofs.Store.Sharing
/-!
# Editing a tree by copying

A worktree is a draft with a current root, on which edits are made one after the other. Starting
from an acyclic root, this comes to the same as editing the tree of the root
(`Worktree.edit_refines`): every call succeeds exactly when the edit of the tree does, the returned
root has the edited tree, and the edit touches one place of a shared branch only. A call that fails
leaves the tree of the current root as it was. The original root keeps its tree throughout, since no
entry that was there before is ever changed.

What is kept up from call to call (`Worktree.Follows`) is that every copy is a new entry, and that a
root that is no copy has no copies in its tree. So a call that fails halfway, having pointed some
copies to others, has either worked below the root, which then still has its tree, or on a copy of
the root, of which the root itself knows nothing.
-/

set_option autoImplicit false

namespace ValueResolution

open Store

variable {σ α : Type} [Store σ α]

/-- A draft with the root of the tree that is worked on; the root is gone once the whole tree has
been taken away. -/
structure Worktree (σ : Type) where
  draft : Draft σ
  root : Option NodeId

namespace Worktree

/-- Nothing has been copied yet. -/
def start (s : σ) (root : NodeId) : Worktree σ := ⟨{ store := s }, some root⟩

/-- Makes an edit of the current root, if there is one. The root stays if the call fails. -/
def edit (w : Worktree σ) (e : Edit α) : Worktree σ :=
  match w.root with
  | none => w
  | some root =>
    match w.draft.update root e.path (.writing e.leaf?) with
    | (draft, .ok next) => ⟨draft, next⟩
    | (draft, .error _) => ⟨draft, some root⟩

end Worktree

/-- Makes an edit of a tree, if there is one. The tree stays if the edit fails. -/
def Edit.onto (t? : Option (Tree α)) (e : Edit α) : Option (Tree α) :=
  t?.bind fun t => (e.outcome? t).getD (some t)

namespace Draft

/-! ## One call -/

/-- The draft works on a tree at this id. If the id is no copy, there are no copies below it. -/
def Tracks (d : Draft σ) (id : NodeId) (t : Tree α) : Prop :=
  ∃ u : Unfolding α, Keeps d u.entries ∧ u.id = id ∧ u.tree = t ∧
    (id ∈ d.copies ∨ ∀ i ∈ d.copies, places u.entries i = 0)

/-- The draft has only added to the store it began with. -/
structure Extends (s : σ) (d : Draft σ) : Prop where
  grows : size s ≤ size d.store
  same : ∀ i < size s, get? d.store i = get? s i
  copies : ∀ i ∈ d.copies, size s ≤ i

/-- What a call on the root of `t` leaves behind is the outcome of the edit: the root of the edited
tree, or an error and the tree as it was. -/
def Yields (outcome : Draft σ × Except Error (Option NodeId)) (root : NodeId) (t : Tree α)
    (e : Edit α) (P : Draft σ → NodeId → Tree α → Prop) : Prop :=
  match e.outcome? t with
  | some next? => ∃ root?, outcome.2 = .ok root? ∧ Option.Rel (P outcome.1) root? next?
  | none => outcome.2 = .error (.invalidPath (Path.text e.path)) ∧ P outcome.1 root t

variable {s : σ} {d d' : Draft σ} {xs ys : List (Nat × Entry α)} {root : NodeId} {t : Tree α}

/-- The tree that a draft works on is the one at its root. -/
theorem Tracks.unfolds (h : Tracks d root t) : Unfolds d.store root t := by
  obtain ⟨u, hk, hid, htree, -⟩ := h
  exact ⟨u, hk.holds, hid, htree⟩

/-- A draft that only adds goes on with whatever spares what is no copy. -/
theorem Extends.spares (h : Extends s d) (hd : Spares d d') : Extends s d' where
  grows := Nat.le_trans h.grows hd.grows
  same i hi := by
    have hno : i ∉ d.copies := fun hmem => Nat.not_le_of_lt hi (h.copies i hmem)
    rw [hd.same i (Nat.lt_of_lt_of_le hi h.grows) hno, h.same i hi]
  copies i hi := by
    rcases hd.made i hi with hi | hge
    · exact h.copies i hi
    · exact Nat.le_trans h.grows hge

theorem Extends.rework (h : Extends s d) (hr : Reworks d xs d' ys) : Extends s d' :=
  h.spares ⟨hr.grows, fun i hi hno => hr.frame i hi (Or.inl hno), hr.made⟩

omit [Store σ α] in
theorem Yields.imp {outcome : Draft σ × Except Error (Option NodeId)} {e : Edit α}
    {P Q : Draft σ → NodeId → Tree α → Prop} (h : Yields outcome root t e P)
    (hpq : ∀ d id t, P d id t → Q d id t) : Yields outcome root t e Q := by
  unfold Yields at *
  cases ho : e.outcome? t with
  | none =>
    rw [ho] at h
    exact ⟨h.1, hpq _ _ _ h.2⟩
  | some next? =>
    rw [ho] at h
    obtain ⟨root?, hok, hrel⟩ := h
    refine ⟨root?, hok, ?_⟩
    cases hrel with
    | none => exact .none
    | some hp => exact .some (hpq _ _ _ hp)

variable [LawfulStore σ]

/-- Trees of the old store stay in a draft that only adds. -/
theorem Extends.unfolds (hs : Extends s d) (h : Unfolds s root t) : Unfolds d.store root t := by
  obtain ⟨u, hu, hid, htree⟩ := h
  refine ⟨u, hu.congr fun i hi => ?_, hid, htree⟩
  obtain ⟨x, hx, rfl⟩ := List.mem_map.1 hi
  exact hs.same _ (Store.lt_size_of_get? (hu x hx))

/-- A tree without copies stays when copies are made of it. -/
theorem Reworks.keeps_old {u : Unfolding α} (h : Keeps d u.entries)
    (hno : ∀ i ∈ d.copies, places u.entries i = 0) (hr : Reworks d u.entries d' ys) :
    Keeps d' u.entries ∧ ∀ i ∈ d'.copies, places u.entries i = 0 := by
  have hno' : ∀ i ∈ d'.copies, places u.entries i = 0 := fun i hi => by
    rcases hr.made i hi with hi | hge
    · exact hno i hi
    · exact h.places_eq_zero hge
  refine ⟨⟨fun x hx => ?_, fun i hi => ?_, hr.writable⟩, hno'⟩
  · have hold : x.1 ∉ d.copies := fun hmem => by
      have hpos := places_pos hx
      rw [hno _ hmem] at hpos
      exact Nat.lt_irrefl _ hpos
    rw [hr.frame _ (h.lt_size hx) (Or.inl hold)]
    exact h.holds x hx
  · rw [hno' i hi]
    exact Nat.zero_le _

/-- A call does to the worktree what the edit does to the tree. -/
theorem Tracks.update (h : Tracks d root t) (hs : Extends s d) (e : Edit α) :
    Extends s (d.update root e.path (.writing e.leaf?)).1 ∧
      Yields (d.update root e.path (.writing e.leaf?)) root t e Tracks := by
  obtain ⟨u, hk, rfl, rfl, hcopies⟩ := h
  obtain ⟨path, leaf?⟩ := e
  cases path with
  | nil =>
    obtain ⟨new, hid, htree, hsame, hfresh, hstage⟩ := stage_reworks d leaf?
    have hr := (hstage _ hk).2
    refine ⟨hs.rework hr, new.map Unfolding.id, congrArg Except.ok hid, ?_⟩
    simp only [← htree]
    cases new with
    | none => exact .none
    | some v =>
      refine .some ⟨v, hr.keeps hk, rfl, rfl, Or.inr fun i hi => ?_⟩
      have hold : i ∈ d.copies := hsame ▸ hi
      exact hfresh i (hk.copy_lt_size hold)
  | cons key rest =>
    obtain ⟨d', u', hr, hcopy, hsame, hrev⟩ := update_reworks hk leaf? key rest
    simp only [Yields, Edit.outcome?]
    cases ht : u.tree.revise? (leaf?.map .leaf) key rest with
    | some t =>
      rw [ht] at hrev
      obtain ⟨htree, hupdate⟩ := hrev
      rw [hupdate]
      exact ⟨hs.rework hr, _, rfl, .some ⟨u', hr.keeps hk, rfl, htree, Or.inl hcopy⟩⟩
    | none =>
      rw [ht] at hrev
      obtain ⟨htree, hupdate⟩ := hrev
      rw [hupdate]
      refine ⟨hs.rework hr, rfl, ?_⟩
      rcases hcopies with hmem | hno
      · exact ⟨u', hr.keeps hk, hsame hmem, htree, Or.inl (hr.copies hmem)⟩
      · obtain ⟨hk', hno'⟩ := hr.keeps_old hk hno
        exact ⟨u, hk', rfl, rfl, Or.inr hno'⟩

end Draft

namespace Worktree

open Draft

/-! ## Many calls -/

/-- What is kept up while the worktree and the tree are edited alike. -/
structure Follows (s : σ) (w : Worktree σ) (t? : Option (Tree α)) : Prop where
  grown : Extends s w.draft
  tracks : Option.Rel (Tracks w.draft) w.root t?

variable {s : σ} {w : Worktree σ} {t? : Option (Tree α)} {root : NodeId}

variable [LawfulStore σ]

/-- One edit of the working tree is one edit of the tree. -/
theorem Follows.edit (h : Follows s w t?) (e : Edit α) : Follows s (w.edit e) (e.onto t?) := by
  obtain ⟨draft, root?⟩ := w
  obtain ⟨hs, hrel⟩ := h
  cases hrel with
  | none => exact ⟨hs, .none⟩
  | @some root t ht =>
    obtain ⟨hs', hyields⟩ := ht.update hs e
    simp only [Worktree.edit, Edit.onto, Option.bind_some]
    generalize draft.update root e.path (.writing e.leaf?) = outcome at hs' hyields ⊢
    obtain ⟨draft', result⟩ := outcome
    unfold Yields at hyields
    cases ho : e.outcome? t with
    | none =>
      rw [ho] at hyields
      obtain ⟨rfl, ht'⟩ := hyields
      exact ⟨hs', .some ht'⟩
    | some next? =>
      rw [ho] at hyields
      obtain ⟨root?, rfl, hrel⟩ := hyields
      exact ⟨hs', hrel⟩

/-- Edits in a row are edits of the tree in a row. -/
theorem Follows.run (h : Follows s w t?) (edits : List (Edit α)) :
    Follows s (edits.foldl Worktree.edit w) (edits.foldl Edit.onto t?) := by
  induction edits generalizing w t? with
  | nil => exact h
  | cons e rest ih => exact ih (h.edit e)

omit [LawfulStore σ] in
theorem follows_start {u : Unfolding α} (h : Holds s u) :
    Follows s (start s u.id) (some u.tree) where
  grown := ⟨Nat.le_refl _, fun _ _ => rfl, by simp [start]⟩
  tracks := .some ⟨u, ⟨h, by simp [start], by simp [start]⟩, rfl, rfl, Or.inr (by simp [start])⟩

/-- Edits by copying refine edits of the tree. After any calls from an acyclic root, the current
root has the edited tree, the original root has its own, and no entry of the original store has
changed. The next call then succeeds exactly when the edit does, with the root of the edited tree;
if it fails, the current root still has its tree. What is beside the path of the edit stays. -/
theorem edit_refines (s : σ) (root : NodeId) (h : Acyclic s root) :
    ∃ t, Unfolds s root t ∧ ∀ edits : List (Edit α),
      let w := edits.foldl edit (start s root)
      let t? := edits.foldl Edit.onto (some t)
      Option.Rel (Unfolds w.draft.store) w.root t? ∧ Unfolds w.draft.store root t ∧
      (∀ i < size s, get? w.draft.store i = get? s i) ∧
      ∀ current now, w.root = some current → t? = some now → ∀ e : Edit α,
        let outcome := w.draft.update current e.path (.writing e.leaf?)
        Yields outcome current now e (fun d => Unfolds d.store) ∧
        Unfolds outcome.1.store root t ∧
        ∀ next, e.outcome? now = some (some next) →
          ∀ q, now.Beside e.leaf?.isNone e.path q → next.at? q = now.at? q := by
  obtain ⟨_, u, hu, rfl, rfl⟩ := exists_unfolds_iff.2 h
  refine ⟨_, hu.unfolds, fun edits => ?_⟩
  obtain ⟨hgrown, htracks⟩ := (follows_start hu).run edits
  refine ⟨?_, hgrown.unfolds hu.unfolds, hgrown.same, fun current now hroot hnow e => ?_⟩
  · generalize edits.foldl Edit.onto (some u.tree) = t? at htracks ⊢
    generalize (edits.foldl edit (start s u.id)).root = root? at htracks ⊢
    cases htracks with
    | none => exact .none
    | some ht => exact .some ht.unfolds
  · rw [hroot, hnow] at htracks
    obtain ht := Option.rel_some_some.1 htracks
    obtain ⟨hgrown', hyields⟩ := ht.update hgrown e
    exact ⟨hyields.imp fun _ _ _ => Tracks.unfolds, hgrown'.unfolds hu.unfolds,
      fun next hnext q hq => e.at?_outcome hnext hq⟩

/-- A mapping that stands in two places of a sequence. -/
def twoPlaces : Arena Nat := ⟨#[.leaf 0, .map [("x", 0)], .seq [1, 1]]⟩

/-- Its tree, with what stands in each of the places. -/
def inPlaces (a b : Nat) : Tree Nat := .seq [.map [("x", .leaf a)], .map [("x", .leaf b)]]

/-- Writing into one of the places, and failing to write into the other. -/
theorem edit_refines_twoPlaces : Acyclic twoPlaces 2 ∧ ∃ root,
    let w := edit (start twoPlaces 2) ⟨[.index 0, .field "x"], some 7⟩
    let failed := w.draft.update root [.index 1, .field "x", .field "y"] (.writing (some 8))
    w.root = some root ∧ Unfolds w.draft.store root (inPlaces 7 0) ∧
      Unfolds w.draft.store 2 (inPlaces 0 0) ∧ failed.2 = .error (.invalidPath "1.x.y") ∧
      Unfolds failed.1.store root (inPlaces 7 0) := by
  have hacyclic : Acyclic twoPlaces 2 := by
    refine acyclic_of_lt (fun i j hij => ?_) (by decide)
    obtain ⟨e, key, he, hmem⟩ := hij
    have hall : ∀ i < 3, ∀ e ∈ get? twoPlaces i, ∀ x ∈ e.children, x.2 < i := by decide
    exact hall i (lt_size_of_get? he) e he _ hmem
  have hheld : Holds twoPlaces
      (.seq 2 [.map 1 [("x", .leaf 0 0)], .map 1 [("x", .leaf 0 0)]]) := by
    unfold Holds
    decide
  obtain ⟨t, ht, hrun⟩ := edit_refines twoPlaces 2 hacyclic
  obtain rfl := ht.unique hheld.unfolds
  obtain ⟨hrel, horiginal, -, hnext⟩ := hrun [⟨[.index 0, .field "x"], some 7⟩]
  obtain ⟨root, hroot⟩ : ∃ root,
      (edit (start twoPlaces 2) ⟨[.index 0, .field "x"], some 7⟩).root = some root :=
    Option.isSome_iff_exists.1 (by decide)
  obtain ⟨⟨herror, hkept⟩, -⟩ := hnext root (inPlaces 7 0) hroot rfl
    ⟨[.index 1, .field "x", .field "y"], some 8⟩
  refine ⟨hacyclic, root, hroot, ?_, horiginal, herror, hkept⟩
  simp only [List.foldl_cons, List.foldl_nil, hroot] at hrel
  exact Option.rel_some_some.1 hrel

end Worktree

end ValueResolution
