import ValueResolution.Proofs.Stripping
import ValueResolution.Proofs.Trace
/-!
# The end of a pass

At its end a pass takes out the places without a value, from the last to the first. Every place is
still there when its turn comes, and the value of the tree stays (`Pass.stripAll_value`). So a pass
that has filled the slots of some steps ends with the value of the form with these slots
(`Pass.Ended.close`), whether it was stopped or not, and what a compiled tree resolves to is read
off its steps (`ValueTree.CompiledFrom.resolved`).
-/

set_option autoImplicit false

namespace ValueResolution

namespace Tree.HasLeaf

variable {α : Type} {a : α} {t : Tree α} {p : Path}

theorem at?_eq (h : HasLeaf a t p) : t.at? p = some (leaf a) := by
  induction h with
  | here => rfl
  | field hc _ ih => rw [at?, child?, Key.text, hc, Option.bind_some, ih]
  | item hc _ ih => rw [at?, child?, Key.index?, Option.bind_some, hc, Option.bind_some, ih]

end Tree.HasLeaf

/-- Every terminal of a node has its slot at its place. -/
theorem Node.form_hasLeaf {n : Node} {site : Site} (h : site ∈ n.sites) (σ : Path → Slot) :
    (n.form σ).HasLeaf (σ site.path) site.path := by
  refine site_induction (motive := fun n path => ∀ σ, (n.form σ).HasLeaf (σ path) path)
    (fun t σ => .here) (fun n slot child path hs ih σ => ?_) h σ
  have hc := form_child? n σ slot
  rw [hs] at hc
  cases n with
  | literal v => simp [step?] at hs
  | terminal t => simp [step?] at hs
  | map entries =>
    obtain ⟨-, hslot⟩ := step?_map.1 hs
    rw [form_map] at hc ⊢
    rw [hslot] at hc ⊢
    exact .field hc (ih (under σ _))
  | seq items =>
    obtain ⟨i, -, -, rfl⟩ := step?_seq.1 hs
    rw [form_seq] at hc ⊢
    exact .item hc (ih (under σ _))

namespace Pass

open Draft

/-- From the last place to the first, places without a value can be taken out, and the value
stays. -/
theorem stripAll_value {paths : List Path} (hlt : paths.Pairwise fun p q => Path.order q p = .lt)
    {p : Pass} {u : Unfolding Slot} (hroot : p.root = some u.id) (hs : Sound p.draft u)
    (hl : ∀ path ∈ paths, u.tree.HasLeaf none path) : ∃ q, stripAll paths p = .ok q ∧
      q.errors = p.errors ∧ q.snapshot = .ok (u.tree.value fun slot => slot) := by
  induction paths generalizing p u with
  | nil =>
    refine ⟨p, rfl, rfl, ?_⟩
    rw [snapshot, hroot]
    exact hs.holds.materialize _
  | cons path rest ih =>
    obtain ⟨hlt, hrest⟩ := List.pairwise_cons.1 hlt
    obtain ⟨hleaf, hl⟩ := List.forall_mem_cons.1 hl
    by_cases hnil : path = []
    · -- nothing comes before the root, so it is the only place
      subst hnil
      obtain rfl : rest = [] := List.eq_nil_iff_forall_not_mem.2 fun q hq =>
        Path.ne_nil_of_lt (hlt q hq) rfl
      refine ⟨{ p with root := none }, ?_, rfl, ?_⟩
      · rw [stripAll, hroot]
        rfl
      · rw [hleaf.eq_leaf]
        rfl
    · have hat := hleaf.at?_eq
      rw [Unfolding.at?_tree] at hat
      obtain ⟨v, hv, -⟩ := Option.map_eq_some_iff.1 hat
      obtain ⟨d, u', hupdate, hs', htree⟩ := update_strip hs hnil hv
      have hl' : ∀ q ∈ rest, u'.tree.HasLeaf none q := fun q hq => by
        rw [htree]
        exact hleaf.strip_of_lt (hl q hq) (hlt q hq)
      obtain ⟨q, hq, herrors, hsnap⟩ :=
        ih hrest (p := { p with draft := d, root := some u'.id }) rfl hs' hl'
      refine ⟨q, ?_, herrors, ?_⟩
      · rw [stripAll, hroot]
        simp only [change, hupdate]
        exact hq
      · rw [hsnap, htree, hleaf.value_strip rfl]

/-- What a pass ends with, once the absent places are out. -/
theorem close_eq {p q : Pass} {stopped : Bool} {v : Option Value}
    (hq : (if stopped then .ok p else stripAll (Path.sort p.absent).reverse p) = .ok q)
    (hv : q.snapshot = .ok v) : p.close stopped = .ok ⟨v, q.errors⟩ := by
  have hrun : p.close stopped =
      (if stopped then .ok p else stripAll (Path.sort p.absent).reverse p) >>= fun q =>
        q.snapshot >>= fun v => .ok ⟨v, q.errors⟩ := by
    cases stopped <;> rfl
  rw [hrun, hq]
  exact bind_eq_ok_iff.2 ⟨q, rfl, bind_eq_ok_iff.2 ⟨v, hv, rfl⟩⟩

/-- A pass ends with the value of the form whose slots its steps have filled. -/
theorem Ended.close {scope : Scope} {n : Node} {kept steps : List Step} {skeleton : Arena Slot}
    {root : NodeId} {p : Pass} {stopped : Bool}
    (h : Ended scope n [] kept steps (start skeleton root) p stopped)
    (hsites : ∀ s ∈ kept, ∃ site ∈ n.sites, site.path = s.path)
    (hn : (kept.map Step.path).Nodup) : p.close stopped =
      .ok ⟨(n.form (Step.slots kept)).value fun slot => slot, Step.errors steps⟩ := by
  have hshows : p.Shows n (Step.slots kept) := h.shows
  have herrors : p.errors = Step.errors steps := h.errors
  have habsent : p.absent = Step.absent kept := h.absent
  cases stopped with
  | true =>
    rw [close_eq (if_pos rfl) hshows.snapshot, herrors]
  | false =>
    obtain ⟨u, hu, hsound, htree⟩ := hshows
    have hdistinct : (Step.absent kept).Nodup := hn.sublist (List.filter_sublist.map Step.path)
    have hleaf : ∀ path ∈ (Path.sort p.absent).reverse, u.tree.HasLeaf none path := by
      intro path hpath
      rw [List.mem_reverse, (Path.sort_perm _).mem_iff, habsent, Step.absent, List.mem_map] at hpath
      obtain ⟨s, hs, rfl⟩ := hpath
      obtain ⟨hs, hnone⟩ := List.mem_filter.1 hs
      obtain ⟨site, hsite, hpath⟩ := hsites s hs
      have hleaf := Node.form_hasLeaf hsite (Step.slots kept)
      rwa [hpath, Step.slots_of_mem hn hs, Option.isNone_iff_eq_none.1 hnone, ← htree] at hleaf
    have hlt := Path.pairwise_reverse_sort (habsent ▸ hdistinct)
    obtain ⟨q, hq, hqe, hqv⟩ := stripAll_value hlt hu hsound hleaf
    rw [close_eq ((if_neg Bool.false_ne_true).trans hq) hqv, hqe, herrors, htree]

end Pass

namespace ValueTree

/-- What a node resolves to, by the steps of its trace. The steps `kept` have filled their slots.
They are all steps, one for every terminal, or all but one, which stopped the pass. -/
structure Resolved (n : Node) (scope : Scope) (order : List Path) (steps kept : List Step)
    (r : Resolution) : Prop where
  follows : Follows n scope order steps
  value : r.value = (n.form (Step.slots kept)).value fun slot => slot
  errors : r.errors = Step.errors steps
  passed : ∀ s ∈ kept, s.resolution.stops scope = false
  rest : steps.map Step.path = order ∧ steps = kept ∨
    ∃ s, steps = kept ++ [s] ∧ s.resolution.stops scope = true

/-- A pass that does not ask to stop early fills a slot with every step. -/
theorem Resolved.kept_eq_steps {n : Node} {scope : Scope} {order : List Path}
    {steps kept : List Step} {r : Resolution} (h : Resolved n scope order steps kept r)
    (ha : scope.prefs.abortEarly = false) : kept = steps := by
  rcases h.rest with ⟨-, rfl⟩ | ⟨s, -, hs⟩
  · rfl
  · simp [Resolution.stops, ha] at hs

/-- The trace of a compiled tree ends, with what its steps say. -/
theorem CompiledFrom.close {t : ValueTree} {n : Node} (h : t.CompiledFrom n) {scope : Scope}
    {steps : List Step} {p : Pass} {stopped : Bool}
    (ht : t.tracePass scope = .ok (steps, p, stopped)) : ∃ order kept r,
      orderIn t.order t.rootedOrder scope = .ok order ∧ p.close stopped = .ok r ∧
      Resolved n scope order steps kept r := by
  obtain ⟨order, ho, hfollows, hall, kept, hend⟩ := h.follows ht
  have hkept : kept.Sublist steps := by
    rcases hend.rest with ⟨-, rfl⟩ | ⟨-, s, rfl, -⟩
    · exact List.Sublist.refl _
    · exact List.sublist_append_left _ _
  have hclose := hend.close
    (fun s hs => by
      obtain ⟨site, hsite, hpath, -⟩ := hfollows.outcome s (hkept.subset hs)
      exact ⟨site, hsite, hpath⟩)
    (hfollows.nodup.sublist (hkept.map Step.path))
  refine ⟨order, kept, _, ho, hclose, hfollows, rfl, rfl, hend.passed, ?_⟩
  rcases hend.rest with ⟨hst, heq⟩ | ⟨-, s, heq, hs⟩
  · exact Or.inl ⟨hall hst, heq⟩
  · exact Or.inr ⟨s, heq, hs⟩

/-- A tree whose terminals all resolve is resolved. -/
theorem CompiledFrom.resolver_of_trace {t : ValueTree} {n : Node} (h : t.CompiledFrom n)
    {scope : Scope} {steps : List Step} (ht : t.trace scope = .ok steps) :
    ∃ r, t.resolver scope = .ok r := by
  obtain ⟨⟨steps, p, stopped⟩, hpass, -⟩ := map_eq_ok_iff.1 ht
  obtain ⟨-, -, r, -, hclose, -⟩ := h.close hpass
  exact ⟨r, by rw [resolver_eq, hpass]; exact hclose⟩

/-- What a compiled tree resolves to is said by the steps of its trace. -/
theorem CompiledFrom.resolved {t : ValueTree} {n : Node} (h : t.CompiledFrom n) {scope : Scope}
    {r : Resolution} (hr : t.resolver scope = .ok r) : ∃ order steps kept,
      orderIn t.order t.rootedOrder scope = .ok order ∧ t.trace scope = .ok steps ∧
      Resolved n scope order steps kept r := by
  obtain ⟨steps, p, stopped, ht, hclose⟩ := tracePass_of_resolver hr
  obtain ⟨order, kept, r', ho, hclose', hresolved⟩ := h.close ht
  obtain rfl : r' = r := Except.ok.inj (hclose'.symm.trans hclose)
  exact ⟨order, steps, kept, ho, by rw [trace, ht]; rfl, hresolved⟩

end ValueTree

end ValueResolution
