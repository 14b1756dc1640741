import ValueResolution.Proofs.Likeness.Nested
import ValueResolution.Proofs.Likeness.Runs
import ValueResolution.Proofs.Likeness.Schema
import ValueResolution.Proofs.Node.Exchange
import ValueResolution.Proofs.Settling
/-!
# A node wrapped in a schema

A node at a place of another one can be wrapped in a schema of its own. It is then resolved in a
working tree of its own, in an order of its own, when the schema's turn comes, and to the terminals
around it is one value. They cannot tell (`Node.Wrappable.outside_step`), and neither can the
terminals in the node (`Node.Wrappable.nested_steps`): what leaves the node does not lead back to
its place, so it reads the tree around, and all else reads the node. So the whole comes to the same
value, and to the same errors in another order (`ValueTree.resolver_wrapped`).
-/

set_option autoImplicit false

namespace ValueResolution

/-- Equal scopes, as far as the references go, give one resolution. -/
theorem Resolver.Respects.eq {resolve : Resolver} {refs : List Reference}
    (h : resolve.Respects Eq refs) {s s' : Scope} (hs : Scope.Agree Eq refs s s')
    {r r' : Resolution} (hr : resolve s = .ok r) (hr' : resolve s' = .ok r') : r = r' := by
  obtain ⟨found, hfound, halike⟩ := (h s s' hs).exists_ok hr
  obtain rfl : found = r' := Except.ok.inj (hfound.symm.trans hr')
  obtain ⟨value, errors⟩ := r
  obtain ⟨value', errors'⟩ := found
  rw [Resolution.mk.injEq]
  exact ⟨rel_eq_iff.1 halike.value, halike.errors⟩

/-- The values are equal, and the errors are the same up to their order. -/
structure Resolution.Matches (r r' : Resolution) : Prop where
  value : r.value = r'.value
  errors : r.errors.Perm r'.errors

theorem Schema.references_ofTree (t : ValueTree) : (ofTree t).references = t.references := by
  simp [ofTree, references, Source.references, referencesOfTree?, referencesOfConditional?]

theorem Schema.made_ofTree (t : ValueTree) : (ofTree t).made = t.made := by
  simp [ofTree, made, Source.made, madeInTree?, madeInConditional?]

namespace Node

open ValueTree

/-- The node at a place can be wrapped: its tree makes no reference that counts from the outermost
container, and none that leaves it and leads back to its place. All references name positions by
their numerals, and all terminals depend only on what their references read. -/
structure Wrappable (n : Node) (place : Path) (inner : Node) (t : ValueTree) : Prop where
  at? : n.at? place = some inner
  tree : t.CompiledFrom inner
  levelless : ∀ site ∈ inner.sites, ∀ r ∈ site.terminal.references, r.isLevel = false
  away : ∀ r ∈ t.references, ∀ target, r.target? place = some target →
    Path.overlaps place target = false
  spelled : ∀ site ∈ n.sites, ∀ r ∈ site.terminal.references, r.Spelled
  respects : ∀ site ∈ n.sites, site.terminal.resolver.Respects Eq site.terminal.references

/-- What the terminals of the wrapped tree come to when those of the flat one come to the given
outcomes: the wrapped node has the value of its form, and the errors of its terminals. -/
def wrappedOutcome (inner : Node) (place : Path) (outcome : Path → Resolution) (path : Path) :
    Resolution :=
  if path = place then
    { value := (inner.form (beyond (filled outcome) place)).value fun slot => slot
      errors := inner.sites.flatMap (reported fun path => outcome (place ++ path)) }
  else outcome path

theorem beyond_update (φ : Path → Slot) (place path : Path) (a : Slot) :
    beyond (Function.update φ (place ++ path) a) place =
      Function.update (beyond φ place) path a := by
  funext p
  simp [beyond, Function.update_apply]

/-- Outside of the place both trees have the same slots. -/
theorem filled_wrappedOutcome (inner : Node) {place path : Path} (outcome : Path → Resolution)
    (h : ¬ place <+: path) :
    filled outcome path = filled (wrappedOutcome inner place outcome) path := by
  have hne : path ≠ place := by
    rintro rfl
    exact h (List.prefix_refl path)
  rw [filled, filled, wrappedOutcome, if_neg hne]

/-- In a node that fits equality, one at a place can be wrapped when what is made in its tree asks
for nothing else. -/
theorem wrappable {n inner : Node} {place : Path} {t : ValueTree} (hat : n.at? place = some inner)
    (ht : compile inner = .ok t) (hbuilt : ∀ s ∈ n.schemas, s.Built) (hfits : n.Fits Eq)
    (hspelled : ∀ site ∈ n.sites, ∀ m ∈ site.terminal.made, m.2.Spelled)
    (hlevel : Levelless t.made)
    (haway : ∀ m ∈ t.made, ∀ out, m.out? = some out → ∀ target, out.target? place = some target →
      Path.overlaps place target = false) : n.Wrappable place inner t := by
  have hfrom := compiledFrom_of_compile ht
  rw [made_eq, hfrom.sites] at hlevel
  refine ⟨hat, hfrom, fun site hsite => (hlevel.of_site hsite).references, fun out hout => ?_,
    fun site hsite => Reference.spelled_of_made (hspelled site hsite),
    fun site hsite => hfits.respects congruence_eq hbuilt hsite⟩
  rw [references_eq] at hout
  obtain ⟨m, hm, hout⟩ := List.mem_filterMap.1 hout
  exact haway m hm out hout

namespace Wrappable

variable {n inner : Node} {place : Path} {t flat wrapped : ValueTree} {scope : Scope}
  {order order' : List Path} {steps : List Step}

theorem mem_sites (w : n.Wrappable place inner t) {site : Site} (hsite : site ∈ inner.sites) :
    site.within place ∈ n.sites :=
  ((mem_sites_below w.at?).2 ⟨site, hsite, rfl⟩).1

theorem spelled_references (w : n.Wrappable place inner t) : ∀ r ∈ t.references, r.Spelled := by
  intro out hout
  obtain ⟨site, hsite, r, hr, hescape⟩ := ValueTree.mem_references.1 hout
  rw [w.tree.sites] at hsite
  rw [Reference.Spelled, Reference.path_of_escape? hescape]
  exact w.spelled _ (w.mem_sites hsite) r hr

/-- What is read around the place is the same in both trees. -/
theorem read_around (w : n.Wrappable place inner t) {outcome : Path → Resolution}
    (hfull : (inner.form (beyond (filled outcome) place)).Full) (terminal : Terminal)
    (path : Path) :
    ((n.exchange place (.terminal terminal)).form
        (filled (wrappedOutcome inner place outcome))).read path =
      (n.form (filled outcome)).read path := by
  refine read_exchange w.at? terminal (fun _ => filled_wrappedOutcome inner outcome) hfull ?_ path
  rw [filled, wrappedOutcome, if_pos rfl]

/-- The same with the slot of another terminal emptied. -/
theorem read_around_update (w : n.Wrappable place inner t) {outcome : Path → Resolution}
    (hfull : (inner.form (beyond (filled outcome) place)).Full) (terminal : Terminal)
    {other : Path} (hother : ¬ place <+: other) (path : Path) :
    ((n.exchange place (.terminal terminal)).form
        (Function.update (filled (wrappedOutcome inner place outcome)) other none)).read path =
      (n.form (Function.update (filled outcome) other none)).read path := by
  have hne : place ≠ other := by
    rintro rfl
    exact hother (List.prefix_refl place)
  have hbeyond : beyond (Function.update (filled outcome) other none) place =
      beyond (filled outcome) place := by
    funext p
    refine Function.update_of_ne ?_ _ _
    rintro rfl
    exact hother (List.prefix_append place p)
  refine read_exchange w.at? terminal (fun p hp => ?_) (hbeyond ▸ hfull) ?_ path
  · rw [Function.update_apply, Function.update_apply, filled_wrappedOutcome inner outcome hp]
  · rw [Function.update_of_ne hne, hbeyond, filled, wrappedOutcome, if_pos rfl]

section Runs

variable (hflat : flat.CompiledFrom n) (ho : flat.rootedOrder = .ok order)
  (hf : Follows n scope order steps) (hframes : scope.frames = [])
  (hall : scope.prefs.abortEarly = false)

include hflat ho hf hframes hall

/-- The steps in the tree of the wrapped node come to the same as those of the flat tree. -/
theorem nested_steps {g : Step} (w : n.Wrappable g.path inner t) {u : Tree Slot}
    (hg : g.Faces scope u) (hu : ∀ r ∈ t.references, ∀ target, r.target? g.path = some target →
      u.read target = (n.form (filled (Step.outcome steps))).read target)
    {nested : List Path} (ho' : orderIn t.order t.rootedOrder g.scope = .ok nested)
    {inside : List Step} (hf' : Follows inner g.scope nested inside) :
    ∀ h ∈ inside, h.resolution = Step.outcome steps (g.path ++ h.path) := by
  refine Step.forall_of_before fun before h behind heq ih => ?_
  subst heq
  obtain ⟨site, hsite, hpathh, hresh⟩ := hf'.outcome h (by simp)
  have hsite' := w.mem_sites hsite
  obtain ⟨first, f, rest, hsplit, hpathf⟩ := hf.exists_step hall hsite'
  have hmem : ∀ v ∈ first ++ [f], v ∈ steps := fun v hv => by
    rw [hsplit, List.append_cons]
    exact List.mem_append_left _ hv
  have hfirst : ∀ v ∈ first, v.resolution.value = filled (Step.outcome steps) v.path :=
    fun v hv => hf.value_eq (hmem v (List.mem_append_left _ hv))
  have hbefore : ∀ v ∈ before,
      v.resolution.value = beyond (filled (Step.outcome steps)) g.path v.path :=
    fun v hv => congrArg Resolution.value (ih v hv)
  have hlevel := w.levelless site hsite
  have hagree : Scope.Agree Eq site.terminal.references f.scope h.scope := by
    refine (hf.faces first f rest hsplit).agree_nested hg (hf'.faces before h behind rfl)
      (by rw [hpathf, ← hpathh]; rfl) (form_at? w.at? _) hframes rfl (rel_eq_iff.2 rfl) hlevel
      (fun r hr target ht => rel_eq_iff.2 ?_) fun r hr out hout target ht => rel_eq_iff.2 ?_
    · -- what stays in the node, each tree has filled in its own order
      rw [← hpathh] at ht
      have hread := hflat.read_filled (hsplit ▸ hf) hsite' hpathf.symm hr (Or.inl ho)
        (Reference.target?_append (hlevel r hr) ht g.path) (w.spelled _ hsite' r hr) hfirst
      rw [Tree.read_append (form_at? w.at? _), Tree.read_append (form_at? w.at? _)] at hread
      have hcounts : t.rootedOrder = .ok nested ∨ t.order = nested ∧ r.isLevel = false :=
        (orderIn_eq_ok_iff.1 ho').imp And.right fun ho' => ⟨ho'.2, hlevel r hr⟩
      rw [hread, w.tree.read_filled hf' hsite hpathh hr hcounts ht (w.spelled _ hsite' r hr)
        hbefore, ← beyond_update]
      rfl
    · -- what leaves the node does not lead back, so the tree around decides
      rw [← hpathh] at hout
      have hout' : out ∈ t.references :=
        ValueTree.mem_references.2 ⟨site, w.tree.sites ▸ hsite, r, hr, hout⟩
      rw [hu out hout' target ht, hflat.read_before (hsplit ▸ hf) hsite' hpathf.symm hr
        (Or.inl ho) (Reference.target?_of_escape? hout ht) (w.spelled _ hsite' r hr)
        (fun v hv _ => (hfirst v hv).symm) fun hover => ?_]
      exact absurd (Path.overlaps_of_append hover) (by simp [w.away out hout' target ht])
  have hf₁ : f ∈ steps := hmem f (by simp)
  have hsame := (w.respects _ hsite').eq hagree (hf.resolver_eq hf₁ hsite' hpathf.symm) hresh
  rw [← hsame, ← Step.outcome_of_mem hf.nodup hf₁, hpathf, ← hpathh]
  rfl

/-- Around the place the steps of the wrapped tree come to the same as those of the flat one. -/
theorem outside_step (w : n.Wrappable place inner t)
    (hfull : (inner.form (beyond (filled (Step.outcome steps)) place)).Full) {terminal : Terminal}
    (hwrapped : wrapped.CompiledFrom (n.exchange place (.terminal terminal)))
    (ho' : wrapped.rootedOrder = .ok order') {before behind : List Step} {g : Step}
    (hf' : Follows (n.exchange place (.terminal terminal)) scope order' (before ++ g :: behind))
    (hbefore : ∀ u ∈ before, u.resolution.value =
      filled (wrappedOutcome inner place (Step.outcome steps)) u.path) (hne : g.path ≠ place) :
    g.resolution = Step.outcome steps g.path := by
  obtain ⟨site, hsite', hpathg, hresg⟩ := hf'.outcome g (by simp)
  obtain ⟨hsite, haround⟩ : site ∈ n.sites ∧ ¬ place <+: site.path := by
    rcases (mem_sites_exchange w.at? _).1 hsite' with haround | ⟨s, hs, rfl⟩
    · exact mem_sitesAway.1 haround
    · obtain rfl := List.mem_singleton.1 hs
      exact absurd (hpathg.symm.trans (List.append_nil place)) hne
  obtain ⟨first, f, rest, rfl, hpathf⟩ := hf.exists_step hall hsite
  have hagree : Scope.Agree Eq site.terminal.references f.scope g.scope := by
    refine (hf.faces first f rest rfl).agree_outermost (hf'.faces before g behind rfl)
      (hpathf.trans hpathg) hframes rfl (rel_eq_iff.2 rfl) fun r hr target ht => rel_eq_iff.2 ?_
    rw [hpathf] at ht
    have hspelled := w.spelled site hsite r hr
    rw [hflat.read_filled hf hsite hpathf.symm hr (Or.inl ho) ht hspelled
        fun v hv => hf.value_eq (List.mem_append_left _ hv),
      hwrapped.read_filled hf' hsite' hpathg hr (Or.inl ho') ht hspelled hbefore,
      w.read_around_update hfull terminal haround]
  have hf₁ : f ∈ first ++ f :: rest := by simp
  have hsame := (w.respects site hsite).eq hagree (hf.resolver_eq hf₁ hsite hpathf.symm) hresg
  rw [← hsame, ← Step.outcome_of_mem hf.nodup hf₁, hpathf, hpathg]

/-- The step of the wrapped node comes to the value of its form and to the errors of its
terminals. -/
theorem place_step {g : Step} (w : n.Wrappable g.path inner t)
    (hfull : (inner.form (beyond (filled (Step.outcome steps)) g.path)).Full)
    (hwrapped : wrapped.CompiledFrom (n.exchange g.path (.terminal (.schema (.ofTree t)))))
    (ho' : wrapped.rootedOrder = .ok order') {before behind : List Step}
    (hf' : Follows (n.exchange g.path (.terminal (.schema (.ofTree t)))) scope order'
      (before ++ g :: behind))
    (hbefore : ∀ u ∈ before, u.resolution.value =
      filled (wrappedOutcome inner g.path (Step.outcome steps)) u.path) :
    g.resolution.Matches (wrappedOutcome inner g.path (Step.outcome steps) g.path) := by
  obtain ⟨site, hsite, hpathg, hresg⟩ := hf'.outcome g (by simp)
  obtain rfl : site = ⟨g.path, .schema (.ofTree t)⟩ := by
    rcases (mem_sites_exchange w.at? _).1 hsite with haround | ⟨s, hs, rfl⟩
    · exact absurd (hpathg ▸ List.prefix_refl _) (mem_sitesAway.1 haround).2
    · obtain rfl := List.mem_singleton.1 hs
      rw [Site.within, List.append_nil]
  have hresg : t.resolver g.scope = .ok g.resolution := by
    rw [← Schema.resolver_ofTree]
    exact hresg
  obtain ⟨nested, inside, kept, hnested, -, hres⟩ := w.tree.resolved hresg
  have hface := hf'.faces before g behind rfl
  have hall' : g.scope.prefs.abortEarly = false := by
    obtain ⟨frames, hscope, -⟩ := hface
    rw [hscope]
    exact hall
  obtain rfl := hres.kept_eq_steps hall'
  have hinside : ∀ h ∈ kept, h.resolution = Step.outcome steps (g.path ++ h.path) := by
    refine nested_steps hflat ho hf hframes hall w hface (fun r hr target ht => ?_) hnested
      hres.follows
    have hr' : r ∈ (Terminal.schema (.ofTree t)).references := by
      rw [Terminal.references, Schema.references_ofTree]
      exact hr
    rw [hwrapped.read_before hf' hsite rfl hr' (Or.inl ho') ht (w.spelled_references r hr)
      (fun v hv _ => (hbefore v hv).symm) fun hover => ?_, w.read_around hfull]
    exact absurd hover (by simp [w.away r hr target ht])
  rw [wrappedOutcome, if_pos rfl]
  have hslots : ∀ h ∈ kept,
      h.resolution.value = beyond (filled (Step.outcome steps)) g.path h.path := fun h hh =>
    congrArg Resolution.value (hinside h hh)
  constructor
  · rw [hres.value, hres.follows.form_slots hall' hslots]
  · rw [hres.errors]
    exact hres.follows.errors_perm hall' fun h hh => by rw [hinside h hh]

/-- Step by step, the wrapped tree comes to what the flat one does. -/
theorem steps_match (w : n.Wrappable place inner t)
    (hfull : (inner.form (beyond (filled (Step.outcome steps)) place)).Full)
    (hwrapped : wrapped.CompiledFrom (n.exchange place (.terminal (.schema (.ofTree t)))))
    (ho' : wrapped.rootedOrder = .ok order') {steps' : List Step}
    (hf' : Follows (n.exchange place (.terminal (.schema (.ofTree t)))) scope order' steps') :
    ∀ g ∈ steps',
      g.resolution.Matches (wrappedOutcome inner place (Step.outcome steps) g.path) := by
  refine Step.forall_of_before fun before g behind heq ih => ?_
  subst heq
  have hbefore := fun u hu => (ih u hu).value
  by_cases hplace : g.path = place
  · subst hplace
    exact place_step hflat ho hf hframes hall w hfull hwrapped ho' hf' hbefore
  · rw [wrappedOutcome, if_neg hplace,
      ← outside_step hflat ho hf hframes hall w hfull hwrapped ho' hf' hbefore hplace]
    exact ⟨rfl, List.Perm.refl _⟩

end Runs

/-- The errors of the terminals around the place and of the wrapped one are those of all
terminals. -/
theorem reported_perm (w : n.Wrappable place inner t) (outcome : Path → Resolution)
    (terminal : Terminal) :
    ((n.exchange place (.terminal terminal)).sites.flatMap
      (reported (wrappedOutcome inner place outcome))).Perm
        (n.sites.flatMap (reported outcome)) := by
  refine ((sites_exchange_perm w.at? _).flatMap_right _).trans
    (List.Perm.trans (.of_eq ?_) ((sites_perm w.at?).flatMap_right _).symm)
  rw [List.flatMap_append, List.flatMap_append, List.flatMap_map, List.flatMap_map]
  congr 1
  · refine List.flatMap_congr fun site hsite => ?_
    have hne : site.path ≠ place := by
      rintro rfl
      exact (mem_sitesAway.1 hsite).2 (List.prefix_refl _)
    rw [reported, wrappedOutcome, if_neg hne]
    rfl
  · rw [sites, List.flatMap_singleton, reported, Site.within, List.append_nil, wrappedOutcome,
      if_pos rfl, List.map_flatMap]
    refine List.flatMap_congr fun site _ => ?_
    rw [reported, List.map_map]
    exact List.map_congr_left fun e _ => e.within_append place site.path

/-- The wrapped tree comes to what the flat one does, when all terminals of the latter have
values. -/
theorem resolutions_match (w : n.Wrappable place inner t) (hflat : flat.CompiledFrom n)
    (hwrapped : wrapped.CompiledFrom (n.exchange place (.terminal (.schema (.ofTree t)))))
    (hframes : scope.frames = []) (hall : scope.prefs.abortEarly = false)
    (htrace : flat.trace scope = .ok steps)
    (hvalues : ∀ s ∈ steps, s.resolution.value.isSome = true) {r r' : Resolution}
    (hr : flat.resolver scope = .ok r) (hr' : wrapped.resolver scope = .ok r') : r.Matches r' := by
  obtain ⟨order, steps', kept, ho, htrace', hres⟩ := hflat.resolved hr
  obtain ⟨order', kept', steps'', ho', -, hres'⟩ := hwrapped.resolved hr'
  obtain rfl : steps' = steps := Except.ok.inj (htrace'.symm.trans htrace)
  obtain rfl := hres.kept_eq_steps hall
  obtain rfl := hres'.kept_eq_steps hall
  have hf := hres.follows
  have hf' := hres'.follows
  have hfull : (inner.form (beyond (filled (Step.outcome kept)) place)).Full := by
    refine form_full fun site hsite => ?_
    obtain ⟨before, s, behind, rfl, hpath⟩ := hf.exists_step hall (w.mem_sites hsite)
    have hs := hvalues s (by simp)
    rw [hf.value_eq (by simp), hpath] at hs
    exact hs
  have hmatch := w.steps_match hflat (rootedOrder_of_orderIn hframes ho) hf hframes hall hfull
    hwrapped (rootedOrder_of_orderIn hframes ho') hf'
  constructor
  · have hslots : ∀ s ∈ steps'', s.resolution.value =
        filled (wrappedOutcome inner place (Step.outcome kept)) s.path :=
      fun s hs => (hmatch s hs).value
    rw [hres.value, hres'.value, hf.form_slots hall fun s hs => hf.value_eq hs,
      hf'.form_slots hall hslots]
    exact (w.read_around hfull _ []).symm
  · have herrors' := hf'.errors_perm hall fun s hs => (hmatch s hs).errors
    rw [hres.errors, hres'.errors]
    exact (hf.errors_perm_outcome hall).trans (herrors'.trans (w.reported_perm _ _)).symm

end Wrappable

end Node

namespace ValueTree

/-- Wrapping a node in a schema of its own changes neither the value nor, up to their order, the
errors of a tree whose terminals all have values. In the node no reference may count from the
outermost container, and none that leaves it may lead back to its place. -/
theorem resolver_wrapped {n inner : Node} {place : Path} (hat : n.at? place = some inner)
    {s : Schema} (hs : SchemaSpec.build { source := .tree inner } = .ok s)
    (hbuilt : ∀ s ∈ n.schemas, s.Built) (hfits : n.Fits Eq)
    (hspelled : ∀ site ∈ n.sites, ∀ m ∈ site.terminal.made, m.2.Spelled)
    (hlevel : ∀ m ∈ s.made, m.2.isLevel = false)
    (haway : ∀ m ∈ s.made, ∀ out, m.out? = some out → ∀ target, out.target? place = some target →
      Path.overlaps place target = false)
    {flat wrapped : ValueTree} (hflat : compile n = .ok flat)
    (hwrapped : compile (n.exchange place (.schema s)) = .ok wrapped) {scope : Scope}
    (hframes : scope.frames = []) (hall : scope.prefs.abortEarly = false) {steps : List Step}
    (htrace : flat.trace scope = .ok steps)
    (hvalues : ∀ u ∈ steps, u.resolution.value.isSome = true) {r r' : Resolution}
    (hr : flat.resolver scope = .ok r) (hr' : wrapped.resolver scope = .ok r') :
    r.value = r'.value ∧ r.errors.Perm r'.errors := by
  obtain ⟨t, ht, rfl⟩ := Schema.build_tree_eq_ok_iff.1 hs
  rw [Schema.made_ofTree] at hlevel haway
  have w := Node.wrappable hat ht hbuilt hfits hspelled hlevel haway
  obtain ⟨hvalue, herrors⟩ := w.resolutions_match (compiledFrom_of_compile hflat)
    (compiledFrom_of_compile hwrapped) hframes hall htrace hvalues hr hr'
  exact ⟨hvalue, herrors⟩

/-! ### A part that reads and is read -/

/-- A number, and a sequence that reads it and a sibling of the whole. -/
def part : Node := .map
  [("low", .schema (.numberAt "x")),
    ("both", .seq [.reference ⟨.relative 2, [.field "low"]⟩,
      .reference ⟨.relative 3, [.field "base"]⟩])]

def partTree : ValueTree :=
  ofOrder part [[.field "low"], [.field "both", .index 0], [.field "both", .index 1]]

/-- A reference to the part, the part, and what it reads. -/
def whole : Node := .map
  [("copy", .reference ⟨.level 0, [.field "part"]⟩), ("part", part),
    ("base", .schema (.numberAt "y"))]

theorem whole_fits : whole.Fits Eq := by
  refine ⟨fun _ _ => rfl, fun site hsite => ?_⟩
  have hsites : site ∈ [(⟨[.field "copy"], .reference ⟨.level 0, [.field "part"]⟩⟩ : Site),
      ⟨[.field "part", .field "low"], .schema (.numberAt "x")⟩,
      ⟨[.field "part", .field "both", .index 0], .reference ⟨.relative 2, [.field "low"]⟩⟩,
      ⟨[.field "part", .field "both", .index 1], .reference ⟨.relative 3, [.field "base"]⟩⟩,
      ⟨[.field "base"], .schema (.numberAt "y")⟩] := hsite
  simp only [List.mem_cons, List.not_mem_nil, or_false] at hsites
  rcases hsites with rfl | rfl | rfl | rfl | rfl
  · trivial
  · exact Schema.numberAt_fits _ "x"
  · trivial
  · trivial
  · exact Schema.numberAt_fits _ "y"

theorem whole_schemas : ∀ s ∈ whole.schemas, s.Built := by
  intro s hs
  have hschemas : s ∈ [Schema.numberAt "x", Schema.numberAt "y"] := hs
  simp only [List.mem_cons, List.not_mem_nil, or_false] at hschemas
  rcases hschemas with rfl | rfl
  · exact Schema.numberAt_built "x"
  · exact Schema.numberAt_built "y"

theorem whole_spelled : ∀ site ∈ whole.sites, ∀ m ∈ site.terminal.made, m.2.Spelled := by
  have hnames : ∀ site ∈ whole.sites, ∀ m ∈ site.terminal.made,
      ∀ key ∈ m.2.path, key.index? = none := by decide +kernel
  exact fun site hsite m hm => Reference.spelled_of_names (hnames site hsite m hm)

theorem part_away : ∀ m ∈ (Schema.ofTree partTree).made, ∀ out, m.out? = some out →
    ∀ target, out.target? [.field "part"] = some target →
      Path.overlaps [.field "part"] target = false := by
  have haway : ∀ m ∈ (Schema.ofTree partTree).made,
      (m.out?.bind fun out => out.target? [.field "part"]).all
        (fun target => !Path.overlaps [.field "part"] target) = true := by
    decide +kernel
  intro m hm out hout target ht
  simpa [hout, ht] using haway m hm

/-- Two texts in place of numbers. -/
def textsScope : Scope :=
  .ofInput (.object [("x", .string "low"), ("y", .string "base")]) { abortEarly := false }

theorem resolver_wrapped_part : ∃ flat wrapped steps r r',
    compile whole = .ok flat ∧
    compile (whole.exchange [.field "part"] (.schema (.ofTree partTree))) = .ok wrapped ∧
    flat.trace textsScope = .ok steps ∧ flat.resolver textsScope = .ok r ∧
    wrapped.resolver textsScope = .ok r' ∧
    r.errors.map ValidationError.text = ["'part.low': must be a number [number.base]",
      "'base': must be a number [number.base]"] ∧
    r'.errors.map ValidationError.text = ["'base': must be a number [number.base]",
      "'part.low': must be a number [number.base]"] ∧
    r.value = r'.value ∧ r.errors.Perm r'.errors := by
  have hrun : ((compile whole).toOption.bind fun t =>
      (t.trace textsScope).toOption.bind fun steps => (t.resolver textsScope).toOption.map fun r =>
        (steps.all fun u => u.resolution.value.isSome, r.errors.map ValidationError.text)) =
      some (true, ["'part.low': must be a number [number.base]",
        "'base': must be a number [number.base]"]) := by
    decide +kernel
  have hrun' :
      ((compile (whole.exchange [.field "part"]
          (.schema (.ofTree partTree)))).toOption.bind fun t =>
        (t.resolver textsScope).toOption.map fun r => r.errors.map ValidationError.text) =
      some ["'base': must be a number [number.base]",
        "'part.low': must be a number [number.base]"] := by
    decide +kernel
  obtain ⟨flat, hflat, hrun⟩ := Option.bind_eq_some_iff.1 hrun
  obtain ⟨steps, htrace, hrun⟩ := Option.bind_eq_some_iff.1 hrun
  obtain ⟨r, hr, hrun⟩ := Option.map_eq_some_iff.1 hrun
  obtain ⟨hvalues, htexts⟩ := Prod.mk.inj hrun
  obtain ⟨wrapped, hwrapped, hrun'⟩ := Option.bind_eq_some_iff.1 hrun'
  obtain ⟨r', hr', htexts'⟩ := Option.map_eq_some_iff.1 hrun'
  have hflat := eq_ok_of_toOption hflat
  have htrace := eq_ok_of_toOption htrace
  have hr := eq_ok_of_toOption hr
  have hwrapped := eq_ok_of_toOption hwrapped
  have hr' := eq_ok_of_toOption hr'
  have hbuild : SchemaSpec.build { source := .tree part } = .ok (.ofTree partTree) :=
    Schema.build_tree_eq_ok_iff.2 ⟨partTree, compile_of_order (by decide +kernel), rfl⟩
  have hlevel : ∀ m ∈ (Schema.ofTree partTree).made, m.2.isLevel = false := by decide +kernel
  have hat : whole.at? [.field "part"] = some part := rfl
  obtain ⟨hvalue, herrors⟩ := resolver_wrapped hat hbuild whole_schemas whole_fits whole_spelled
    hlevel part_away hflat hwrapped rfl rfl htrace (List.all_eq_true.1 hvalues) hr hr'
  exact ⟨flat, wrapped, steps, r, r', hflat, hwrapped, htrace, hr, hr', htexts, htexts', hvalue,
    herrors⟩

end ValueTree

end ValueResolution
