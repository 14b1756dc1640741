import ValueResolution.Proofs.ResolutionOrder
import ValueResolution.Proofs.Steps
import ValueResolution.Schema.Resolve
/-!
# The trace of a tree

Resolving a tree is a pass with a record of its steps (`ValueTree.trace`), without the record
(`ValueTree.resolver_eq`). The trace of a compiled tree follows the order of its terminals
(`ValueTree.CompiledFrom.follows`): every terminal is resolved once, by its own meaning, and in the
form of the node as the steps before it left it.
-/

set_option autoImplicit false

namespace ValueResolution

namespace ValueTree

/-- The terminals of a node with their references. -/
def terminalsOf (n : Node) : List (Path × List Reference) :=
  n.sites.map fun site => (site.path, site.terminal.references)

theorem places_terminalsOf (n : Node) : (terminalsOf n).map Prod.fst = n.sites.map Site.path := by
  rw [terminalsOf, List.map_map]
  rfl

/-- What compiling a node gives. -/
structure CompiledFrom (t : ValueTree) (n : Node) : Prop where
  skeleton : t.skeleton = (n.lay {}).1
  root : t.root = (n.lay {}).2
  sites : t.sites = n.sites
  order : resolutionOrder (terminalsOf n) false = .ok t.order
  rootedOrder : t.rootedOrder = resolutionOrder (terminalsOf n) true

/-- The tree of a node whose terminals have the given order. -/
def ofOrder (n : Node) (order : List Path) : ValueTree where
  skeleton := (n.lay {}).1
  root := (n.lay {}).2
  sites := n.sites
  order := order
  rootedOrder := resolutionOrder (terminalsOf n) true

/-- A node compiles when its terminals have an order. -/
theorem compile_eq_ok_iff {n : Node} {t : ValueTree} : compile n = .ok t ↔
    ∃ order, resolutionOrder (terminalsOf n) false = .ok order ∧ ofOrder n order = t := by
  have hrun : compile n = (resolutionOrder (terminalsOf n) false).mapError .dependencyCycle >>=
      fun order => .ok (ofOrder n order) := rfl
  rw [hrun, bind_eq_ok_iff]
  simp only [mapError_eq_ok_iff, Except.ok.injEq]

theorem compile_of_order {n : Node} {order : List Path}
    (h : resolutionOrder (terminalsOf n) false = .ok order) :
    compile n = .ok (ofOrder n order) :=
  compile_eq_ok_iff.2 ⟨order, h, rfl⟩

theorem compiledFrom_of_compile {n : Node} {t : ValueTree} (h : compile n = .ok t) :
    t.CompiledFrom n := by
  obtain ⟨order, ho, rfl⟩ := compile_eq_ok_iff.1 h
  exact ⟨rfl, rfl, rfl, ho, rfl⟩

/-- A node compiles to one tree only. -/
theorem CompiledFrom.unique {t t' : ValueTree} {n : Node} (h : t.CompiledFrom n)
    (h' : t'.CompiledFrom n) : t = t' := by
  obtain ⟨skeleton, root, sites, order, rootedOrder⟩ := t
  obtain ⟨skeleton', root', sites', order', rootedOrder'⟩ := t'
  rw [ValueTree.mk.injEq]
  exact ⟨h.skeleton.trans h'.skeleton.symm, h.root.trans h'.root.symm, h.sites.trans h'.sites.symm,
    Except.ok.inj (h.order.symm.trans h'.order), h.rootedOrder.trans h'.rootedOrder.symm⟩

/-- The outermost tree goes by its rooted order. -/
theorem orderIn_eq_ok_iff {order found : List Path} {rootedOrder : Except String (List Path)}
    {scope : Scope} : orderIn order rootedOrder scope = .ok found ↔
      scope.frames = [] ∧ rootedOrder = .ok found ∨ scope.frames ≠ [] ∧ order = found := by
  unfold orderIn
  by_cases hframes : scope.frames = []
  · simp [hframes, mapError_eq_ok_iff]
  · simp [hframes]

theorem rootedOrder_of_orderIn {order found : List Path}
    {rootedOrder : Except String (List Path)} {scope : Scope} (hframes : scope.frames = [])
    (h : orderIn order rootedOrder scope = .ok found) : rootedOrder = .ok found := by
  simpa [hframes] using orderIn_eq_ok_iff.1 h

/-- Whatever the scope, the order has the place of every terminal once. -/
theorem CompiledFrom.order_perm {t : ValueTree} {n : Node} (h : t.CompiledFrom n) {scope : Scope}
    {order : List Path} (ho : orderIn t.order t.rootedOrder scope = .ok order) :
    order.Perm (n.sites.map Site.path) := by
  rw [← places_terminalsOf]
  rcases orderIn_eq_ok_iff.1 ho with ⟨-, hr⟩ | ⟨-, rfl⟩
  · exact resolutionOrder_perm (h.rootedOrder.symm.trans hr)
  · exact resolutionOrder_perm h.order

theorem resolversOfSites_eq (sites : List Site) :
    resolversOfSites sites = sites.map fun site => (site.path, site.terminal.resolver) := by
  induction sites with
  | nil => rfl
  | cons site rest ih =>
    obtain ⟨path, terminal⟩ := site
    exact congrArg (List.cons _) ih

theorem mem_arrange {α : Type} {entries : List (Path × α)} {order : List Path} {e : Path × α}
    (h : e ∈ arrange entries order) : e ∈ entries := by
  obtain ⟨path, -, hfind⟩ := List.mem_filterMap.1 h
  exact List.mem_of_find?_eq_some hfind

/-- Arranged resolvers stand in the given order. -/
theorem arrange_paths {rs : List (Path × Resolver)} {order : List Path}
    (h : ∀ path ∈ order, path ∈ rs.map Prod.fst) : (arrange rs order).map Prod.fst = order := by
  induction order with
  | nil => rfl
  | cons path rest ih =>
    obtain ⟨e, he, hpath⟩ := List.mem_map.1 (h path List.mem_cons_self)
    have hrest := ih fun q hq => h q (List.mem_cons_of_mem _ hq)
    rw [arrange, List.filterMap_cons]
    cases hfind : rs.find? fun entry => entry.1 = path with
    | none => simpa [hpath] using List.find?_eq_none.1 hfind e he
    | some found =>
      have hfound : found.1 = path := by simpa using List.find?_some hfind
      exact congrArg₂ List.cons hfound hrest

/-- Resolves the tree up to the last terminal, and keeps the steps. -/
def tracePass (t : ValueTree) (scope : Scope) : Except Error (List Step × Pass × Bool) :=
  match orderIn t.order t.rootedOrder scope with
  | .error e => .error e
  | .ok order => Pass.traceAll scope (arrange (resolversOfSites t.sites) order)
      (Pass.start t.skeleton t.root)

/-- The steps in which the tree is resolved. -/
def trace (t : ValueTree) (scope : Scope) : Except Error (List Step) :=
  (t.tracePass scope).map Prod.fst

/-- Resolving a tree is its trace, without the steps, and the end of the pass. -/
theorem resolver_eq (t : ValueTree) (scope : Scope) :
    t.resolver scope = (t.tracePass scope).bind fun out => out.2.1.close out.2.2 := by
  rw [resolver_run, tracePass]
  cases orderIn t.order t.rootedOrder scope with
  | error e => rfl
  | ok order =>
    simp only [bind, Except.bind, Pass.run_eq, Pass.resolveAll_eq]
    cases Pass.traceAll scope (arrange (resolversOfSites t.sites) order)
      (Pass.start t.skeleton t.root) <;> rfl

/-- A literal has its value in every scope. -/
theorem resolver_literal (v : Value) (scope : Scope) :
    (ofOrder (.literal v) []).resolver scope = .ok (.ofValue v) := by
  have hsort : Path.sort [] = [] := List.mergeSort_nil
  have hclose : (Pass.start (ofOrder (.literal v) []).skeleton 0).close false =
      .ok (.ofValue v) := by
    simp only [Pass.close, Pass.start, hsort]
    rfl
  have horder : orderIn [] (.ok []) scope = .ok [] := by
    unfold orderIn
    split <;> rfl
  have hrooted : (ofOrder (.literal v) []).rootedOrder = .ok [] := rfl
  rw [resolver_run, hrooted]
  change orderIn [] (.ok []) scope >>= _ = _
  rw [horder]
  exact hclose

/-- A resolved tree has a trace. -/
theorem tracePass_of_resolver {t : ValueTree} {scope : Scope} {r : Resolution}
    (h : t.resolver scope = .ok r) : ∃ steps p stopped,
      t.tracePass scope = .ok (steps, p, stopped) ∧ p.close stopped = .ok r := by
  rw [resolver_eq] at h
  obtain ⟨⟨steps, p, stopped⟩, ht, hclose⟩ := bind_eq_ok_iff.1 h
  exact ⟨steps, p, stopped, ht, hclose⟩

/-- The steps resolve the terminals of the node in the given order, or up to one of them, each in
the form as the ones before it left it. -/
structure Follows (n : Node) (scope : Scope) (order : List Path) (steps : List Step) : Prop where
  paths : steps.map Step.path <+: order
  all : scope.prefs.abortEarly = false → steps.map Step.path = order
  perm : order.Perm (n.sites.map Site.path)
  outcome : ∀ s ∈ steps, ∃ site ∈ n.sites, site.path = s.path ∧
    site.terminal.resolver s.scope = .ok s.resolution
  faces : ∀ before s behind, steps = before ++ s :: behind →
    s.Faces scope (n.form (Step.slots before))

theorem Follows.nodup {n : Node} {scope : Scope} {order : List Path} {steps : List Step}
    (h : Follows n scope order steps) : (steps.map Step.path).Nodup :=
  (h.perm.nodup_iff.2 n.nodup_sites).sublist h.paths.sublist

theorem Follows.nodup_before {n : Node} {scope : Scope} {order : List Path}
    {before behind : List Step} (h : Follows n scope order (before ++ behind)) :
    (before.map Step.path).Nodup :=
  h.nodup.sublist ((List.sublist_append_left before behind).map Step.path)

/-- The place of a step has no step before. -/
theorem Follows.notMem_before {n : Node} {scope : Scope} {order : List Path}
    {before behind : List Step} {s : Step} (h : Follows n scope order (before ++ s :: behind)) :
    s.path ∉ before.map Step.path := by
  have hn := h.nodup
  rw [List.map_append, List.nodup_append] at hn
  exact fun hmem => hn.2.2 _ hmem _ (List.mem_map_of_mem List.mem_cons_self) rfl

/-- The step at the place of a terminal is that terminal's. -/
theorem Follows.resolver_eq {n : Node} {scope : Scope} {order : List Path} {steps : List Step}
    (h : Follows n scope order steps) {s : Step} (hs : s ∈ steps) {site : Site}
    (hsite : site ∈ n.sites) (hpath : site.path = s.path) :
    site.terminal.resolver s.scope = .ok s.resolution := by
  obtain ⟨site', hsite', hpath', hres⟩ := h.outcome s hs
  obtain rfl : site' = site :=
    List.inj_on_of_nodup_map n.nodup_sites hsite' hsite (hpath'.trans hpath.symm)
  exact hres

/-- A run without an early end has a step for every terminal. -/
theorem Follows.exists_step {n : Node} {scope : Scope} {order : List Path} {steps : List Step}
    (h : Follows n scope order steps) (hall : scope.prefs.abortEarly = false) {site : Site}
    (hsite : site ∈ n.sites) :
    ∃ before s behind, steps = before ++ s :: behind ∧ s.path = site.path := by
  have hmem : site.path ∈ steps.map Step.path := by
    rw [h.all hall]
    exact h.perm.symm.subset (List.mem_map_of_mem hsite)
  obtain ⟨s, hs, hpath⟩ := List.mem_map.1 hmem
  obtain ⟨before, behind, rfl⟩ := List.append_of_mem hs
  exact ⟨before, s, behind, rfl, hpath⟩

/-- What is resolved before a terminal are the places before its own in the order. -/
theorem Follows.mem_before_iff {n : Node} {scope : Scope} {order : List Path}
    {before behind : List Step} {s : Step} (h : Follows n scope order (before ++ s :: behind))
    {path : Path} : path ∈ before.map Step.path ↔ [path, s.path].Sublist order := by
  obtain ⟨rest, hrest⟩ := h.paths
  have heq : order = before.map Step.path ++ s.path :: (behind.map Step.path ++ rest) := by
    rw [← hrest]
    simp
  have hn := h.perm.nodup_iff.2 n.nodup_sites
  rw [heq] at hn ⊢
  constructor
  · intro hmem
    exact (List.singleton_sublist.2 hmem).append (List.singleton_sublist.2 List.mem_cons_self)
  · exact mem_of_sublist_pair hn

/-- The terminals of a compiled tree are those of the node. -/
theorem CompiledFrom.mem_arrange_sites {t : ValueTree} {n : Node} (h : t.CompiledFrom n)
    {order : List Path} {e : Path × Resolver} (he : e ∈ arrange (resolversOfSites t.sites) order) :
    ∃ site ∈ n.sites, site.path = e.1 ∧ site.terminal.resolver = e.2 := by
  have hmem := mem_arrange he
  rw [resolversOfSites_eq, h.sites] at hmem
  obtain ⟨site, hs, rfl⟩ := List.mem_map.1 hmem
  exact ⟨site, hs, rfl, rfl⟩

/-- The terminals of a compiled tree stand in the order that they are arranged in. -/
theorem CompiledFrom.arrange_paths {t : ValueTree} {n : Node} (h : t.CompiledFrom n)
    {order : List Path} (hperm : order.Perm (n.sites.map Site.path)) :
    (arrange (resolversOfSites t.sites) order).map Prod.fst = order := by
  refine ValueTree.arrange_paths fun path hpath => ?_
  rw [resolversOfSites_eq, h.sites, List.map_map]
  exact hperm.subset hpath

/-- A pass over a compiled tree begins with the form of the node without values. -/
theorem CompiledFrom.start_shows {t : ValueTree} {n : Node} (h : t.CompiledFrom n) :
    (Pass.start t.skeleton t.root).Shows n (Step.slots []) := by
  rw [h.skeleton, h.root]
  exact Pass.start_shows n

/-- What the trace of a compiled tree gives, and how its pass ends. -/
theorem CompiledFrom.follows {t : ValueTree} {n : Node} (h : t.CompiledFrom n) {scope : Scope}
    {steps : List Step} {p : Pass} {stopped : Bool}
    (ht : t.tracePass scope = .ok (steps, p, stopped)) :
    ∃ order, orderIn t.order t.rootedOrder scope = .ok order ∧ Follows n scope order steps ∧
      (stopped = false → steps.map Step.path = order) ∧ ∃ kept,
        Pass.Ended scope n [] kept steps (Pass.start t.skeleton t.root) p stopped := by
  rw [tracePass] at ht
  cases ho : orderIn t.order t.rootedOrder scope with
  | error e => simp [ho] at ht
  | ok order =>
    have hperm := h.order_perm ho
    have hpaths := h.arrange_paths hperm
    simp only [ho] at ht
    have htraced := Pass.traceAll_traced ht h.start_shows
      (fun e he => by obtain ⟨site, hs, hp, -⟩ := h.mem_arrange_sites he; exact ⟨site, hs, hp⟩)
      (by simpa [hpaths] using hperm.nodup_iff.2 n.nodup_sites)
    refine ⟨order, rfl, ⟨hpaths ▸ htraced.paths, fun ha => ?_, hperm, fun s hs => ?_, ?_⟩,
      fun hst => (htraced.all hst).trans hpaths, htraced.ending⟩
    · rw [← hpaths]
      refine htraced.all ?_
      cases hst : stopped with
      | false => rfl
      | true => simpa [ha] using htraced.asked hst
    · obtain ⟨resolve, hmem, hres⟩ := htraced.outcome s hs
      obtain ⟨site, hsite, hp, rfl⟩ := h.mem_arrange_sites hmem
      exact ⟨site, hsite, hp, hres⟩
    · simpa using htraced.faces

end ValueTree

end ValueResolution
