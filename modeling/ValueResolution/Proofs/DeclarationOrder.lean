import ValueResolution.Proofs.Likeness.Runs
import ValueResolution.Proofs.Likeness.Schema
import ValueResolution.Proofs.Node.Permuted
import ValueResolution.Proofs.Settling
/-!
# The order of declaration

Permuting the entries of mappings changes the order in which terminals are declared, and with it
the order in which they are resolved. It does not change what they wait for, so both trees have an
order or neither has (`Node.Permuted.exists_resolutionOrder_iff`). In either order a terminal finds
all places filled that its references may read, so both runs take alike steps
(`Node.Permuted.steps_alike`), and end with equal values and the same errors
(`Schema.resolve_permuted`).
-/

set_option autoImplicit false

namespace ValueResolution

namespace Node

open ValueTree

variable {n n' : Node} {t t' : ValueTree}

namespace Permuted

/-- The terminals have an order in both nodes or in neither. -/
theorem exists_resolutionOrder_iff (h : n.Permuted n') (hd : n.Distinct) (rooted : Bool) :
    (∃ order, resolutionOrder (terminalsOf n) rooted = .ok order) ↔
      ∃ order, resolutionOrder (terminalsOf n') rooted = .ok order := by
  have hnodup : ∀ n : Node, ((terminalsOf n).map Prod.fst).Nodup := by
    intro n
    rw [places_terminalsOf]
    exact n.nodup_sites
  have hp : (terminalsOf n).Perm (terminalsOf n') := (h.sites_perm hd).map _
  exact ⟨fun ⟨_, ho⟩ => exists_resolutionOrder_of_perm hp (hnodup n) ho,
    fun ⟨_, ho⟩ => exists_resolutionOrder_of_perm hp.symm (hnodup n') ho⟩

/-- Both nodes compile or neither does. -/
theorem exists_compile_iff (h : n.Permuted n') (hd : n.Distinct) :
    (∃ t, compile n = .ok t) ↔ ∃ t', compile n' = .ok t' := by
  have hcompiles : ∀ n : Node, (∃ t, compile n = .ok t) ↔
      ∃ order, resolutionOrder (terminalsOf n) false = .ok order := fun n =>
    ⟨fun ⟨_, ht⟩ => ⟨_, (compiledFrom_of_compile ht).order⟩,
      fun ⟨_, ho⟩ => ⟨_, compile_of_order ho⟩⟩
  rw [hcompiles, hcompiles]
  exact h.exists_resolutionOrder_iff hd false

/-- As the outermost tree both resolve or neither does. -/
theorem exists_resolution_iff (h : n.Permuted n') (hd : n.Distinct) (hc : t.CompiledFrom n)
    (hc' : t'.CompiledFrom n') (hbuilt : ∀ s ∈ n.schemas, s.Built) {scope : Scope}
    (hframes : scope.frames = []) :
    (∃ r, t.resolver scope = .ok r) ↔ ∃ r', t'.resolver scope = .ok r' := by
  by_cases hn : ∃ terminal, n = .terminal terminal
  · obtain ⟨terminal, rfl⟩ := hn
    cases h
    rw [hc.unique hc']
  · have hsettles : ∀ site ∈ n.sites, site.terminal.resolver.Settles True := fun site hsite =>
      site.terminal.settles (compiled_terminal hbuilt hsite) (Or.inl trivial)
    have hresolvers : ∀ {n₀ : Node} {t₀ : ValueTree}, t₀.CompiledFrom n₀ → n₀.sites ⊆ n.sites →
        ∀ e ∈ resolversOfSites t₀.sites, Resolver.Settles True e.2 := by
      intro n₀ t₀ hc₀ hsub e he
      rw [resolversOfSites_eq, hc₀.sites] at he
      obtain ⟨site, hsite, rfl⟩ := List.mem_map.1 he
      exact hsettles site (hsub hsite)
    rw [hc.exists_resolution_iff (fun terminal heq => hn ⟨terminal, heq⟩)
        (hresolvers hc fun _ hs => hs) hframes,
      hc'.exists_resolution_iff (fun terminal heq => ?_)
        (hresolvers hc' (h.sites_perm hd).symm.subset) hframes, hc.rootedOrder, hc'.rootedOrder]
    · exact h.exists_resolutionOrder_iff hd true
    · subst heq
      cases h
      exact hn ⟨terminal, rfl⟩

/-- At one place both runs come to alike outcomes. -/
theorem steps_alike (h : n.Permuted n') (hd : n.Distinct) (hc : t.CompiledFrom n)
    (hc' : t'.CompiledFrom n') (hl : ∀ v, n.HasLiteral v → v.Proper)
    (hr : ∀ site ∈ n.sites,
      site.terminal.resolver.Respects Value.Alike site.terminal.references)
    (hspelled : ∀ site ∈ n.sites, ∀ r ∈ site.terminal.references, r.Spelled) {scope : Scope}
    (hframes : scope.frames = []) (hinput : Value.Alike scope.input scope.input)
    (hsubject : Option.Rel Value.Alike scope.subject scope.subject) {order order' : List Path}
    (ho : t.rootedOrder = .ok order) (ho' : t'.rootedOrder = .ok order') {steps steps' : List Step}
    (hf : Follows n scope order steps) (hf' : Follows n' scope order' steps') :
    ∀ s ∈ steps, ∀ s' ∈ steps', s'.path = s.path →
      s.resolution.Alike Value.Alike s'.resolution := by
  have hsites := h.sites_perm hd
  -- whatever the first run has resolved, the second one has resolved or will resolve
  refine Step.forall_of_before fun before s behind heq ih s' hs' hsame => ?_
  obtain ⟨before', behind', rfl⟩ := List.append_of_mem hs'
  subst heq
  obtain ⟨site, hsite, hpath, hres⟩ := hf.outcome s (by simp)
  have hsite' := hsites.subset hsite
  have hpath' := hpath.trans hsame.symm
  have hres' := hf'.resolver_eq hs' hsite' hpath'
  have hagree : Scope.Agree Value.Alike site.terminal.references s.scope s'.scope := by
    refine (hf.faces before s behind rfl).agree_outermost (hf'.faces before' s' behind' rfl)
      hsame.symm hframes hinput hsubject fun r hmem target ht => ?_
    rw [← hpath] at ht
    -- each run has filled what overlaps the target, so only what both have filled counts
    rw [hf.read_among hsite hpath (hspelled _ hsite r hmem) ht fun other hother hne hover =>
        hc'.mem_before hf' hsite' hpath' hmem (Or.inl ho') ht (hsites.subset hother) hne hover,
      hf'.read_among hsite' hpath' (hspelled _ hsite r hmem) ht fun other hother hne hover =>
        hc.mem_before hf hsite hpath hmem (Or.inl ho) ht (hsites.symm.subset hother) hne hover]
    refine (h.form_alike hd hl fun other _ => ?_).read target
    exact Step.shared_rel hf.nodup_before hf'.nodup_before
      (fun v hv v' hv' hvv => ih v hv v' (List.mem_append_left _ hv') hvv) other.path
  obtain ⟨found, hfound, halike⟩ := (hr site hsite s.scope s'.scope hagree).exists_ok hres
  rwa [Except.ok.inj (hfound.symm.trans hres')] at halike

/-- The values of both trees are alike, and their errors are the same up to their order. -/
theorem resolutions_alike (h : n.Permuted n') (hd : n.Distinct) (hc : t.CompiledFrom n)
    (hc' : t'.CompiledFrom n') (hl : ∀ v, n.HasLiteral v → v.Proper)
    (hr : ∀ site ∈ n.sites,
      site.terminal.resolver.Respects Value.Alike site.terminal.references)
    (hspelled : ∀ site ∈ n.sites, ∀ r ∈ site.terminal.references, r.Spelled) {scope : Scope}
    (hframes : scope.frames = []) (hinput : Value.Alike scope.input scope.input)
    (hsubject : Option.Rel Value.Alike scope.subject scope.subject)
    (hall : scope.prefs.abortEarly = false) {r r' : Resolution} (hok : t.resolver scope = .ok r)
    (hok' : t'.resolver scope = .ok r') :
    Option.Rel Value.Alike r.value r'.value ∧ r.errors.Perm r'.errors := by
  obtain ⟨order, steps, kept, ho, -, hsteps⟩ := hc.resolved hok
  obtain ⟨order', steps', kept', ho', -, hsteps'⟩ := hc'.resolved hok'
  obtain rfl := hsteps.kept_eq_steps hall
  obtain rfl := hsteps'.kept_eq_steps hall
  have hf := hsteps.follows
  have hf' := hsteps'.follows
  have halike := h.steps_alike hd hc hc' hl hr hspelled hframes hinput hsubject
    (rootedOrder_of_orderIn hframes ho) (rootedOrder_of_orderIn hframes ho') hf hf'
  have hsites := h.sites_perm hd
  have hpaths : (kept.map Step.path).Perm (kept'.map Step.path) := by
    rw [hf.all hall, hf'.all hall]
    exact hf.perm.trans ((hsites.map Site.path).trans hf'.perm.symm)
  constructor
  · rw [hsteps.value, hsteps'.value]
    refine (h.form_alike hd hl fun site hsite => ?_).value
    have hmem : site.path ∈ kept.map Step.path := by
      rw [hf.all hall]
      exact hf.perm.symm.subset (List.mem_map_of_mem hsite)
    have hrel := Step.shared_rel hf.nodup hf'.nodup halike site.path
    rwa [if_pos (hpaths.subset hmem), if_pos hmem] at hrel
  · have herrors' : ∀ s' ∈ kept', s'.resolution.errors.Perm (Step.outcome kept s'.path).errors := by
      intro s' hs'
      obtain ⟨s, hs, hpath⟩ := List.mem_map.1 (hpaths.symm.subset (List.mem_map_of_mem hs'))
      rw [← hpath, Step.outcome_of_mem hf.nodup hs, (halike s hs s' hs' hpath.symm).errors]
    rw [hsteps.errors, hsteps'.errors]
    exact (hf.errors_perm_outcome hall).trans
      ((hsites.flatMap_right _).trans (hf'.errors_perm hall herrors').symm)

end Permuted

end Node

namespace Schema

open ValueTree

/-- The order in which the entries of mappings are declared does not matter: the schemas of both
nodes build or neither does, both resolve or neither does, the values are equal without regard to
the order of fields, and the errors are the same up to their order. -/
theorem resolve_permuted {n n' : Node} (hd : n.Distinct) (h : n.Permuted n')
    (hbuilt : ∀ s ∈ n.schemas, s.Built) (hfits : n.Fits Value.Alike)
    (hspelled : ∀ site ∈ n.sites, ∀ m ∈ site.terminal.made, m.2.Spelled) :
    ((∃ s, SchemaSpec.build { source := .tree n } = .ok s) ↔
      ∃ s', SchemaSpec.build { source := .tree n' } = .ok s') ∧
    ∀ s s', SchemaSpec.build { source := .tree n } = .ok s →
      SchemaSpec.build { source := .tree n' } = .ok s' →
      ∀ (input : Value) (prefs : Preferences), input.Proper → prefs.abortEarly = false →
        ((∃ r, s.resolve input prefs = .ok r) ↔ ∃ r', s'.resolve input prefs = .ok r') ∧
        ∀ r r', s.resolve input prefs = .ok r → s'.resolve input prefs = .ok r' →
          Value.sameOption r.value r'.value = true ∧ r.errors.Perm r'.errors := by
  constructor
  · have hbuilds : ∀ n : Node, (∃ s, SchemaSpec.build { source := .tree n } = .ok s) ↔
        ∃ t, compile n = .ok t := by
      intro n
      simp only [build_tree_eq_ok_iff]
      exact ⟨fun ⟨_, t, ht, _⟩ => ⟨t, ht⟩, fun ⟨t, ht⟩ => ⟨_, t, ht, rfl⟩⟩
    rw [hbuilds, hbuilds]
    exact h.exists_compile_iff hd
  · intro s s' hs hs' input prefs hinput hall
    obtain ⟨t, ht, rfl⟩ := build_tree_eq_ok_iff.1 hs
    obtain ⟨t', ht', rfl⟩ := build_tree_eq_ok_iff.1 hs'
    have hc := compiledFrom_of_compile ht
    have hc' := compiledFrom_of_compile ht'
    rw [resolve, resolve, resolver_ofTree, resolver_ofTree]
    constructor
    · exact h.exists_resolution_iff hd hc hc' hbuilt rfl
    · intro r r' hr hr'
      have hself := Value.alike_self hinput
      obtain ⟨hvalue, herrors⟩ := h.resolutions_alike hd hc hc'
        (fun v hv => (hfits.literals v hv).proper)
        (fun site hsite => hfits.respects Value.congruence_alike hbuilt hsite)
        (fun site hsite => Reference.spelled_of_made (hspelled site hsite)) rfl
        hself (.some hself) hall hr hr'
      exact ⟨Value.sameOption_of_rel hvalue, herrors⟩

/-! ### Four declarations in either order -/

/-- A reference to a later declaration, a literal, and two numbers. -/
def declarations : List (String × Node) :=
  [("a", .reference ⟨.relative 1, [.field "c"]⟩), ("b", .literal (.whole 1)),
    ("c", .schema (numberAt "x")), ("d", .schema (numberAt "y"))]

theorem declarations_distinct : (Node.map declarations).Distinct := by
  have hd : (Fields.names declarations).Nodup := by decide
  refine .map hd fun e he => ?_
  simp only [declarations, List.mem_cons, List.not_mem_nil, or_false] at he
  rcases he with rfl | rfl | rfl | rfl
  · exact .terminal _
  · exact .literal _
  · exact .terminal _
  · exact .terminal _

theorem declarations_fit : (Node.map declarations).Fits Value.Alike := by
  refine ⟨fun v hv => ?_, fun site hsite => ?_⟩
  · obtain ⟨e, he, hv⟩ := hv.exists_entry
    simp only [declarations, List.mem_cons, List.not_mem_nil, or_false] at he
    rcases he with rfl | rfl | rfl | rfl
    · exact absurd hv (Node.not_hasLiteral_terminal _ v)
    · obtain ⟨path, hleaf⟩ := hv
      cases hleaf
      exact .whole 1
    · exact absurd hv (Node.not_hasLiteral_terminal _ v)
    · exact absurd hv (Node.not_hasLiteral_terminal _ v)
  · have hsites : site ∈ [(⟨[.field "a"], .reference ⟨.relative 1, [.field "c"]⟩⟩ : Site),
        ⟨[.field "c"], .schema (numberAt "x")⟩, ⟨[.field "d"], .schema (numberAt "y")⟩] := hsite
    simp only [List.mem_cons, List.not_mem_nil, or_false] at hsites
    rcases hsites with rfl | rfl | rfl
    · trivial
    · exact numberAt_fits _ "x"
    · exact numberAt_fits _ "y"

theorem declarations_spelled :
    ∀ site ∈ (Node.map declarations).sites, ∀ m ∈ site.terminal.made, m.2.Spelled := by
  have hnames : ∀ site ∈ (Node.map declarations).sites, ∀ m ∈ site.terminal.made,
      ∀ key ∈ m.2.path, key.index? = none := by decide +kernel
  exact fun site hsite m hm => Reference.spelled_of_names (hnames site hsite m hm)

theorem declarations_schemas : ∀ s ∈ (Node.map declarations).schemas, s.Built := by
  intro s hs
  have hschemas : s ∈ [numberAt "x", numberAt "y"] := hs
  simp only [List.mem_cons, List.not_mem_nil, or_false] at hschemas
  rcases hschemas with rfl | rfl
  · exact numberAt_built "x"
  · exact numberAt_built "y"

/-- A text at `x`, and nothing at `y`. -/
def unnumbered : Value := .object [("x", .string "no")]

theorem unnumbered_proper : unnumbered.Proper := by
  have hd : (Fields.names [("x", Value.string "no")]).Nodup := by decide
  refine .object hd fun e he => ?_
  obtain rfl := List.mem_singleton.1 he
  exact .string "no"

theorem resolve_permuted_reversed : ∃ s s' r r',
    SchemaSpec.build { source := .tree (.map declarations) } = .ok s ∧
    SchemaSpec.build { source := .tree (.map declarations.reverse) } = .ok s' ∧
    s.resolve unnumbered { abortEarly := false } = .ok r ∧
    s'.resolve unnumbered { abortEarly := false } = .ok r' ∧
    r.errors.map ValidationError.text =
      ["'c': must be a number [number.base]", "'d': is required [any.required]"] ∧
    r'.errors.map ValidationError.text =
      ["'d': is required [any.required]", "'c': must be a number [number.base]"] ∧
    Value.sameOption r.value r'.value = true ∧ r.errors.Perm r'.errors := by
  obtain ⟨-, hresolve⟩ := resolve_permuted declarations_distinct
    (declarations_distinct.permuted_of_perm declarations.reverse_perm.symm) declarations_schemas
    declarations_fit declarations_spelled
  have hrun : ((SchemaSpec.build { source := .tree (.map declarations) }).toOption.bind fun s =>
      (s.resolve unnumbered { abortEarly := false }).toOption.map fun r =>
        r.errors.map ValidationError.text) =
      some ["'c': must be a number [number.base]", "'d': is required [any.required]"] := by
    decide +kernel
  have hrun' : ((SchemaSpec.build { source := .tree (.map declarations.reverse) }).toOption.bind
      fun s => (s.resolve unnumbered { abortEarly := false }).toOption.map fun r =>
        r.errors.map ValidationError.text) =
      some ["'d': is required [any.required]", "'c': must be a number [number.base]"] := by
    decide +kernel
  obtain ⟨s, hs, hrun⟩ := Option.bind_eq_some_iff.1 hrun
  obtain ⟨s', hs', hrun'⟩ := Option.bind_eq_some_iff.1 hrun'
  obtain ⟨r, hr, htexts⟩ := Option.map_eq_some_iff.1 hrun
  obtain ⟨r', hr', htexts'⟩ := Option.map_eq_some_iff.1 hrun'
  have hs := eq_ok_of_toOption hs
  have hs' := eq_ok_of_toOption hs'
  have hr := eq_ok_of_toOption hr
  have hr' := eq_ok_of_toOption hr'
  obtain ⟨hvalue, hperm⟩ := (hresolve s s' hs hs' unnumbered _ unnumbered_proper rfl).2 r r' hr hr'
  exact ⟨s, s', r, r', hs, hs', hr, hr', htexts, htexts', hvalue, hperm⟩

end Schema

end ValueResolution
