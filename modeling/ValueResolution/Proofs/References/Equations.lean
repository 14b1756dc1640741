import ValueResolution.Proofs.Ending
import ValueResolution.Proofs.References.Made
/-!
# The equations of references

A resolved tree solves its own references. In the outermost tree every reference that does not lead
to its own terminal reads what the finished tree has at its target, although it was resolved when
only some of the terminals were: those that its target depends on came first, and none of the later
ones is in what it reads (`ValueTree.slots_before`). The equations hold for every terminal
(`ValueTree.reference_equations`), in whatever order the terminals are declared.
-/

set_option autoImplicit false

namespace ValueResolution

namespace Reference

/-- Every key of the path that names a position is written as its numeral. -/
def Spelled (r : Reference) : Prop :=
  ∀ key ∈ r.path, ∀ i, key.index? = some i → key.text = i.repr

/-- A path that names no position is spelled. -/
theorem spelled_of_names {r : Reference} (h : ∀ key ∈ r.path, key.index? = none) : r.Spelled :=
  fun key hkey i hi => by simp [h key hkey] at hi

/-- References leave a terminal as they are spelled in it. -/
theorem spelled_of_made {t : Terminal} (h : ∀ m ∈ t.made, m.2.Spelled) :
    ∀ r ∈ t.references, r.Spelled := by
  intro r hr
  obtain ⟨m, hm, hpath, -⟩ := t.exists_made hr
  rw [Spelled, hpath]
  exact h m hm

/-- The reference leads from `place` into the tree, to where the terminal at `place` has no part. -/
def LeadsAway (r : Reference) (place : Path) : Prop :=
  r.Spelled ∧ ∃ target, r.target? place = some target ∧ Path.overlaps place target = false

/-- The value a reference has in a tree, when the terminal at `place` makes it. -/
def valueIn (r : Reference) (input : Value) (place : Path) (t : Tree Slot) : Option Value :=
  match r.anchor with
  | .root => input.reach r.path
  | _ => (r.target? place).bind t.read

theorem valueIn_of_target {r : Reference} {place target : Path} (h : r.target? place = some target)
    (input : Value) (t : Tree Slot) : r.valueIn input place t = t.read target := by
  obtain ⟨anchor, path⟩ := r
  cases anchor with
  | root => simp [target?] at h
  | relative up => simp [valueIn, h]
  | level depth => simp [valueIn, h]

end Reference

/-- What an expression comes to when its references have the given values. -/
def Expression.outcome (x : Expression) (arguments : List (Option Value)) : Resolution :=
  match x.formula arguments with
  | .ok value => ⟨value, []⟩
  | .error reason => .failed
    { code := "expression.eval", message := "expression '" ++ x.label ++ "' failed: " ++ reason }

theorem Expression.evaluate_of_lookUps {x : Expression} {s : Scope}
    {arguments : List (Option Value)} (h : x.references.mapM s.lookUp = .ok arguments) :
    Resolution.ofLookup (x.evaluate s) = x.outcome arguments := by
  simp only [Expression.evaluate, h, Expression.outcome]
  cases x.formula arguments <;> rfl

/-- The target of a spelled reference is spelled. -/
theorem Node.form_spelled_target {n : Node} {site : Site} (hsite : site ∈ n.sites) {r : Reference}
    (hspelled : r.Spelled) {target : Path} (ht : r.target? site.path = some target)
    {σ : Path → Slot} : (n.form σ).Spelled target := by
  obtain ⟨k, -, rfl⟩ := Reference.target?_eq_some ht
  exact (Node.form_spelled_site hsite _).take_append hspelled k

namespace ValueTree

/-- The terminals that a reference may read come before the one that makes it, as long as the order
counts the reference. -/
theorem CompiledFrom.mem_before {n : Node} {t : ValueTree} (hc : t.CompiledFrom n) {scope : Scope}
    {order : List Path} {before behind : List Step} {s : Step}
    (hf : Follows n scope order (before ++ s :: behind)) {site : Site} (hsite : site ∈ n.sites)
    (hpath : site.path = s.path) {r : Reference} (hr : r ∈ site.terminal.references)
    (ho : t.rootedOrder = .ok order ∨ t.order = order ∧ r.isLevel = false) {target : Path}
    (ht : r.target? site.path = some target) {other : Site} (hother : other ∈ n.sites)
    (hne : other.path ≠ site.path) (hover : Path.overlaps other.path target = true) :
    other.path ∈ before.map Step.path := by
  have hplace : other.path ∈ (terminalsOf n).map Prod.fst := by
    rw [places_terminalsOf]
    exact List.mem_map_of_mem hother
  have hterminal : (site.path, site.terminal.references) ∈ terminalsOf n :=
    List.mem_map_of_mem (f := fun site => (site.path, site.terminal.references)) hsite
  rw [hf.mem_before_iff, ← hpath]
  rcases ho with ho | ⟨ho, hcounts⟩
  · exact resolutionOrder_after (hc.rootedOrder.symm.trans ho) hterminal
      (mem_waitsFor.2 ⟨hplace, hne, r, hr, Or.inl rfl, target, ht, hover⟩)
  · exact resolutionOrder_after (ho ▸ hc.order) hterminal
      (mem_waitsFor.2 ⟨hplace, hne, r, hr, Or.inr hcounts, target, ht, hover⟩)

/-- What a reference reads depends only on the slots that were filled before and that overlap its
target. -/
theorem CompiledFrom.read_before {n : Node} {t : ValueTree} (hc : t.CompiledFrom n) {scope : Scope}
    {order : List Path} {before behind : List Step} {s : Step}
    (hf : Follows n scope order (before ++ s :: behind)) {site : Site} (hsite : site ∈ n.sites)
    (hpath : site.path = s.path) {r : Reference} (hr : r ∈ site.terminal.references)
    (ho : t.rootedOrder = .ok order ∨ t.order = order ∧ r.isLevel = false) {target : Path}
    (ht : r.target? site.path = some target) (hspelled : r.Spelled) {σ : Path → Slot}
    (hσ : ∀ u ∈ before, Path.overlaps u.path target = true → σ u.path = u.resolution.value)
    (hself : Path.overlaps site.path target = true → σ site.path = none) :
    (n.form (Step.slots before)).read target = (n.form σ).read target := by
  refine Node.form_read_congr (Node.form_spelled_target hsite hspelled ht)
    fun other hother hover => ?_
  by_cases heq : other.path = site.path
  · rw [heq] at hover ⊢
    rw [hself hover, hpath, Step.slots_of_notMem hf.notMem_before]
  · obtain ⟨u, hu, hpathu⟩ := List.mem_map.1
      (hc.mem_before hf hsite hpath hr ho ht hother heq hover)
    rw [← hpathu] at hover ⊢
    rw [Step.slots_of_mem hf.nodup_before hu, hσ u hu hover]

/-- What a terminal can read of the finished tree is there when it is resolved. -/
theorem slots_before {n : Node} {t : ValueTree} (hc : t.CompiledFrom n) {scope : Scope}
    {order : List Path} (ho : t.rootedOrder = .ok order) {before behind : List Step} {s : Step}
    (hf : Follows n scope order (before ++ s :: behind)) {site : Site} (hsite : site ∈ n.sites)
    (hpath : site.path = s.path) {r : Reference} (hr : r ∈ site.terminal.references)
    (haway : r.LeadsAway site.path) {target : Path} (ht : r.target? site.path = some target) :
    (n.form (Step.slots before)).read target =
      (n.form (Step.slots (before ++ s :: behind))).read target := by
  obtain ⟨hspelled, target', ht', hno⟩ := haway
  obtain rfl : target = target' := Option.some.inj (ht.symm.trans ht')
  refine hc.read_before hf hsite hpath hr (Or.inl ho) ht hspelled (fun u hu _ => ?_) fun hover => ?_
  · exact Step.slots_of_mem hf.nodup (List.mem_append_left _ hu)
  · rw [hno] at hover
    exact absurd hover Bool.false_ne_true

/-- A reference into the input or away from its terminal looks up what the finished tree has. -/
theorem lookUp_before {n : Node} {t : ValueTree} (hc : t.CompiledFrom n) {scope : Scope}
    (hframes : scope.frames = []) {order : List Path} (ho : t.rootedOrder = .ok order)
    {before behind : List Step} {s : Step} (hf : Follows n scope order (before ++ s :: behind))
    {site : Site} (hsite : site ∈ n.sites) (hpath : site.path = s.path) {r : Reference}
    (hr : r ∈ site.terminal.references) (haway : r.anchor = .root ∨ r.LeadsAway site.path) :
    s.scope.lookUp r = .ok
      (r.valueIn scope.input site.path (n.form (Step.slots (before ++ s :: behind)))) := by
  have hface := hf.faces before s behind rfl
  rcases haway with hroot | haway
  · obtain ⟨anchor, path⟩ := r
    obtain rfl : anchor = .root := hroot
    obtain ⟨frames, hscope, -⟩ := hface
    rw [hscope]
    rfl
  · obtain ⟨target, ht, -⟩ := haway.2
    rw [hface.lookUp_target hframes (hpath ▸ ht), Reference.valueIn_of_target ht,
      slots_before hc ho hf hsite hpath hr haway ht]

/-- An outermost tree resolves to the value of the finished tree, whose slots its steps have filled,
and to the errors of these steps. Every reference that leads away from its own terminal has the
value that the finished tree has at its target, and every expression over such references and
references into the input is evaluated on these values. -/
theorem reference_equations {n : Node} {t : ValueTree} (hc : compile n = .ok t) {scope : Scope}
    (hframes : scope.frames = []) (hall : scope.prefs.abortEarly = false) {result : Resolution}
    (hr : t.resolver scope = .ok result) :
    ∃ steps, t.trace scope = .ok steps ∧ (steps.map Step.path).Perm (n.sites.map Site.path) ∧
      (result.value = (n.form (Step.slots steps)).value fun slot => slot) ∧
      result.errors = Step.errors steps ∧
      ∀ site ∈ n.sites, ∃ s ∈ steps, s.path = site.path ∧
        (∀ r, site.terminal = .reference r → r.LeadsAway site.path → s.resolution =
          ⟨r.valueIn scope.input site.path (n.form (Step.slots steps)), []⟩) ∧
        (∀ x, site.terminal = .expression x →
          (∀ r ∈ x.references, r.anchor = .root ∨ r.LeadsAway site.path) → s.resolution =
            x.outcome (x.references.map fun r =>
              r.valueIn scope.input site.path (n.form (Step.slots steps)))) := by
  have hfrom := compiledFrom_of_compile hc
  obtain ⟨order, steps, kept, ho, htrace, hresolved⟩ := hfrom.resolved hr
  obtain rfl := hresolved.kept_eq_steps hall
  have hf := hresolved.follows
  have hpaths := hf.all hall
  refine ⟨kept, htrace, hpaths ▸ hf.perm, hresolved.value, hresolved.errors, fun site hsite => ?_⟩
  obtain ⟨s, hs, hpath⟩ := List.mem_map.1
    (hpaths ▸ hf.perm.symm.subset (List.mem_map_of_mem hsite))
  have hres := hf.resolver_eq hs hsite hpath.symm
  obtain ⟨before, behind, rfl⟩ := List.append_of_mem hs
  have horder : t.rootedOrder = .ok order := by simpa [hframes] using orderIn_eq_ok_iff.1 ho
  have hlook := fun r hmem haway => lookUp_before hfrom hframes
    horder hf hsite hpath.symm (r := r) hmem haway
  refine ⟨s, hs, hpath, fun r hterm haway => ?_, fun x hterm haway => ?_⟩
  · have hmem : r ∈ site.terminal.references := by
      rw [hterm]
      exact List.mem_singleton_self r
    rw [hterm] at hres
    have hval : Resolution.ofLookup (s.scope.lookUp r) = s.resolution := Except.ok.inj hres
    rw [← hval, hlook r hmem (Or.inr haway)]
    rfl
  · have hmem : ∀ r ∈ x.references, r ∈ site.terminal.references := by
      rw [hterm]
      exact fun r hr => hr
    rw [hterm] at hres
    have hval : Resolution.ofLookup (x.evaluate s.scope) = s.resolution := Except.ok.inj hres
    rw [← hval]
    exact Expression.evaluate_of_lookUps
      (mapM_eq_ok fun r hr => hlook r (hmem r hr) (haway r hr))

/-- Every terminal waits for one that is declared after it. -/
def chain : Node := .map
  [("all", .expression
      { label := "list"
        references := [⟨.relative 1, [.field "b"]⟩, ⟨.root, [.field "x"]⟩]
        formula := fun arguments => .ok (some (.array (arguments.filterMap fun v => v))) }),
    ("a", .reference ⟨.relative 1, [.field "b"]⟩),
    ("b", .reference ⟨.level 0, [.field "c", .index 0]⟩),
    ("c", .seq [.reference ⟨.root, [.field "x"]⟩])]

/-- A call of `chain`. -/
def chainScope : Scope := .ofInput (.object [("x", .whole 7)]) {}

theorem reference_equations_chain : ∃ t result steps s, compile chain = .ok t ∧
    chainScope.frames = [] ∧ chainScope.prefs.abortEarly = false ∧
    t.resolver chainScope = .ok result ∧ t.trace chainScope = .ok steps ∧
    (result.value = (chain.form (Step.slots steps)).value fun slot => slot) ∧ s ∈ steps ∧
    s.path = [.field "a"] ∧
    s.resolution = ⟨(chain.form (Step.slots steps)).read [.field "b"], []⟩ := by
  have hrun : ((compile chain).toOption.bind fun t =>
      (t.resolver chainScope).toOption).isSome = true := by decide +kernel
  obtain ⟨result, hrun⟩ := Option.isSome_iff_exists.1 hrun
  obtain ⟨t, hc, hr⟩ := Option.bind_eq_some_iff.1 hrun
  have hc := eq_ok_of_toOption hc
  have hr := eq_ok_of_toOption hr
  obtain ⟨steps, htrace, -, hvalue, -, hsites⟩ := reference_equations hc rfl rfl hr
  have hsite : (⟨[.field "a"], .reference ⟨.relative 1, [.field "b"]⟩⟩ : Site) ∈ chain.sites :=
    List.mem_cons_of_mem _ List.mem_cons_self
  obtain ⟨s, hs, hpath, href, -⟩ := hsites _ hsite
  have haway : Reference.LeadsAway ⟨.relative 1, [.field "b"]⟩ [.field "a"] := by
    refine ⟨fun key hkey i hi => ?_, [.field "b"], rfl, by decide +kernel⟩
    obtain rfl := List.mem_singleton.1 hkey
    have hnone : (Key.field "b").index? = none := by decide +kernel
    simp [hnone] at hi
  exact ⟨t, result, steps, s, hc, rfl, rfl, hr, htrace, hvalue, hs, hpath,
    href _ rfl haway⟩

end ValueTree

end ValueResolution
