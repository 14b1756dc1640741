import ValueResolution.Proofs.References.Made
import ValueResolution.Proofs.Trace
/-!
# Level references in nested trees

A level reference that is made inside a nested tree can be anchored in that tree, when it counts
further down than the tree stands. It then reads the tree as any reference does
(`Step.Faces.lookUp_level`), but it plays no part in its order, which is the order of the terminals
without their level references. So it reads the resolved value of another terminal exactly when
that order happens to have the other one first (`ValueTree.nested_level_reads`); otherwise it reads
an empty slot.
-/

set_option autoImplicit false

namespace ValueResolution

namespace Reference

/-- The place at which a level reference reads the tree that stands inside `around` containers, when
it is made from `place` in that tree and anchored there. -/
def levelTarget? (r : Reference) (around : Nat) (place : Path) : Option Path :=
  match r.anchor with
  | .level depth =>
    if around ≤ depth ∧ depth < around + place.length then
      some (place.take (depth - around) ++ r.path)
    else none
  | _ => none

theorem levelTarget?_eq_some {r : Reference} {around : Nat} {place target : Path}
    (h : r.levelTarget? around place = some target) : ∃ depth, r.anchor = .level depth ∧
      around ≤ depth ∧ depth < around + place.length ∧
      target = place.take (depth - around) ++ r.path := by
  obtain ⟨anchor, path⟩ := r
  cases anchor with
  | root => simp [levelTarget?] at h
  | relative up => simp [levelTarget?] at h
  | level depth =>
    simp only [levelTarget?, Option.ite_none_right_eq_some, Option.some.injEq] at h
    exact ⟨depth, rfl, h.1.1, h.1.2, h.2.symm⟩

end Reference

/-- Counting down from the outermost container goes by the outer ones only. -/
theorem Scope.lookUp_localize_level (scope : Scope) (place : Path) (inner : List Frame)
    {depth : Nat} (h : depth < scope.frames.length) (path : Path) :
    (scope.localize place inner).lookUp ⟨.level depth, path⟩ =
      scope.lookUp ⟨.level depth, path⟩ := by
  have hframe : (scope.localize place inner).frame? (.level depth) =
      scope.frame? (.level depth) := by
    have hsub : inner.length + scope.frames.length - (depth + 1) - inner.length =
        scope.frames.length - (depth + 1) := by omega
    simp only [Scope.frame?, Scope.localize, List.length_append]
    rw [if_pos (by omega), if_pos h, List.getElem?_append_right (by omega), hsub]
  simp only [Scope.lookUp, hframe]

/-- A schema that resolves has resolved its source in the same scope. -/
theorem Schema.resolver_source {s : Schema} {t : ValueTree} (hs : s.source = .tree t)
    {scope : Scope} {r : Resolution} (h : s.resolver scope = .ok r) :
    ∃ produced, t.resolver scope = .ok produced := by
  obtain ⟨source, default, validator, required, conditional, strip⟩ := s
  obtain rfl : source = .tree t := hs
  cases hp : t.resolver scope with
  | ok produced => exact ⟨produced, rfl⟩
  | error e =>
    have hsource : (Source.tree t).resolver scope = .error e := hp
    rw [Schema.resolver_eq] at h
    simp [Source.literal?, Stages.run, hsource, bind, Except.bind] at h

namespace ValueTree

/-- The slots that a step finds are those of the terminals before it in the order. -/
theorem Follows.slots_eq {n : Node} {scope : Scope} {order : List Path} {before behind : List Step}
    {s : Step} (h : Follows n scope order (before ++ s :: behind)) (path : Path) :
    ([path, s.path].Sublist order → ∃ u ∈ before, u.path = path ∧
      Step.slots before path = u.resolution.value) ∧
    (¬ [path, s.path].Sublist order → Step.slots before path = none) := by
  refine ⟨fun hsub => ?_, fun hsub => ?_⟩
  · obtain ⟨u, hu, rfl⟩ := List.mem_map.1 (h.mem_before_iff.2 hsub)
    have hn := h.nodup
    rw [List.map_append] at hn
    exact ⟨u, hu, rfl, Step.slots_of_mem (List.nodup_append.1 hn).1 hu⟩
  · exact Step.slots_of_notMem fun hmem => hsub (h.mem_before_iff.1 hmem)

/-- A tree nested as the source of a schema is resolved in the order of its terminals without their
level references. A level reference made in one of its terminals that is anchored in the tree reads
the slots that are filled by then: another terminal's slot holds what that terminal resolved to if
the order has the other one first, and is empty if not. -/
theorem nested_level_reads {outer n : Node} {around t : ValueTree}
    (hc₀ : compile outer = .ok around) (hc : compile n = .ok t) {s : Schema}
    (hsource : s.source = .tree t) {place : Path} (hsite₀ : ⟨place, .schema s⟩ ∈ outer.sites)
    (hplace : place ≠ []) {scope : Scope} (hframes : scope.frames = []) {result : Resolution}
    (hr : around.resolver scope = .ok result) :
    resolutionOrder ((terminalsOf n).map fun t => (t.1, t.2.filter countsNested)) true =
      .ok t.order ∧
    ∃ steps₀, around.trace scope = .ok steps₀ ∧
      (scope.prefs.abortEarly = false → ∃ s₀ ∈ steps₀, s₀.path = place) ∧
      ∀ s₀ ∈ steps₀, s₀.path = place → ∃ steps, t.trace s₀.scope = .ok steps ∧
        steps.map Step.path <+: t.order ∧
        (scope.prefs.abortEarly = false → steps.map Step.path = t.order) ∧
        ∀ before s₁ behind, steps = before ++ s₁ :: behind →
          ∀ site ∈ n.sites, site.path = s₁.path → ∀ m ∈ site.terminal.made, ∀ target,
          m.2.levelTarget? place.length s₁.path = some target →
            (∀ (way : Path) (inner : List Frame), inner.length = m.1 →
              (s₁.scope.localize way inner).lookUp m.2 =
                .ok ((n.form (Step.slots before)).read target)) ∧
            ∀ other ∈ n.sites, other.path ≠ s₁.path →
              Path.overlaps other.path target = true →
              (other.path ∈ before.map Step.path ↔ [other.path, s₁.path].Sublist t.order) ∧
              ([other.path, s₁.path].Sublist t.order → ∃ u ∈ before, u.path = other.path ∧
                Step.slots before other.path = u.resolution.value) ∧
              (¬ [other.path, s₁.path].Sublist t.order →
                Step.slots before other.path = none) := by
  have hfrom₀ := compiledFrom_of_compile hc₀
  have hfrom := compiledFrom_of_compile hc
  refine ⟨by rw [← resolutionOrder_false]; exact hfrom.order, ?_⟩
  obtain ⟨steps₀, p₀, stopped₀, htrace₀, -⟩ := tracePass_of_resolver hr
  obtain ⟨order₀, -, hf₀, -⟩ := hfrom₀.follows htrace₀
  refine ⟨steps₀, by rw [trace, htrace₀]; rfl, fun hall => ?_, fun s₀ hs₀ hpath₀ => ?_⟩
  · have hmem : place ∈ order₀ := hf₀.perm.symm.subset (List.mem_map_of_mem hsite₀)
    rw [← hf₀.all hall] at hmem
    exact List.mem_map.1 hmem
  -- the schema is resolved in a scope with the containers of the outer tree, and its source too
  obtain ⟨before₀, behind₀, hsplit₀⟩ := List.append_of_mem hs₀
  obtain ⟨frames₀, hscope₀, hlen₀, -⟩ := hf₀.faces before₀ s₀ behind₀ hsplit₀
  have hlength : s₀.scope.frames.length = place.length := by
    rw [hscope₀, Scope.localize, hframes, List.append_nil, hlen₀, hpath₀]
  have hprefs : s₀.scope.prefs = scope.prefs := by
    rw [hscope₀]
    rfl
  have hres := hf₀.resolver_eq hs₀ hsite₀ hpath₀.symm
  obtain ⟨produced, hproduced⟩ := Schema.resolver_source hsource hres
  obtain ⟨steps, p, stopped, htrace, -⟩ := tracePass_of_resolver hproduced
  obtain ⟨order, ho, hf, -⟩ := hfrom.follows htrace
  have hne : s₀.scope.frames ≠ [] := by
    intro hnil
    rw [hnil] at hlength
    exact hplace (List.eq_nil_of_length_eq_zero hlength.symm)
  obtain rfl : t.order = order := by simpa [hne] using orderIn_eq_ok_iff.1 ho
  refine ⟨steps, by rw [trace, htrace]; rfl, hf.paths, fun hall => hf.all (hprefs ▸ hall), ?_⟩
  rintro before s₁ behind rfl site hsite hpath m hm target htarget
  refine ⟨fun way inner _ => ?_, fun other _ _ _ => ⟨hf.mem_before_iff, hf.slots_eq other.path⟩⟩
  obtain ⟨depth, hanchor, hge, hlt, rfl⟩ := Reference.levelTarget?_eq_some htarget
  have hface := hf.faces before s₁ behind rfl
  have hdepth : depth < s₁.scope.frames.length := by
    obtain ⟨frames, hscope, hlen, -⟩ := hface
    rw [hscope, Scope.localize, List.length_append, hlen, hlength]
    omega
  rw [show m.2 = ⟨.level depth, m.2.path⟩ by rw [← hanchor],
    Scope.lookUp_localize_level _ _ _ hdepth,
    hface.lookUp_level (by rw [hlength]; exact hge) (by rw [hlength]; exact hlt), hlength]

/-! ### A level reference to a later terminal -/

/-- A tree in which a terminal reads a later one by a level reference, when it is nested once. -/
def levelReader : Node := .map
  [("a", .reference ⟨.level 1, [.field "b"]⟩), ("b", .reference ⟨.root, [.field "x"]⟩)]

def levelReaderTree : ValueTree := ofOrder levelReader [[.field "a"], [.field "b"]]

theorem compile_levelReader : compile levelReader = .ok levelReaderTree :=
  compile_of_order (by decide +kernel)

/-- The schema of the tree. -/
def levelReaderSchema : Schema :=
  { source := .tree levelReaderTree, default := none, validator := none, required := false
    conditional := none, strip := false }

/-- The tree in another one. -/
def levelNest : Node := .map [("n", .schema levelReaderSchema)]

def levelNestTree : ValueTree := ofOrder levelNest [[.field "n"]]

theorem compile_levelNest : compile levelNest = .ok levelNestTree :=
  compile_of_order (by decide +kernel)

/-- A call of the outer tree. -/
def levelScope : Scope := .ofInput (.object [("x", .whole 7)]) {}

theorem resolver_levelNest : ∃ result, levelNestTree.resolver levelScope = .ok result := by
  have hrun : (levelNestTree.resolver levelScope).toOption.isSome = true := by decide +kernel
  obtain ⟨result, hrun⟩ := Option.isSome_iff_exists.1 hrun
  exact ⟨result, eq_ok_of_toOption hrun⟩

theorem nested_level_reads_once : ∃ result steps₀ s₀ steps,
    compile levelNest = .ok levelNestTree ∧ compile levelReader = .ok levelReaderTree ∧
    ⟨[.field "n"], .schema levelReaderSchema⟩ ∈ levelNest.sites ∧ levelScope.frames = [] ∧
    levelNestTree.resolver levelScope = .ok result ∧
    levelNestTree.trace levelScope = .ok steps₀ ∧ s₀ ∈ steps₀ ∧ s₀.path = [.field "n"] ∧
    levelReaderTree.trace s₀.scope = .ok steps ∧
    steps.map Step.path = [[.field "a"], [.field "b"]] := by
  have hsite : ⟨[.field "n"], .schema levelReaderSchema⟩ ∈ levelNest.sites :=
    List.mem_singleton_self _
  obtain ⟨result, hr⟩ := resolver_levelNest
  obtain ⟨-, steps₀, htrace₀, hfound, hnested⟩ := nested_level_reads compile_levelNest
    compile_levelReader rfl hsite (by decide) (rfl : levelScope.frames = []) hr
  obtain ⟨s₀, hs₀, hpath₀⟩ := hfound rfl
  obtain ⟨steps, htrace, -, hall, -⟩ := hnested s₀ hs₀ hpath₀
  exact ⟨result, steps₀, s₀, steps, compile_levelNest, compile_levelReader, hsite, rfl, hr, htrace₀,
    hs₀, hpath₀, htrace, hall rfl⟩

/-- The reference of `levelReader` leads to a terminal that resolves to a value, but it is resolved
first and to none. -/
theorem nested_level_reads_none : ∃ result steps₀ s₀ steps,
    compile levelNest = .ok levelNestTree ∧ compile levelReader = .ok levelReaderTree ∧
    ⟨[.field "n"], .schema levelReaderSchema⟩ ∈ levelNest.sites ∧ levelScope.frames = [] ∧
    levelNestTree.resolver levelScope = .ok result ∧
    Reference.levelTarget? ⟨.level 1, [.field "b"]⟩ 1 [.field "a"] = some [.field "b"] ∧
    levelNestTree.trace levelScope = .ok steps₀ ∧ s₀ ∈ steps₀ ∧ s₀.path = [.field "n"] ∧
    levelReaderTree.trace s₀.scope = .ok steps ∧
    steps.map (fun s => (s.path, s.resolution.value.isSome)) =
      [([.field "a"], false), ([.field "b"], true)] := by
  obtain ⟨result, hr⟩ := resolver_levelNest
  have hrun : ((levelNestTree.trace levelScope).toOption.bind fun steps₀ =>
      (steps₀.find? fun s => s.path = [.field "n"]).bind fun s₀ =>
      (levelReaderTree.trace s₀.scope).toOption.map fun steps =>
        steps.map fun s => (s.path, s.resolution.value.isSome)) =
      some [([.field "a"], false), ([.field "b"], true)] := by decide +kernel
  obtain ⟨steps₀, htrace₀, hrun⟩ := Option.bind_eq_some_iff.1 hrun
  obtain ⟨s₀, hfind, hrun⟩ := Option.bind_eq_some_iff.1 hrun
  obtain ⟨steps, htrace, hsteps⟩ := Option.map_eq_some_iff.1 hrun
  exact ⟨result, steps₀, s₀, steps, compile_levelNest, compile_levelReader,
    List.mem_singleton_self _, rfl, hr, by decide, eq_ok_of_toOption htrace₀,
    List.mem_of_find?_eq_some hfind, by simpa using List.find?_some hfind,
    eq_ok_of_toOption htrace, hsteps⟩

end ValueTree

end ValueResolution
