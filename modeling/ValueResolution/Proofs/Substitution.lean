import ValueResolution.Proofs.Ending
/-!
# Resolving as substitution

`Node.substitute` is a node with values in place of its terminals: a mapping keeps its names at
their first places with their last entries, and what has no value is left out of the container it
stands in. It is the value of the form with these values in its slots (`Node.substitute_eq`), so a
tree resolves to the node with the values of its own terminals in their places
(`ValueTree.resolver_substitutes`).
-/

set_option autoImplicit false

namespace ValueResolution

namespace Node

mutual

/-- The plain value of a node in which the terminal at the place `p` has the value `σ p`. -/
def substitute : Node → (Path → Option Value) → Option Value
  | literal v => fun _ => some v
  | terminal _ => fun σ => σ []
  | map entries => fun σ => some (.object
      ((Fields.ofEntries (substitutesOfEntries entries)).filterMap fun (name, value) =>
        (value fun p => σ (.field name :: p)).map fun v => (name, v)))
  | seq items => fun σ => some (.array
      (((substitutesOfItems items).mapIdx fun i value =>
        value fun p => σ (.index i :: p)).reduceOption))

/-- The values of the entries of a mapping. -/
def substitutesOfEntries :
    List (String × Node) → List (String × ((Path → Option Value) → Option Value))
  | [] => []
  | (name, node) :: rest => (name, substitute node) :: substitutesOfEntries rest

/-- The values of the items of a sequence. -/
def substitutesOfItems : List Node → List ((Path → Option Value) → Option Value)
  | [] => []
  | node :: rest => substitute node :: substitutesOfItems rest

end

theorem substitutesOfEntries_eq (entries : List (String × Node)) :
    substitutesOfEntries entries = Fields.mapEntries substitute entries := by
  induction entries with
  | nil => rfl
  | cons e rest ih => rw [substitutesOfEntries, ih]; rfl

theorem substitutesOfItems_eq (items : List Node) :
    substitutesOfItems items = items.map substitute := by
  induction items with
  | nil => rfl
  | cons n rest ih => rw [substitutesOfItems, ih]; rfl

/-- A mapping keeps the entries that have a value, with what is substituted under their keys. -/
theorem substitute_map (entries : List (String × Node)) (σ : Path → Option Value) :
    (map entries).substitute σ = some (.object ((Fields.ofEntries entries).filterMap fun e =>
      (e.2.substitute (under σ (.field e.1))).map fun v => (e.1, v))) := by
  simp only [substitute, substitutesOfEntries_eq]
  rw [Fields.ofEntries_mapEntries, Fields.mapEntries, List.filterMap_map]
  rfl

/-- A sequence keeps the items that have a value, in their order. -/
theorem substitute_seq (items : List Node) (σ : Path → Option Value) :
    (seq items).substitute σ = some (.array
      (items.mapIdx fun i n => n.substitute (under σ (.index i))).reduceOption) := by
  simp only [substitute, substitutesOfItems_eq, mapIdx_map]
  rfl

/-- Substituting is taking the value of the form. -/
theorem substitute_eq (n : Node) (σ : Path → Slot) :
    n.substitute σ = (n.form σ).value fun slot => slot := by
  induction n using Node.induction generalizing σ with
  | literal v => rfl
  | terminal t => rfl
  | map entries ih =>
    rw [substitute_map, form_map, Tree.value, Tree.fields_eq, List.filterMap_map]
    refine congrArg (fun vs => some (Value.object vs)) (List.filterMap_congr fun e he => ?_)
    rw [ih e ((Fields.ofEntries_subperm entries).subset he)]
    rfl
  | seq items ih =>
    have hitems : (items.mapIdx fun i n => n.substitute (under σ (.index i))) =
        (items.mapIdx fun i n => n.form (under σ (.index i))).map
          (Tree.value fun slot => slot) := by
      rw [map_mapIdx]
      exact List.mapIdx_eq_mapIdx_iff.2 fun i hi => ih _ (List.getElem_mem hi) _
    have hreduce : (((items.mapIdx fun i n => n.form (under σ (.index i))).map
        (Tree.value fun slot => slot)).reduceOption) =
          (items.mapIdx fun i n => n.form (under σ (.index i))).filterMap
            (Tree.value fun slot => slot) := List.filterMap_map
    rw [substitute_seq, form_seq, Tree.value, Tree.values_eq, hitems, hreduce]

end Node

namespace ValueTree

/-- A tree resolves to its node with values in place of the terminals. These are the values that
the terminals themselves resolve to, each of them once; a pass that is stopped leaves the terminal
that fails and those behind it without a value. -/
theorem resolver_substitutes {n : Node} {t : ValueTree} (hc : compile n = .ok t) {scope : Scope}
    {r : Resolution} (hr : t.resolver scope = .ok r) : ∃ order steps kept,
      orderIn t.order t.rootedOrder scope = .ok order ∧ t.trace scope = .ok steps ∧
      Follows n scope order steps ∧ r.value = n.substitute (Step.slots kept) ∧
      (steps.map Step.path = order ∧ kept = steps ∧
          (scope.prefs.abortEarly = true → ∀ s ∈ steps, s.resolution.isOk = true) ∨
        scope.prefs.abortEarly = true ∧ ∃ failed, steps = kept ++ [failed] ∧
          failed.resolution.isOk = false ∧ ∀ s ∈ kept, s.resolution.isOk = true) := by
  obtain ⟨order, steps, kept, ho, htrace, h⟩ := (compiledFrom_of_compile hc).resolved hr
  refine ⟨order, steps, kept, ho, htrace, h.follows, h.value.trans (n.substitute_eq _).symm, ?_⟩
  have hok : scope.prefs.abortEarly = true → ∀ s ∈ kept, s.resolution.isOk = true :=
    fun ha s hs => by simpa [Resolution.stops, ha] using h.passed s hs
  rcases h.rest with ⟨hpaths, rfl⟩ | ⟨failed, hsteps, hstop⟩
  · exact Or.inl ⟨hpaths, rfl, hok⟩
  · obtain ⟨hfail, ha⟩ : failed.resolution.isOk = false ∧ scope.prefs.abortEarly = true := by
      simpa [Resolution.stops] using hstop
    exact Or.inr ⟨ha, failed, hsteps, hfail, hok ha⟩

/-- A name that is written twice, and places without a value at several depths. -/
def gaps : Node := .map
  [("a", .literal (.whole 1)),
    ("s", .seq [.reference ⟨.root, [.field "none"]⟩, .literal (.whole 2),
      .seq [.reference ⟨.root, [.field "none"]⟩, .reference ⟨.root, [.field "none"]⟩],
      .reference ⟨.root, [.field "x"]⟩]),
    ("a", .reference ⟨.relative 1, [.field "s", .index 3]⟩)]

/-- A call of `gaps`. -/
def gapsScope : Scope := .ofInput (.object [("x", .whole 7)]) {}

/-- Terminals without a value leave no gaps. -/
theorem resolver_substitutes_gaps : ∃ t r steps, compile gaps = .ok t ∧
    t.resolver gapsScope = .ok r ∧ t.trace gapsScope = .ok steps ∧
    r.value = gaps.substitute (Step.slots steps) ∧
    Value.sameOption r.value (some (.object
      [("a", .whole 7), ("s", .array [.whole 2, .array [], .whole 7])])) = true := by
  have hrun : ((compile gaps).toOption.bind fun t => (t.trace gapsScope).toOption.map fun steps =>
      Value.sameOption (gaps.substitute (Step.slots steps)) (some (.object
        [("a", .whole 7), ("s", .array [.whole 2, .array [], .whole 7])]))) = some true := by
    decide +kernel
  obtain ⟨t, hc, hrun⟩ := Option.bind_eq_some_iff.1 hrun
  obtain ⟨steps, htrace, hvalue⟩ := Option.map_eq_some_iff.1 hrun
  have hc := eq_ok_of_toOption hc
  have htrace := eq_ok_of_toOption htrace
  obtain ⟨r, hr⟩ := (compiledFrom_of_compile hc).resolver_of_trace htrace
  obtain ⟨order, steps', kept, -, htrace', -, hsubst, hcase⟩ := resolver_substitutes hc hr
  obtain rfl : steps = steps' := Except.ok.inj (htrace.symm.trans htrace')
  rcases hcase with ⟨-, rfl, -⟩ | ⟨habort, -⟩
  · exact ⟨t, r, kept, hc, hr, htrace, hsubst, hsubst ▸ hvalue⟩
  · exact absurd habort (by decide)

end ValueTree

end ValueResolution
