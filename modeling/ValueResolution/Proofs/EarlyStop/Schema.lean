import ValueResolution.Proofs.EarlyStop.Pass
import ValueResolution.Proofs.Schema.Parts
/-!
# Stopping early: schemas

All parts of a built schema agree with and without the preference to stop early, by recursion on the
parts, as soon as its validators do not look at it. `Schema.resolve_abortEarly` says so of a whole
call, and what `Schema.attempt` answers.
-/

set_option autoImplicit false

namespace ValueResolution

variable {one : Prop}

/-- A part that keeps the agreement: a tree that comes from a node, or a validator that does not
look at the preference. -/
def Part.Sound (one : Prop) : Part → Prop
  | .validator v => v.Steady ∧ (one → v.Brief)
  | .tree t => ∃ n, ValueTree.compile n = .ok t

/-- A compiled tree agrees when its terminals do: wherever it ends early it shows a form of its
node, and that has a value. -/
theorem ValueTree.resolver_agrees {t : ValueTree} {n : Node} (hc : t.CompiledFrom n)
    (h : ∀ e ∈ resolversOfSites t.sites, Resolver.Agrees one e.2) :
    Resolver.Agrees one t.resolver := by
  intro scope full hfull
  obtain ⟨order, ho, hrun⟩ := bind_eq_ok_iff.1 (t.resolver_run _ ▸ hfull)
  have ho' : orderIn t.order t.rootedOrder (scope.withAbort true) = .ok order := ho
  rw [t.resolver_run, ho']
  refine Pass.run_cuts (fun e he => h e (mem_arrange he)) (fun p hp => ?_) hrun
  obtain ⟨⟨steps, out⟩, htrace, rfl⟩ := map_eq_ok_iff.1 ((Pass.resolveAll_eq _ _ _).symm.trans hp)
  have hpass : t.tracePass (scope.withAbort true) = .ok (steps, p, true) := by
    rw [tracePass, ho']
    exact htrace
  obtain ⟨-, -, -, -, kept, hend⟩ := hc.follows hpass
  exact ⟨_, hend.shows.snapshot⟩

mutual

/-- A terminal agrees when its parts are sound. -/
theorem Terminal.agrees (t : Terminal) (h : ∀ p ∈ t.parts, p.Sound one) :
    Resolver.Agrees one t.resolver := by
  match t with
  | .reference r => exact Resolver.ofReference_agrees r
  | .expression x => exact Resolver.ofExpression_agrees x
  | .schema s => exact s.agrees h
termination_by structural t

/-- A schema agrees when its parts are sound. -/
theorem Schema.agrees (s : Schema) (h : ∀ p ∈ s.parts, p.Sound one) :
    Resolver.Agrees one s.resolver := by
  match s with
  | ⟨source, default, validator, required, conditional, strip⟩ =>
    obtain ⟨h, hconditional⟩ := List.forall_mem_append.1 h
    obtain ⟨h, hvalidator⟩ := List.forall_mem_append.1 h
    obtain ⟨hsource, hdefault⟩ := List.forall_mem_append.1 h
    have hvalidator : ∀ v, validator = some v → Part.Sound one (.validator v) := by
      rintro v rfl
      exact hvalidator _ (List.mem_singleton_self _)
    rw [Schema.resolver_eq]
    split
    · exact Resolver.ofValue_agrees _
    · exact Stages.Sound.run
        { source := source.agrees hsource
          default := agrees_of_tree? default hdefault
          steady := fun v hv => (hvalidator v hv).1
          brief := fun hone v hv => (hvalidator v hv).2 hone
          conditional := agrees_of_conditional? conditional hconditional }
termination_by structural s

/-- A source agrees with itself when it stops early. -/
theorem Source.agrees (s : Source) (h : ∀ p ∈ s.parts, p.Sound one) :
    Resolver.Agrees one s.resolver := by
  match s with
  | .subject => exact Resolver.subject_agrees
  | .literal v => exact Resolver.ofValue_agrees v
  | .tree t => exact t.agrees h
  | .reference r => exact Resolver.ofReference_agrees r
  | .expression x => exact Resolver.ofExpression_agrees x
termination_by structural s

/-- A tree does so if its terminals do, since a pass has a value wherever it ends. -/
theorem ValueTree.agrees (t : ValueTree) (h : ∀ p ∈ t.parts, p.Sound one) :
    Resolver.Agrees one t.resolver := by
  match t with
  | ⟨skeleton, root, sites, order, rootedOrder⟩ =>
    obtain ⟨⟨n, hn⟩, hsites⟩ := List.forall_mem_cons.1 h
    exact ValueTree.resolver_agrees (ValueTree.compiledFrom_of_compile hn)
      (agrees_of_sites sites hsites)
termination_by structural t

/-- Each terminal of a tree stops early on its own. -/
theorem agrees_of_sites (sites : List Site) (h : ∀ p ∈ partsOfSites sites, p.Sound one) :
    ∀ e ∈ resolversOfSites sites, Resolver.Agrees one e.2 := by
  match sites with
  | [] =>
    intro e he
    exact absurd he List.not_mem_nil
  | ⟨path, terminal⟩ :: rest =>
    obtain ⟨hfirst, hrest⟩ := List.forall_mem_append.1 h
    exact List.forall_mem_cons.2 ⟨terminal.agrees hfirst, agrees_of_sites rest hrest⟩
termination_by structural sites

theorem agrees_of_tree? (t : Option ValueTree) (h : ∀ p ∈ partsOfTree? t, p.Sound one) :
    ∀ r, resolverOfTree? t = some r → Resolver.Agrees one r := by
  match t with
  | none =>
    intro r hr
    exact absurd hr (by simp)
  | some t =>
    intro r hr
    obtain rfl := Option.some.inj hr
    exact t.agrees h
termination_by structural t

theorem agrees_of_conditional? (c : Option Conditional)
    (h : ∀ p ∈ partsOfConditional? c, p.Sound one) :
    ∀ apply, mappingOf? c = some apply → ∀ value, Resolver.Agrees one (apply value) := by
  match c with
  | none =>
    intro apply happly
    exact absurd happly (by simp)
  | some c =>
    intro apply happly
    obtain rfl := Option.some.inj happly
    exact c.agrees h
termination_by structural c

/-- A conditional that stops early selects the same case, or fails at the same one. -/
theorem Conditional.agrees (c : Conditional) (h : ∀ p ∈ c.parts, p.Sound one)
    (value : Option Value) : Resolver.Agrees one (c.mapping value) := by
  match c with
  | ⟨subject, branches, otherwise⟩ =>
    obtain ⟨hbranches, hotherwise⟩ := List.forall_mem_append.1 h
    exact Choice.select_agrees (agrees_of_tree? otherwise hotherwise)
      (agrees_of_branches branches hbranches) value _
termination_by structural c

theorem agrees_of_branches (branches : List Branch)
    (h : ∀ p ∈ partsOfBranches branches, p.Sound one) : ∀ c ∈ choicesOf branches, c.Agrees one := by
  match branches with
  | [] =>
    intro c hc
    exact absurd hc List.not_mem_nil
  | ⟨pattern, outcome⟩ :: rest =>
    obtain ⟨h, hrest⟩ := List.forall_mem_append.1 h
    obtain ⟨hpattern, houtcome⟩ := List.forall_mem_append.1 h
    exact List.forall_mem_cons.2
      ⟨⟨pattern.agrees hpattern, agrees_of_tree? outcome houtcome⟩, agrees_of_branches rest hrest⟩
termination_by structural branches

/-- A pattern comes to the same verdict, or fails with the first of its errors. -/
theorem Pattern.agrees (p : Pattern) (h : ∀ part ∈ p.parts, part.Sound one) :
    Verdict.Agrees one p.verdict := by
  match p with
  | .equals t => exact Choice.equals_agrees (t.agrees h)
  | .schema s => exact Choice.passes_agrees (s.agrees h)
termination_by structural p

end

namespace Schema

/-- Stopping at the first failure gives the first of the errors that collecting them gives, and the
same resolution if there are none. With validators that refuse for one reason at a time it gives the
first error alone, and that is what `attempt` refuses with. -/
theorem resolve_abortEarly {s : Schema} (hs : s.Built)
    (hv : ∀ v, .validator v ∈ s.parts → Validator.Steady v) {input : Value} {convert : Bool}
    {full : Resolution} (h : s.resolve input { abortEarly := false, convert } = .ok full) :
    ∃ early, s.resolve input { abortEarly := true, convert } = .ok early ∧
      early.errors <+: full.errors ∧ (early.errors = [] ↔ full.errors = []) ∧
      (full.errors = [] → early = full) ∧
      ((∀ v, .validator v ∈ s.parts → Validator.Brief v) → early.errors.length ≤ 1 ∧
        (convert = true → s.attempt input =
          match full.errors with
          | [] => .ok full.value
          | e :: _ => .error (.validation [e]))) := by
  have hsound : ∀ p ∈ s.parts,
      p.Sound (∀ v, .validator v ∈ s.parts → Validator.Brief v) := by
    intro p hp
    cases p with
    | validator v => exact ⟨hv v hp, fun hone => hone v hp⟩
    | tree t => exact hs.compiled t hp
  obtain ⟨early, hearly, hcuts⟩ := s.agrees hsound (Scope.ofInput input { convert }) full h
  refine ⟨early, hearly, hcuts.start, hcuts.errors_eq_nil_iff,
    fun hnil => hcuts.clean (hcuts.errors_eq_nil_iff.2 hnil), fun hone => ⟨hcuts.single hone, ?_⟩⟩
  rintro rfl
  have hattempt : s.attempt input = early.toExcept.mapError .validation := by
    unfold attempt
    rw [show s.resolve input { abortEarly := true } = .ok early from hearly]
    rfl
  have hfirst := hcuts.errors_eq_take hone
  rw [hattempt, Resolution.toExcept, Resolution.isOk]
  cases hfull : full.errors with
  | nil =>
    obtain rfl := hcuts.clean (hcuts.errors_eq_nil_iff.2 hfull)
    simp [hfull, Except.mapError]
  | cons e rest =>
    have hone : early.errors = [e] := by simpa [hfull] using hfirst
    simp [hone, Except.mapError]

/-! ### A tree with two failures -/

/-- A number at `x` of the input. -/
def numberAtX : Schema :=
  { source := .reference ⟨.root, [.field "x"]⟩, default := none
    validator := some Constraint.number.validator, required := false, conditional := none
    strip := false }

/-- Something at `y` of the input. -/
def presentAtY : Schema :=
  { source := .reference ⟨.root, [.field "y"]⟩, default := none, validator := none
    required := true, conditional := none, strip := false }

theorem numberAtX_built : numberAtX.Built := by
  have hbuild : SchemaSpec.build { source := .reference ⟨.root, [.field "x"]⟩
                                   validator := some Constraint.number.validator } =
      .ok numberAtX := rfl
  exact .of_build hbuild fun _ h => absurd h List.not_mem_nil

theorem presentAtY_built : presentAtY.Built := by
  have hbuild : SchemaSpec.build { source := .reference ⟨.root, [.field "y"]⟩, required := true } =
      .ok presentAtY := rfl
  exact .of_build hbuild fun _ h => absurd h List.not_mem_nil

/-- Both in one tree. -/
def pair : Node := .map [("a", .schema numberAtX), ("b", .schema presentAtY)]

/-- The schema of that tree. -/
def pairSchema : Schema :=
  { source := .tree (ValueTree.ofOrder pair [[.field "a"], [.field "b"]]), default := none
    validator := none, required := false, conditional := none, strip := false }

theorem pairSchema_built : pairSchema.Built := by
  have hcompile : ValueTree.compile pair =
      .ok (ValueTree.ofOrder pair [[.field "a"], [.field "b"]]) :=
    ValueTree.compile_of_order (by decide +kernel)
  have hbuild : SchemaSpec.build { source := .tree pair } = .ok pairSchema := by
    rw [SchemaSpec.build, SourceSpec.compile, hcompile]
    rfl
  refine .of_build hbuild fun inner h => ?_
  have hschemas : inner ∈ [numberAtX, presentAtY] := h
  simp only [List.mem_cons, List.not_mem_nil, or_false] at hschemas
  rcases hschemas with rfl | rfl
  · exact numberAtX_built
  · exact presentAtY_built

/-- An input in which `x` is no number and `y` is missing. -/
def unfit : Value := .object [("x", .string "no")]

/-- The one validator in the schema is the constraint. -/
theorem validator_of_mem_pairSchema {v : Validator} (h : .validator v ∈ pairSchema.parts) :
    v = Constraint.number.validator := by
  have hparts : .validator v ∈ [Part.tree (ValueTree.ofOrder pair [[.field "a"], [.field "b"]]),
      .validator Constraint.number.validator] := h
  simpa using hparts

/-- Both terminals fail, and the call that stops early reports the first one only. -/
theorem resolve_abortEarly_pair : ∃ full, pairSchema.Built ∧
    (∀ v, .validator v ∈ pairSchema.parts → Validator.Steady v) ∧
    (∀ v, .validator v ∈ pairSchema.parts → Validator.Brief v) ∧
    pairSchema.resolve unfit { abortEarly := false, convert := true } = .ok full ∧
    full.errors.map ValidationError.text =
      ["'a': must be a number [number.base]", "'b': is required [any.required]"] ∧
    pairSchema.attempt unfit = .error (.validation (full.errors.take 1)) := by
  have hrun : ((pairSchema.resolve unfit { abortEarly := false, convert := true }).toOption.map
      fun full => full.errors.map ValidationError.text) =
      some ["'a': must be a number [number.base]", "'b': is required [any.required]"] := by
    decide +kernel
  obtain ⟨full, hfull, htexts⟩ := Option.map_eq_some_iff.1 hrun
  have hfull := eq_ok_of_toOption hfull
  have hsteady : ∀ v, .validator v ∈ pairSchema.parts → Validator.Steady v := fun v hv =>
    validator_of_mem_pairSchema hv ▸ Constraint.steady .number
  have hbrief : ∀ v, .validator v ∈ pairSchema.parts → Validator.Brief v := fun v hv =>
    validator_of_mem_pairSchema hv ▸ Constraint.brief .number
  obtain ⟨early, -, -, -, -, hone⟩ := resolve_abortEarly pairSchema_built hsteady hfull
  refine ⟨full, pairSchema_built, hsteady, hbrief, hfull, htexts, ?_⟩
  rw [(hone hbrief).2 rfl]
  cases herrors : full.errors with
  | nil => simp [herrors] at htexts
  | cons e rest => rfl

end Schema

end ValueResolution
