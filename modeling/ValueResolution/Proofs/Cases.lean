import ValueResolution.Proofs.Trace
/-!
# The cases of a conditional

A conditional goes through its cases in order. A case accepts the discriminator or rejects it, or
it cannot be decided (`Pattern.Accepts`, `Pattern.Rejects`, `Pattern.Fails`). The two kinds of
pattern treat errors in opposite ways: a schema with errors rejects, a comparison with errors fails.

What a conditional selects is the outcome of the first case that accepts, or what holds otherwise if
every case rejects (`Conditional.Picks`). The value comes out of a conditional as that outcome has
it; unchanged it comes out only of a case that failed in front of all that accept, with the errors
of that case (`Conditional.mapping_eq_ok_iff`).

A schema without errors has reached its conditional (`Stages.exists_reaches`), so its value is the
selected one or was stripped (`Schema.resolver_firstCase`).
-/

set_option autoImplicit false

namespace ValueResolution

/-! ## Patterns -/

namespace Pattern

/-- The pattern is for the value: its tree resolves to an equal one, or its schema finds no
fault. -/
inductive Accepts (value : Option Value) (scope : Scope) : Pattern → Prop where
  | equals {t : ValueTree} {r : Resolution} (h : t.resolver scope = .ok r) (hok : r.errors = [])
      (hsame : Value.sameOption r.value value = true) : Accepts value scope (.equals t)
  | schema {s : Schema} {r : Resolution} (h : s.resolver (scope.nest Choice.label value) = .ok r)
      (hok : r.errors = []) : Accepts value scope (.schema s)

/-- The pattern is not for the value: its tree resolves to another one, or its schema finds a
fault. -/
inductive Rejects (value : Option Value) (scope : Scope) : Pattern → Prop where
  | equals {t : ValueTree} {r : Resolution} (h : t.resolver scope = .ok r) (hok : r.errors = [])
      (hsame : Value.sameOption r.value value = false) : Rejects value scope (.equals t)
  | schema {s : Schema} {r : Resolution} (h : s.resolver (scope.nest Choice.label value) = .ok r)
      (herrors : r.errors ≠ []) : Rejects value scope (.schema s)

/-- The pattern has nothing to compare with, since its tree has errors. -/
inductive Fails (scope : Scope) : Pattern → List ValidationError → Prop where
  | equals {t : ValueTree} {r : Resolution} (h : t.resolver scope = .ok r)
      (herrors : r.errors ≠ []) : Fails scope (.equals t) r.errors

variable {p : Pattern} {value : Option Value} {scope : Scope}

theorem verdict_equals {t : ValueTree} {r : Resolution} (h : t.resolver scope = .ok r) :
    (Pattern.equals t).verdict value scope = .ok
      (if r.errors = [] then
        if Value.sameOption r.value value then .matched else .missed
      else .failed r.errors) := by
  change Choice.equals t.resolver value scope = _
  simp only [Choice.equals, h, bind, Except.bind, pure, Except.pure]
  by_cases hok : r.errors = []
  · cases hsame : Value.sameOption r.value value <;> simp [Resolution.isOk, hok]
  · simp [Resolution.isOk, hok]

theorem verdict_schema {s : Schema} {r : Resolution}
    (h : s.resolver (scope.nest Choice.label value) = .ok r) :
    (Pattern.schema s).verdict value scope = .ok (if r.errors = [] then .matched else .missed) := by
  change Choice.passes s.resolver value scope = _
  simp only [Choice.passes, h, bind, Except.bind, pure, Except.pure]
  by_cases hok : r.errors = [] <;> simp [Resolution.isOk, hok]

theorem Accepts.verdict_eq (h : p.Accepts value scope) : p.verdict value scope = .ok .matched := by
  cases h with
  | equals h hok hsame => rw [verdict_equals h, if_pos hok, if_pos hsame]
  | schema h hok => rw [verdict_schema h, if_pos hok]

theorem Rejects.verdict_eq (h : p.Rejects value scope) : p.verdict value scope = .ok .missed := by
  cases h with
  | equals h hok hsame => rw [verdict_equals h, if_pos hok, if_neg (by simp [hsame])]
  | schema h herrors => rw [verdict_schema h, if_neg herrors]

theorem Fails.verdict_eq {errors : List ValidationError} (h : p.Fails scope errors) :
    p.verdict value scope = .ok (.failed errors) := by
  cases h with
  | equals h herrors => rw [verdict_equals h, if_neg herrors]

theorem Fails.ne_nil {errors : List ValidationError} (h : p.Fails scope errors) : errors ≠ [] := by
  cases h with
  | equals h herrors => exact herrors

/-- A pattern whose parts resolve accepts, rejects or fails. -/
theorem decided_of_verdict {v : Verdict} (h : p.verdict value scope = .ok v) :
    p.Accepts value scope ∨ p.Rejects value scope ∨ ∃ errors, p.Fails scope errors := by
  cases p with
  | equals t =>
    obtain ⟨r, hr, -⟩ := bind_eq_ok_iff.1 h
    by_cases hok : r.errors = []
    · cases hsame : Value.sameOption r.value value with
      | true => exact .inl (.equals hr hok hsame)
      | false => exact .inr (.inl (.equals hr hok hsame))
    · exact .inr (.inr ⟨r.errors, .equals hr hok⟩)
  | schema s =>
    obtain ⟨r, hr, -⟩ := bind_eq_ok_iff.1 h
    by_cases hok : r.errors = []
    · exact .inl (.schema hr hok)
    · exact .inr (.inl (.schema hr hok))

end Pattern

/-! ## Conditionals -/

namespace Conditional

/-- What the conditional selects for a discriminator: the outcome of the first case that accepts it,
or what holds otherwise if every case rejects it. -/
inductive Picks (c : Conditional) (discriminator : Option Value) (scope : Scope) :
    Option ValueTree → Prop where
  | case {before behind : List Branch} {b : Branch} (hc : c.branches = before ++ b :: behind)
      (hbefore : ∀ a ∈ before, a.pattern.Rejects discriminator scope)
      (hb : b.pattern.Accepts discriminator scope) : Picks c discriminator scope b.outcome
  | otherwise (h : ∀ b ∈ c.branches, b.pattern.Rejects discriminator scope) :
      Picks c discriminator scope c.otherwise

/-- A case fails with these errors, and every case in front of it rejects. -/
def Undecided (c : Conditional) (discriminator : Option Value) (scope : Scope)
    (errors : List ValidationError) : Prop :=
  ∃ before b behind, c.branches = before ++ b :: behind ∧
    (∀ a ∈ before, a.pattern.Rejects discriminator scope) ∧ b.pattern.Fails scope errors

section Select

variable {before rest : List Branch} {b : Branch} {otherwise : Option Resolver}
variable {value discriminator : Option Value} {scope : Scope}

/-- The case in front decides whether its outcome counts or the cases behind it. -/
theorem select_cons (b : Branch) (rest : List Branch) :
    Choice.select otherwise value discriminator scope (choicesOf (b :: rest)) =
      (b.pattern.verdict discriminator scope >>= fun v => match v with
        | .matched => Resolver.orUndefined (resolverOfTree? b.outcome) scope
        | .missed => Choice.select otherwise value discriminator scope (choicesOf rest)
        | .failed errors => .ok ⟨value, errors⟩) := by
  obtain ⟨pattern, outcome⟩ := b
  rfl

theorem select_accepting (hb : b.pattern.Accepts discriminator scope) :
    Choice.select otherwise value discriminator scope (choicesOf (b :: rest)) =
      Resolver.orUndefined (resolverOfTree? b.outcome) scope := by
  rw [select_cons, hb.verdict_eq]
  rfl

theorem select_failing {errors : List ValidationError} (hb : b.pattern.Fails scope errors) :
    Choice.select otherwise value discriminator scope (choicesOf (b :: rest)) =
      .ok ⟨value, errors⟩ := by
  rw [select_cons, hb.verdict_eq]
  rfl

/-- Cases that reject are passed by one after the other. -/
theorem select_rejecting (hbefore : ∀ a ∈ before, a.pattern.Rejects discriminator scope) :
    Choice.select otherwise value discriminator scope (choicesOf (before ++ rest)) =
      Choice.select otherwise value discriminator scope (choicesOf rest) := by
  induction before with
  | nil => rfl
  | cons a before ih =>
    obtain ⟨ha, hbefore⟩ := List.forall_mem_cons.1 hbefore
    rw [List.cons_append, select_cons, ha.verdict_eq]
    exact ih hbefore

/-- Cases in front reject up to the first that does not, if there is one. -/
theorem all_reject_or_exists_first (branches : List Branch) (discriminator : Option Value)
    (scope : Scope) : (∀ b ∈ branches, b.pattern.Rejects discriminator scope) ∨
      ∃ before b behind, branches = before ++ b :: behind ∧
        (∀ a ∈ before, a.pattern.Rejects discriminator scope) ∧
        ¬ b.pattern.Rejects discriminator scope := by
  induction branches with
  | nil => exact .inl fun _ hb => nomatch hb
  | cons a rest ih =>
    by_cases ha : a.pattern.Rejects discriminator scope
    · rcases ih with hrest | ⟨before, b, behind, rfl, hbefore, hb⟩
      · exact .inl (List.forall_mem_cons.2 ⟨ha, hrest⟩)
      · exact .inr ⟨a :: before, b, behind, rfl, List.forall_mem_cons.2 ⟨ha, hbefore⟩, hb⟩
    · exact .inr ⟨[], a, rest, rfl, fun _ h => (nomatch h), ha⟩

end Select

variable {c : Conditional} {value : Option Value} {scope : Scope} {r : Resolution}

theorem mapping_eq_select (c : Conditional) (value : Option Value) (scope : Scope) :
    c.mapping value scope = Choice.select (resolverOfTree? c.otherwise) value
      (Choice.discriminator c.subject value) scope (choicesOf c.branches) := by
  obtain ⟨subject, branches, otherwise⟩ := c
  rfl

theorem Picks.mapping_eq {choice : Option ValueTree}
    (h : c.Picks (Choice.discriminator c.subject value) scope choice) :
    c.mapping value scope = Resolver.orUndefined (resolverOfTree? choice) scope := by
  rw [mapping_eq_select]
  cases h with
  | case hc hbefore hb => rw [hc, select_rejecting hbefore, select_accepting hb]
  | otherwise h =>
    rw [← c.branches.append_nil, select_rejecting h]
    rfl

theorem Undecided.mapping_eq {errors : List ValidationError}
    (h : c.Undecided (Choice.discriminator c.subject value) scope errors) :
    c.mapping value scope = .ok ⟨value, errors⟩ := by
  obtain ⟨before, b, behind, hc, hbefore, hb⟩ := h
  rw [mapping_eq_select, hc, select_rejecting hbefore, select_failing hb]

/-- A conditional gives the resolution of what it selects, or the value as it was with the errors of
the case that kept it from selecting. -/
theorem mapping_eq_ok_iff : c.mapping value scope = .ok r ↔
    (∃ choice, c.Picks (Choice.discriminator c.subject value) scope choice ∧
      Resolver.orUndefined (resolverOfTree? choice) scope = .ok r) ∨
    ∃ errors, c.Undecided (Choice.discriminator c.subject value) scope errors ∧
      r = ⟨value, errors⟩ := by
  constructor
  · intro h
    rcases all_reject_or_exists_first c.branches (Choice.discriminator c.subject value) scope with
      hall | ⟨before, b, behind, hc, hbefore, hb⟩
    · have hpicks := Picks.otherwise hall
      exact .inl ⟨c.otherwise, hpicks, hpicks.mapping_eq ▸ h⟩
    · have hselect := h
      rw [mapping_eq_select, hc, select_rejecting hbefore, select_cons] at hselect
      obtain ⟨v, hv, -⟩ := bind_eq_ok_iff.1 hselect
      rcases Pattern.decided_of_verdict hv with haccepts | hrejects | ⟨errors, hfails⟩
      · have hpicks := Picks.case hc hbefore haccepts
        exact .inl ⟨b.outcome, hpicks, hpicks.mapping_eq ▸ h⟩
      · exact absurd hrejects hb
      · have hundecided : c.Undecided _ scope errors := ⟨before, b, behind, hc, hbefore, hfails⟩
        exact .inr ⟨errors, hundecided, (Except.ok.inj (hundecided.mapping_eq ▸ h)).symm⟩
  · rintro (⟨choice, hpicks, h⟩ | ⟨errors, hundecided, rfl⟩)
    · rw [hpicks.mapping_eq, h]
    · exact hundecided.mapping_eq

end Conditional

/-! ## The stages in front of a conditional -/

namespace Stages

/-- The value goes through the stages in front of the conditional: the source and the default do not
end the call, the validator lets it through, and it is there if it has to be. -/
inductive Reaches (s : Stages (Except Error)) (scope : Scope) (value : Option Value) : Prop where
  | intro {produced filled : Resolution} (hproduced : s.source scope = .ok produced)
      (hsource : produced.stops scope = false) (hfilled : s.fill produced scope = .ok filled)
      (hdefault : filled.stops scope = false) (hchecked : s.check filled.value scope = ⟨value, []⟩)
      (hpresent : s.required = true → value ≠ none)

variable {s : Stages (Except Error)} {scope : Scope} {value : Option Value} {r : Resolution}

/-- From a value that has reached the conditional the stages go on with what it makes of it. -/
theorem Reaches.run_eq (h : s.Reaches scope value) (hr : s.run scope = .ok r) :
    ∃ mapped errors, s.remap value scope = .ok mapped ∧
      r = ⟨if s.strip then none else mapped.value, errors ++ mapped.errors⟩ := by
  obtain ⟨hproduced, hsource, hfilled, hdefault, hchecked, hpresent⟩ := h
  have hmissing : (s.required && value.isNone) = false := by
    cases hs : s.required with
    | false => rfl
    | true => simpa [Option.isNone_eq_false_iff, Option.isSome_iff_ne_none] using hpresent hs
  simp only [run, hproduced, hsource, hfilled, hdefault, finish_eq, hchecked, hmissing,
    Resolution.isOk, bind, Except.bind, pure, Except.pure, List.isEmpty_nil, List.append_nil,
    Bool.not_true, Bool.false_eq_true, if_false] at hr
  obtain ⟨mapped, hmapped, hr⟩ := bind_eq_ok_iff.1 hr
  exact ⟨mapped, _, hmapped, (Except.ok.inj hr).symm⟩

/-- Stages that end without errors have reached the conditional: each of the ways to end in front of
it has an error to report. -/
theorem exists_reaches (hr : s.run scope = .ok r) (hok : r.errors = []) :
    ∃ value, s.Reaches scope value := by
  have hgoes : r.stops scope = false := by simp [Resolution.stops, Resolution.isOk, hok]
  obtain ⟨produced, hproduced, hr⟩ := bind_eq_ok_iff.1 hr
  split at hr
  · rename_i hstops
    obtain rfl := Except.ok.inj hr
    exact absurd hstops (by simp [hgoes])
  rename_i hsource
  obtain ⟨filled, hfilled, hr⟩ := bind_eq_ok_iff.1 hr
  split at hr
  · rename_i hstops
    obtain rfl := Except.ok.inj hr
    exact absurd hstops (by simp [hgoes])
  rename_i hdefault
  rw [finish_eq] at hr
  split at hr
  · rename_i hrefused
    obtain rfl := Except.ok.inj hr
    have hnil : (s.check filled.value scope).errors = [] := (List.append_eq_nil_iff.1 hok).2
    simp [Resolution.isOk, hnil] at hrefused
  rename_i hallowed
  split at hr
  · obtain rfl := Except.ok.inj hr
    simp at hok
  rename_i hpresent
  refine ⟨(s.check filled.value scope).value, .intro hproduced (by simpa using hsource) hfilled
    (by simpa using hdefault) ?_ fun hrequired hnone => hpresent (by simp [hrequired, hnone])⟩
  have hnil : (s.check filled.value scope).errors = [] := by
    simpa [Resolution.isOk] using hallowed
  rw [← hnil]

end Stages

namespace Schema

/-- The stages of a schema whose source goes through them. -/
def stages (s : Schema) : Stages (Except Error) where
  source := s.source.resolver
  default := resolverOfTree? s.default
  validator := s.validator
  required := s.required
  conditional := mappingOf? s.conditional
  strip := s.strip

/-- The value reaches the conditional of the schema. -/
def Reaches (s : Schema) (scope : Scope) (value : Option Value) : Prop :=
  s.source.literal? = none ∧ s.stages.Reaches scope value

theorem resolver_eq_run {s : Schema} (h : s.source.literal? = none) :
    s.resolver = s.stages.run := by
  obtain ⟨source, default, validator, required, conditional, strip⟩ := s
  rw [resolver_eq, h]
  rfl

/-- Conditionals go through their cases in order and give nothing away. A schema that resolves
without errors has reached its conditional unless its source is a literal, and then its value is
undefined if it is stripped, and else that of the outcome that the conditional selects: of the first
case that accepts the discriminator, or of what holds otherwise if every case rejects it; without
an outcome it is undefined. Cases behind the one that accepts make no difference to what the
conditional gives. And what it gives is the resolution of what it selects, unless a comparison
failed in front of every case that accepts: only then it is the value as it was, with the errors of
that comparison. -/
theorem resolver_firstCase (c : Conditional) :
    (∀ (s : Schema) scope r, s.conditional = some c → s.resolver scope = .ok r → r.errors = [] →
      (s.source.literal? = none → ∃ value, s.Reaches scope value) ∧
      ∀ value, s.Reaches scope value → ∃ choice mapped,
        c.Picks (Choice.discriminator c.subject value) scope choice ∧
        Resolver.orUndefined (resolverOfTree? choice) scope = .ok mapped ∧ mapped.errors = [] ∧
        r.value = if s.strip then none else mapped.value) ∧
    (∀ value scope before b behind others, c.branches = before ++ b :: behind →
      (∀ a ∈ before, a.pattern.Rejects (Choice.discriminator c.subject value) scope) →
      b.pattern.Accepts (Choice.discriminator c.subject value) scope →
      { c with branches := before ++ b :: others }.mapping value scope = c.mapping value scope) ∧
    ∀ value scope r, c.mapping value scope = .ok r →
      (∃ choice, c.Picks (Choice.discriminator c.subject value) scope choice ∧
        Resolver.orUndefined (resolverOfTree? choice) scope = .ok r) ∨
      ∃ before t outcome behind failed, c.branches = before ++ ⟨.equals t, outcome⟩ :: behind ∧
        (∀ a ∈ before, a.pattern.Rejects (Choice.discriminator c.subject value) scope) ∧
        t.resolver scope = .ok failed ∧ failed.errors ≠ [] ∧ r = ⟨value, failed.errors⟩ := by
  refine ⟨fun s scope r hc hr hok => ?_, fun value scope before b behind others hc hbefore hb => ?_,
    fun value scope r hr => ?_⟩
  · constructor
    · intro hsource
      obtain ⟨value, h⟩ := Stages.exists_reaches (resolver_eq_run hsource ▸ hr) hok
      exact ⟨value, hsource, h⟩
    · rintro value ⟨hsource, h⟩
      obtain ⟨mapped, errors, hmapped, rfl⟩ := h.run_eq (resolver_eq_run hsource ▸ hr)
      have hquiet : mapped.errors = [] := (List.append_eq_nil_iff.1 hok).2
      have hmapping : c.mapping value scope = .ok mapped := by
        simpa [Stages.remap, stages, hc] using hmapped
      rcases Conditional.mapping_eq_ok_iff.1 hmapping with
        ⟨choice, hpicks, hchoice⟩ | ⟨failures, ⟨_, _, _, _, _, hfails⟩, rfl⟩
      · exact ⟨choice, mapped, hpicks, hchoice, hquiet, rfl⟩
      · exact absurd hquiet hfails.ne_nil
  · have hpicks := Conditional.Picks.case hc hbefore hb
    have hothers : Conditional.Picks { c with branches := before ++ b :: others }
        (Choice.discriminator c.subject value) scope b.outcome := .case rfl hbefore hb
    exact hothers.mapping_eq.trans hpicks.mapping_eq.symm
  · refine (Conditional.mapping_eq_ok_iff.1 hr).imp_right ?_
    rintro ⟨errors, ⟨before, ⟨pattern, outcome⟩, behind, hc, hbefore, hfails⟩, rfl⟩
    obtain ⟨h, herrors⟩ := hfails
    exact ⟨before, _, outcome, behind, _, hc, hbefore, h, herrors, rfl⟩

/-- A schema for numbers. -/
def numeric : Schema where
  source := .subject
  default := none
  validator := some Constraint.number.validator
  required := false
  conditional := none
  strip := false

end Schema

/-- The directory for a kind of store: none for a number, one for a disk; a reference that leads
nowhere stands behind. -/
def Conditional.byKind : Conditional where
  subject := some [.field "kind"]
  branches :=
    [⟨.schema .numeric, none⟩,
      ⟨.equals (.ofOrder (.literal (.string "disk")) []),
        some (.ofOrder (.literal (.string "/var/data")) [])⟩,
      ⟨.equals (.ofOrder (.reference (.sibling "kind")) [[]]), none⟩]
  otherwise := some (.ofOrder (.literal (.string "memory")) [])

namespace Schema

/-- A store that is replaced by its directory. -/
def located : Schema where
  source := .subject
  default := none
  validator := none
  required := true
  conditional := some .byKind
  strip := false

/-- A store of the given kind. -/
def storeOf (kind : String) : Value := .object [("kind", .string kind)]

/-- The schema of the first case finds a fault in the text, which makes it a miss; for a disk the
second case is the first to accept, and for a tape the reference fails before anything accepts. -/
theorem resolver_firstCase_byKind :
    (∃ r value choice mapped, located.resolver (Scope.ofInput (storeOf "disk") {}) = .ok r ∧
      r.errors = [] ∧ located.Reaches (Scope.ofInput (storeOf "disk") {}) value ∧
      Conditional.byKind.Picks (Choice.discriminator (some [.field "kind"]) value)
        (Scope.ofInput (storeOf "disk") {}) choice ∧
      Resolver.orUndefined (resolverOfTree? choice) (Scope.ofInput (storeOf "disk") {}) =
        .ok mapped ∧ r.value = mapped.value ∧ r.value = some (.string "/var/data")) ∧
    (∀ others, Conditional.mapping
        { Conditional.byKind with branches := Conditional.byKind.branches.take 2 ++ others }
        (some (storeOf "disk")) (Scope.ofInput (storeOf "disk") {}) =
      Conditional.byKind.mapping (some (storeOf "disk")) (Scope.ofInput (storeOf "disk") {})) ∧
    ∃ before t outcome behind failed,
      Conditional.byKind.branches = before ++ ⟨.equals t, outcome⟩ :: behind ∧
      t.resolver (Scope.ofInput (storeOf "tape") {}) = .ok failed ∧ failed.errors ≠ [] ∧
      Conditional.byKind.mapping (some (storeOf "tape")) (Scope.ofInput (storeOf "tape") {}) =
        .ok ⟨some (storeOf "tape"), failed.errors⟩ := by
  obtain ⟨hfirst, hbehind, hback⟩ := resolver_firstCase Conditional.byKind
  refine ⟨?_, fun others => ?_, ?_⟩
  · have hr : located.resolver (Scope.ofInput (storeOf "disk") {}) =
        .ok ⟨some (.string "/var/data"), []⟩ := by with_unfolding_all rfl
    obtain ⟨hreaches, hpicks⟩ := hfirst located _ _ rfl hr rfl
    obtain ⟨value, hvalue⟩ := hreaches rfl
    obtain ⟨choice, mapped, hchoice, hmapped, -, heq⟩ := hpicks value hvalue
    exact ⟨_, value, choice, mapped, hr, rfl, hvalue, hchoice, hmapped, heq, rfl⟩
  · refine hbehind _ _ [_] _ _ others rfl (fun a ha => ?_) ?_
    · obtain rfl := List.mem_singleton.1 ha
      exact .schema (r := Constraint.number.refuse (.string "disk")) rfl
        (List.cons_ne_nil _ _)
    · exact .equals (r := .ofValue (.string "disk")) (ValueTree.resolver_literal _ _) rfl rfl
  · obtain ⟨errors, hr, herrors⟩ : ∃ errors, Conditional.byKind.mapping (some (storeOf "tape"))
        (Scope.ofInput (storeOf "tape") {}) = .ok ⟨some (storeOf "tape"), errors⟩ ∧ errors ≠ [] :=
      ⟨_, by with_unfolding_all rfl, List.cons_ne_nil _ _⟩
    rcases hback _ _ _ hr with ⟨choice, hpicks, hchoice⟩ | ⟨before, t, outcome, behind, failed, hc,
      -, hfailed, hne, heq⟩
    · -- what could have been selected has no errors
      have hmem : choice ∈ Conditional.byKind.otherwise ::
          Conditional.byKind.branches.map Branch.outcome := by
        cases hpicks with
        | case hc hbefore hb =>
          exact List.mem_cons_of_mem _ (List.mem_map_of_mem (hc ▸ List.mem_append_right _
            List.mem_cons_self))
        | otherwise h => exact List.mem_cons_self
      have hquiet : ∀ o ∈ Conditional.byKind.otherwise ::
          Conditional.byKind.branches.map Branch.outcome, ∃ v, Resolver.orUndefined
            (resolverOfTree? o) (Scope.ofInput (storeOf "tape") {}) = .ok ⟨v, []⟩ := by
        simp only [Conditional.byKind, List.map_cons, List.map_nil, List.forall_mem_cons]
        exact ⟨⟨_, ValueTree.resolver_literal _ _⟩, ⟨_, rfl⟩, ⟨_, ValueTree.resolver_literal _ _⟩,
          ⟨_, rfl⟩, List.forall_mem_nil _⟩
      obtain ⟨v, hv⟩ := hquiet choice hmem
      cases hchoice.symm.trans hv
      exact absurd rfl herrors
    · exact ⟨before, t, outcome, behind, failed, hc, hfailed, hne, heq ▸ hr⟩

end Schema

end ValueResolution
