import ValueResolution.Proofs.Trace
/-!
# Stopping early: stages

The same resolution with and without the preference to stop at the first failure. `Resolution.Cuts`
says how the early one stands to the full one: its errors are the first ones of the full one, and
if it has none the two are equal. `Resolver.Agrees` says that a resolver, whenever it collects all
errors with success, stops early in this way.

Look-ups agree since they do not see the preference. A conditional agrees when its cases do
(`Choice.select_agrees`): a case that a schema decides is missed in both, whatever number of errors
the schema has. The stages of a schema agree when source, default and conditional do and the
validator does not look at the preference (`Stages.Sound.run`), as no check of a kind does
(`Constraint.steady`).
-/

set_option autoImplicit false

namespace ValueResolution

/-- The scope with the preference to stop early set to `b`. -/
def Scope.withAbort (s : Scope) (b : Bool) : Scope :=
  { s with prefs := { s.prefs with abortEarly := b } }

theorem Scope.withAbort_localize (s : Scope) (b : Bool) (path : Path) (frames : List Frame) :
    (s.withAbort b).localize path frames = (s.localize path frames).withAbort b := rfl

theorem Scope.withAbort_nest (s : Scope) (b : Bool) (label : String) (subject : Option Value) :
    (s.withAbort b).nest label subject = (s.nest label subject).withAbort b := rfl

/-- The validator does not look at the preference to stop early. -/
def Validator.Steady (v : Validator) : Prop :=
  ∀ value scope, v value (Scope.withAbort scope true) = v value (scope.withAbort false)

/-- The validator refuses for one reason at a time. -/
def Validator.Brief (v : Validator) : Prop := ∀ value scope, (v value scope).errors.length ≤ 1

/-- A constraint looks at the other preference only. -/
theorem Constraint.steady (c : Constraint) : Validator.Steady c.validator := fun _ _ => rfl

/-- A constraint has one reason to refuse. -/
theorem Constraint.brief (c : Constraint) : Validator.Brief c.validator := by
  intro value scope
  rw [Constraint.validator]
  cases value with
  | none => simp [Constraint.check, Resolution.undefined]
  | some v =>
    rw [Constraint.check]
    split <;> simp [Resolution.ofValue, Constraint.refuse]

/-! ## Early and full resolutions -/

/-- What a resolution that stops at its first failure has of the one that collects all errors. If
`one` holds it stops with a single error. -/
structure Resolution.Cuts (one : Prop) (early full : Resolution) : Prop where
  start : early.errors <+: full.errors
  clean : early.errors = [] → early = full
  single : one → early.errors.length ≤ 1

/-- The same for verdicts. -/
inductive Verdict.Cuts (one : Prop) : Verdict → Verdict → Prop where
  | matched : Cuts one .matched .matched
  | missed : Cuts one .missed .missed
  | failed {early full : List ValidationError} (hne : early ≠ []) (hstart : early <+: full)
      (hsingle : one → early.length ≤ 1) : Cuts one (.failed early) (.failed full)

/-- If the resolver collects all errors with success, it stops early with success. -/
def Resolver.Agrees (one : Prop) (r : Resolver) : Prop :=
  ∀ scope full, r (Scope.withAbort scope false) = .ok full →
    ∃ early, r (scope.withAbort true) = .ok early ∧ early.Cuts one full

/-- The same for what decides a case. -/
def Verdict.Agrees (one : Prop) (judge : Option Value → Scope → Except Error Verdict) : Prop :=
  ∀ value scope full, judge value (Scope.withAbort scope false) = .ok full →
    ∃ early, judge value (scope.withAbort true) = .ok early ∧ early.Cuts one full

/-- The same for a case and what it leads to. -/
structure Choice.Agrees (one : Prop) (c : Choice (Except Error)) : Prop where
  verdict : Verdict.Agrees one c.verdict
  outcome : ∀ r, c.outcome = some r → Resolver.Agrees one r

variable {one : Prop}

namespace Resolution.Cuts

variable {early full : Resolution}

/-- One error at most stops where it is. -/
theorem refl {r : Resolution} (h : r.errors.length ≤ 1) : r.Cuts one r :=
  ⟨List.prefix_refl _, fun _ => rfl, fun _ => h⟩

/-- There is an early failure if there is one at all. -/
theorem errors_eq_nil_iff (h : early.Cuts one full) : early.errors = [] ↔ full.errors = [] := by
  constructor
  · intro hnil
    rw [← h.clean hnil]
    exact hnil
  · intro hnil
    exact List.prefix_nil.1 (hnil ▸ h.start)

/-- The early resolution fails when the full one does. -/
theorem isOk_eq (h : early.Cuts one full) : early.isOk = full.isOk := by
  rw [Resolution.isOk, Resolution.isOk, Bool.eq_iff_iff, List.isEmpty_iff, List.isEmpty_iff]
  exact h.errors_eq_nil_iff

/-- A failure stays the early one whatever the full resolution goes on to. -/
theorem of_failed {later : Resolution} (h : early.Cuts one full) (hne : early.errors ≠ [])
    (hlater : full.errors <+: later.errors) : early.Cuts one later :=
  ⟨h.start.trans hlater, fun hnil => absurd hnil hne, h.single⟩

/-- A single error is the first one. -/
theorem errors_eq_take (h : early.Cuts one full) (hone : one) :
    early.errors = full.errors.take 1 := by
  have hlen := h.single hone
  have hiff := h.errors_eq_nil_iff
  obtain ⟨rest, hrest⟩ := h.start
  cases hearly : early.errors with
  | nil => rw [hiff.1 hearly, List.take_nil]
  | cons e more =>
    rw [hearly, List.length_cons] at hlen
    obtain rfl : more = [] := List.eq_nil_of_length_eq_zero (by omega)
    rw [← hrest, hearly]
    rfl

end Resolution.Cuts

theorem stops_withAbort_false (r : Resolution) (scope : Scope) :
    r.stops (scope.withAbort false) = false := by
  simp [Resolution.stops, Scope.withAbort]

theorem stops_withAbort_true (r : Resolution) (scope : Scope) :
    r.stops (scope.withAbort true) = !r.isOk := by
  simp [Resolution.stops, Scope.withAbort]

namespace Resolver

/-- A resolver that answers the same in both, and for one reason at a time, agrees. -/
theorem agrees_of_same {r : Resolver}
    (hsame : ∀ scope : Scope, r (scope.withAbort true) = r (scope.withAbort false))
    (hone : ∀ scope res, r scope = .ok res → res.errors.length ≤ 1) : Agrees one r := by
  intro scope full h
  exact ⟨full, (hsame scope).trans h, .refl (hone _ full h)⟩

theorem ofValue_agrees (v : Value) : Agrees one (ofValue v) := by
  refine agrees_of_same (fun _ => rfl) fun _ res h => ?_
  obtain rfl := Except.ok.inj h
  simp [Resolution.ofValue]

theorem subject_agrees : Agrees one subject := by
  refine agrees_of_same (fun _ => rfl) fun _ res h => ?_
  obtain rfl := Except.ok.inj h
  simp

/-- A look-up has one reason to fail. -/
theorem length_errors_ofLookup (found : Except ValidationError (Option Value)) :
    (Resolution.ofLookup found).errors.length ≤ 1 := by
  cases found <;> simp [Resolution.ofLookup, Resolution.failed]

/-- A reference is looked up alike, so there is nothing to stop. -/
theorem ofReference_agrees (r : Reference) : Agrees one (ofReference r) := by
  refine agrees_of_same (fun _ => rfl) fun _ res h => ?_
  obtain rfl := Except.ok.inj h
  exact length_errors_ofLookup _

theorem ofExpression_agrees (x : Expression) : Agrees one (ofExpression x) := by
  refine agrees_of_same (fun _ => rfl) fun _ res h => ?_
  obtain rfl := Except.ok.inj h
  exact length_errors_ofLookup _

theorem orUndefined_agrees {r : Option Resolver} (h : ∀ r', r = some r' → Agrees one r') :
    Agrees one (orUndefined r) := by
  cases r with
  | none =>
    refine agrees_of_same (fun _ => rfl) fun _ res h => ?_
    obtain rfl := Except.ok.inj h
    simp [Resolution.undefined]
  | some r => exact h r rfl

end Resolver

/-! ## Conditionals -/

namespace Choice

/-- A comparison fails early with the first of the errors of what it compares with. -/
theorem equals_agrees {r : Resolver} (h : Resolver.Agrees one r) :
    Verdict.Agrees one (equals r) := by
  intro value scope full hfull
  obtain ⟨expected, hr, hfull⟩ := bind_eq_ok_iff.1 hfull
  obtain ⟨early, hearly, hcuts⟩ := h scope expected hr
  have hrun : equals r value (scope.withAbort true) =
      if !early.isOk then .ok (.failed early.errors)
      else if Value.sameOption early.value value then .ok .matched else .ok .missed := by
    simp only [equals, hearly, bind, Except.bind, pure, Except.pure]
  cases hok : early.isOk with
  | true =>
    -- without errors both look at the same value
    obtain rfl := hcuts.clean (List.isEmpty_iff.1 hok)
    refine ⟨full, ?_, ?_⟩
    · rw [hrun]
      exact hfull
    · simp only [hok, Bool.not_true, Bool.false_eq_true, if_false] at hfull
      split at hfull
      · obtain rfl := Except.ok.inj hfull
        exact .matched
      · obtain rfl := Except.ok.inj hfull
        exact .missed
  | false =>
    have hfails : expected.isOk = false := hcuts.isOk_eq ▸ hok
    simp only [hfails, Bool.not_false, if_true] at hfull
    obtain rfl := Except.ok.inj hfull
    refine ⟨.failed early.errors, by simp [hrun, hok], .failed ?_ hcuts.start hcuts.single⟩
    intro hnil
    simp [Resolution.isOk, hnil] at hok

/-- Whatever its errors are, a schema that has some misses its case. -/
theorem passes_agrees {r : Resolver} (h : Resolver.Agrees one r) :
    Verdict.Agrees one (passes r) := by
  intro value scope full hfull
  obtain ⟨checked, hr, hfull⟩ := bind_eq_ok_iff.1 hfull
  obtain ⟨early, hearly, hcuts⟩ := h (scope.nest label value) checked hr
  have hrun : passes r value (scope.withAbort true) =
      .ok (if early.isOk then .matched else .missed) := by
    simp only [passes, Scope.withAbort_nest, hearly, bind, Except.bind, pure, Except.pure]
  obtain rfl := Except.ok.inj hfull
  refine ⟨_, hrun, ?_⟩
  rw [hcuts.isOk_eq]
  split
  · exact .matched
  · exact .missed

/-- A case that cannot be decided ends the conditional in both. -/
theorem select_agrees {otherwise : Option Resolver}
    (ho : ∀ r, otherwise = some r → Resolver.Agrees one r) {choices : List (Choice (Except Error))}
    (hc : ∀ c ∈ choices, c.Agrees one) (value discriminator : Option Value) :
    Resolver.Agrees one fun scope => select otherwise value discriminator scope choices := by
  induction choices with
  | nil => exact Resolver.orUndefined_agrees ho
  | cons c rest ih =>
    intro scope full hfull
    have hfirst := hc c List.mem_cons_self
    obtain ⟨verdict, hv, hfull⟩ := bind_eq_ok_iff.1 hfull
    obtain ⟨early, hearly, hcuts⟩ := hfirst.verdict discriminator scope verdict hv
    simp only [select, hearly, bind, Except.bind]
    cases hcuts with
    | matched => exact Resolver.orUndefined_agrees hfirst.outcome scope full hfull
    | missed => exact ih (fun c hmem => hc c (List.mem_cons_of_mem _ hmem)) scope full hfull
    | failed hne hstart hsingle =>
      obtain rfl := Except.ok.inj hfull
      exact ⟨_, rfl, hstart, fun hnil => absurd hnil hne, hsingle⟩

end Choice

/-! ## Stages -/

namespace Stages

variable {s : Stages (Except Error)} {scope : Scope}

/-- A default keeps the errors in front of it. -/
theorem errors_fill {r filled : Resolution} (h : s.fill r scope = .ok filled) :
    r.errors <+: filled.errors := by
  unfold fill at h
  split at h
  · obtain ⟨d, -, h⟩ := bind_eq_ok_iff.1 h
    obtain rfl := Except.ok.inj h
    exact List.prefix_append _ _
  · obtain rfl := Except.ok.inj h
    exact List.prefix_refl _

/-- The stages behind the default keep the errors in front of them. -/
theorem errors_finish {r full : Resolution} (h : s.finish r scope = .ok full) :
    r.errors <+: full.errors := by
  rw [finish_eq] at h
  split at h
  · obtain rfl := Except.ok.inj h
    exact List.prefix_append _ _
  · split at h
    · obtain rfl := Except.ok.inj h
      exact (List.prefix_append _ _).trans (List.prefix_append _ _)
    · obtain ⟨mapped, -, h⟩ := bind_eq_ok_iff.1 h
      obtain rfl := Except.ok.inj h
      exact (List.prefix_append _ _).trans (List.prefix_append _ _)

/-- What agreement of the stages comes from. -/
structure Sound (one : Prop) (s : Stages (Except Error)) : Prop where
  source : Resolver.Agrees one s.source
  default : ∀ r, s.default = some r → Resolver.Agrees one r
  steady : ∀ v, s.validator = some v → Validator.Steady v
  brief : one → ∀ v, s.validator = some v → Validator.Brief v
  conditional : ∀ apply, s.conditional = some apply → ∀ value, Resolver.Agrees one (apply value)

/-- A steady validator answers alike in both calls. -/
theorem Sound.check_eq (h : s.Sound one) (value : Option Value) :
    s.check value (scope.withAbort true) = s.check value (scope.withAbort false) := by
  unfold check
  cases hv : s.validator with
  | none => rfl
  | some v => exact h.steady v hv value scope

theorem Sound.length_errors_check (h : s.Sound one) (hone : one) (value : Option Value) :
    (s.check value scope).errors.length ≤ 1 := by
  unfold check
  cases hv : s.validator with
  | none => simp
  | some v => exact h.brief hone v hv value scope

theorem Sound.remap (h : s.Sound one) (value : Option Value) :
    Resolver.Agrees one (s.remap value) := by
  cases hc : s.conditional with
  | none =>
    intro scope full hfull
    simp only [Stages.remap, hc] at hfull ⊢
    obtain rfl := Except.ok.inj hfull
    exact ⟨_, rfl, .refl (by simp)⟩
  | some apply =>
    intro scope full hfull
    simp only [Stages.remap, hc] at hfull ⊢
    exact h.conditional apply hc value scope full hfull

/-- The default agrees with itself when the source had no error. -/
theorem Sound.fill (h : s.Sound one) {r : Resolution} (hr : r.errors = []) :
    Resolver.Agrees one (s.fill r) := by
  intro scope full hfull
  obtain ⟨value, errors⟩ := r
  obtain rfl : errors = [] := hr
  cases hv : value with
  | some v =>
    simp only [Stages.fill, hv] at hfull ⊢
    obtain rfl := Except.ok.inj hfull
    exact ⟨_, rfl, .refl (by simp)⟩
  | none =>
    cases hd : s.default with
    | none =>
      simp only [Stages.fill, hv, hd] at hfull ⊢
      obtain rfl := Except.ok.inj hfull
      exact ⟨_, rfl, .refl (by simp)⟩
    | some default =>
      simp only [Stages.fill, hv, hd] at hfull ⊢
      obtain ⟨filled, hfilled, hfull⟩ := bind_eq_ok_iff.1 hfull
      obtain ⟨early, hearly, hcuts⟩ := h.default default hd scope filled hfilled
      obtain rfl := Except.ok.inj hfull
      exact ⟨early, by rw [hearly]; rfl, hcuts⟩

/-- The later stages agree when there was no error before them. -/
theorem Sound.finish (h : s.Sound one) {r : Resolution} (hr : r.errors = []) :
    Resolver.Agrees one (s.finish r) := by
  intro scope full hfull
  have hbrief : one → (s.check r.value (scope.withAbort false)).errors.length ≤ 1 :=
    fun hone => h.length_errors_check hone r.value
  simp only [Stages.finish_eq, hr, h.check_eq, List.nil_append] at hfull ⊢
  generalize s.check r.value (scope.withAbort false) = checked at hfull hbrief ⊢
  split at hfull
  · rename_i hbad
    rw [if_pos hbad]
    obtain rfl := Except.ok.inj hfull
    exact ⟨_, rfl, List.prefix_refl _, fun _ => rfl, hbrief⟩
  · rename_i hgood
    have hclean : checked.errors = [] := by simpa [Resolution.isOk] using hgood
    rw [if_neg hgood]
    split at hfull
    · rename_i hmissing
      rw [if_pos hmissing]
      obtain rfl := Except.ok.inj hfull
      exact ⟨_, rfl, .refl (by simp [hclean])⟩
    · rename_i hpresent
      rw [if_neg hpresent]
      obtain ⟨mapped, hmapped, hfull⟩ := bind_eq_ok_iff.1 hfull
      obtain ⟨early, hearly, hcuts⟩ := h.remap checked.value scope mapped hmapped
      obtain rfl := Except.ok.inj hfull
      rw [hearly]
      refine ⟨_, rfl, ?_, fun hnil => ?_, ?_⟩
      · simpa [hclean] using hcuts.start
      · obtain rfl := hcuts.clean (by simpa [hclean] using hnil)
        rfl
      · simpa [hclean] using hcuts.single

/-- All stages agree: the first one that fails ends them early, and a full run only adds to its
errors. -/
theorem Sound.run (h : s.Sound one) : Resolver.Agrees one s.run := by
  intro scope full hrun
  obtain ⟨produced, hproduced, hrest⟩ := bind_eq_ok_iff.1 hrun
  simp only [stops_withAbort_false, Bool.false_eq_true, if_false] at hrest
  obtain ⟨filled, hfilled, hfull⟩ := bind_eq_ok_iff.1 hrest
  obtain ⟨early, hearly, hcuts⟩ := h.source scope produced hproduced
  simp only [Stages.run, hearly, bind, Except.bind, stops_withAbort_true, Resolution.isOk,
    Bool.not_eq_true', List.isEmpty_eq_false_iff]
  by_cases hnil : early.errors = []
  · obtain rfl := hcuts.clean hnil
    obtain ⟨defaulted, hdefaulted, hcuts⟩ := h.fill hnil scope filled hfilled
    simp only [hnil, ne_eq, not_true_eq_false, if_false, hdefaulted]
    by_cases hclean : defaulted.errors = []
    · obtain rfl := hcuts.clean hclean
      simp only [hclean, not_true_eq_false, if_false]
      exact h.finish hclean scope full hfull
    · rw [if_pos hclean]
      exact ⟨_, rfl, hcuts.of_failed hclean (errors_finish hfull)⟩
  · rw [if_pos hnil]
    exact ⟨_, rfl, hcuts.of_failed hnil ((errors_fill hfilled).trans (errors_finish hfull))⟩

end Stages

end ValueResolution
