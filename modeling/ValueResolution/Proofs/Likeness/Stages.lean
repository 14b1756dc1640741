import ValueResolution.Proofs.Likeness.Values
import ValueResolution.Proofs.Outcome
/-!
# Scopes that agree

Two scopes agree on references when they have related inputs and subjects, equally many containers,
the same preferences, and when each of the references reads related values in them (`Scope.Agree`).
A resolver respects a relation and references when it has alike outcomes in every two such scopes
(`Resolver.Respects`). Looking up and evaluating do, and so do conditionals and the stages of a
schema when what they are made of does.
-/

set_option autoImplicit false

namespace ValueResolution

variable {R : Value → Value → Prop} {refs : List Reference}

/-- What the references read in the two scopes is related, and so is all else that counts. -/
structure Scope.Agree (R : Value → Value → Prop) (refs : List Reference) (s s' : Scope) :
    Prop where
  input : R s.input s'.input
  subject : Option.Rel R s.subject s'.subject
  frames : s.frames.length = s'.frames.length
  prefs : s.prefs = s'.prefs
  reads : ∀ r ∈ refs, ∀ f f', s.frame? r.anchor = some f → s'.frame? r.anchor = some f' →
    ∃ v v', f.read r.path = .ok v ∧ f'.read r.path = .ok v' ∧ Option.Rel R v v'

/-- The resolver has alike outcomes in scopes that agree on the references. -/
def Resolver.Respects (R : Value → Value → Prop) (refs : List Reference) (r : Resolver) : Prop :=
  ∀ s s', Scope.Agree R refs s s' → Like (Resolution.Alike R) (r s) (r s')

/-- The same for what is made of a value that may differ too. -/
def Mapping.Respects (R : Value → Value → Prop) (refs : List Reference)
    (apply : Option Value → Resolver) : Prop :=
  ∀ v v', Option.Rel R v v' → ∀ s s', Scope.Agree R refs s s' →
    Like (Resolution.Alike R) (apply v s) (apply v' s')

/-- The same for what decides a case: its verdict does not differ. -/
def Verdict.Respects (R : Value → Value → Prop) (refs : List Reference)
    (judge : Option Value → Scope → Except Error Verdict) : Prop :=
  ∀ v v', Option.Rel R v v' → ∀ s s', Scope.Agree R refs s s' → judge v s = judge v' s'

/-- The formula has related outcomes for related arguments, and the same reason to have none. -/
def Expression.Respects (R : Value → Value → Prop) (x : Expression) : Prop :=
  ∀ arguments arguments', List.Forall₂ (Option.Rel R) arguments arguments' →
    Like (Option.Rel R) (x.formula arguments) (x.formula arguments')

/-! ## Looking up -/

namespace Scope

variable {s s' : Scope}

/-- Scopes that agree on references agree on some of them. -/
theorem Agree.mono {more : List Reference} (h : Agree R more s s') (hsub : refs ⊆ more) :
    Agree R refs s s' :=
  { h with reads := fun r hr => h.reads r (hsub hr) }

/-- A labelled validation of related values begins in scopes that agree, too. -/
theorem Agree.nest (h : Agree R refs s s') (label : String) {v v' : Option Value}
    (hv : Option.Rel R v v') : Agree R refs (s.nest label v) (s'.nest label v') :=
  { h with subject := hv }

/-- Which anchors a scope has depends on the number of its containers. -/
theorem frame?_eq_none_iff (h : s.frames.length = s'.frames.length) (anchor : Anchor) :
    s.frame? anchor = none ↔ s'.frame? anchor = none := by
  cases anchor with
  | root => simp [frame?]
  | relative up =>
    cases up with
    | zero => simp [frame?]
    | succ up => simp [frame?, h]
  | level depth => simp [frame?, h]

/-- A reference that counts among the given ones is looked up alike. -/
theorem Agree.lookUp (hR : Congruence R) (h : Agree R refs s s') {r : Reference}
    (hr : ∀ out, r.escape? 0 = some out → out ∈ refs) :
    Like (Option.Rel R) (s.lookUp r) (s'.lookUp r) := by
  obtain ⟨anchor, path⟩ := r
  have hnone : s.frame? anchor = none → s'.frame? anchor = none :=
    (frame?_eq_none_iff h.frames anchor).1
  have hframe : (∀ f, s.frame? anchor = some f → ⟨anchor, path⟩ ∈ refs) → anchor ≠ .root →
      Like (Option.Rel R) (s.lookUp ⟨anchor, path⟩) (s'.lookUp ⟨anchor, path⟩) := by
    intro hmem hroot
    cases hf : s.frame? anchor with
    | none =>
      simp only [Scope.lookUp, hf, hnone hf]
      exact .error _
    | some f =>
      cases hf' : s'.frame? anchor with
      | none => simp [(frame?_eq_none_iff h.frames anchor).2 hf'] at hf
      | some f' =>
        obtain ⟨v, v', hv, hv', hrel⟩ := h.reads _ (hmem f hf) f f' hf hf'
        simp only [Scope.lookUp, hf, hf', hv, hv']
        exact .ok hrel
  cases anchor with
  | root => exact .ok (hR.reach h.input path)
  | level depth => exact hframe (fun _ _ => hr _ rfl) (by simp)
  | relative up =>
    refine hframe (fun f hf => ?_) (by simp)
    cases up with
    | zero => simp [frame?] at hf
    | succ up => exact hr _ rfl

/-- So is a list of them. -/
theorem Agree.lookUps (hR : Congruence R) (h : Agree R refs s s') {references : List Reference}
    (hr : ∀ r ∈ references, ∀ out, r.escape? 0 = some out → out ∈ refs) :
    Like (List.Forall₂ (Option.Rel R)) (references.mapM s.lookUp) (references.mapM s'.lookUp) := by
  induction references with
  | nil => exact .ok .nil
  | cons r rest ih =>
    obtain ⟨hfirst, hrest⟩ := List.forall_mem_cons.1 hr
    rw [List.mapM_cons, List.mapM_cons]
    refine (h.lookUp hR hfirst).bind fun v v' hv => (ih hrest).bind fun vs vs' hvs => ?_
    exact .ok (.cons hv hvs)

end Scope

namespace Resolver

theorem ofValue_respects {v : Value} (h : R v v) : Respects R refs (ofValue v) :=
  fun _ _ _ => .ok ⟨.some h, rfl⟩

theorem subject_respects : Respects R refs subject := fun _ _ h => .ok ⟨h.subject, rfl⟩

/-- What a look-up resolves to. -/
theorem ofLookup_alike {x y : Except ValidationError (Option Value)} (h : Like (Option.Rel R) x y) :
    (Resolution.ofLookup x).Alike R (Resolution.ofLookup y) := by
  cases h with
  | ok h => exact ⟨h, rfl⟩
  | error e => exact ⟨.none, rfl⟩

/-- A reference of a resolver is looked up alike if it is one of those agreed on, wherever it leads
out of the tree. -/
theorem ofReference_respects (hR : Congruence R) {r : Reference}
    (hr : ∀ out, r.escape? 0 = some out → out ∈ refs) : Respects R refs (ofReference r) :=
  fun _ _ h => .ok (ofLookup_alike (h.lookUp hR hr))

/-- An expression respects the relation if its formula does and its references are agreed on. -/
theorem ofExpression_respects (hR : Congruence R) {x : Expression} (hx : x.Respects R)
    (hr : ∀ r ∈ x.references, ∀ out, r.escape? 0 = some out → out ∈ refs) :
    Respects R refs (ofExpression x) := by
  refine fun s s' h => .ok (ofLookup_alike ?_)
  have hlook := h.lookUps hR hr
  simp only [Expression.evaluate]
  generalize x.references.mapM s.lookUp = found, x.references.mapM s'.lookUp = found' at hlook
  cases hlook with
  | error e => exact .error e
  | @ok arguments arguments' hargs =>
    have hformula := hx _ _ hargs
    simp only
    generalize x.formula arguments = outcome, x.formula arguments' = outcome' at hformula
    cases hformula with
    | ok h => exact .ok h
    | error reason => exact .error _

theorem orUndefined_respects {r : Option Resolver} (h : ∀ r', r = some r' → Respects R refs r') :
    Respects R refs (orUndefined r) := by
  cases r with
  | none => exact fun _ _ _ => .ok ⟨.none, rfl⟩
  | some r => exact h r rfl

/-- A resolver that notices no difference outside of some references notices none outside of
more. -/
theorem Respects.mono {r : Resolver} {more : List Reference} (h : Respects R refs r)
    (hsub : refs ⊆ more) : Respects R more r :=
  fun s s' hs => h s s' (hs.mono hsub)

end Resolver

theorem Mapping.Respects.mono {apply : Option Value → Resolver} {more : List Reference}
    (h : Mapping.Respects R refs apply) (hsub : refs ⊆ more) : Mapping.Respects R more apply :=
  fun v v' hv s s' hs => h v v' hv s s' (hs.mono hsub)

theorem Verdict.Respects.mono {judge : Option Value → Scope → Except Error Verdict}
    {more : List Reference} (h : Verdict.Respects R refs judge) (hsub : refs ⊆ more) :
    Verdict.Respects R more judge :=
  fun v v' hv s s' hs => h v v' hv s s' (hs.mono hsub)

/-! ## Conditionals -/

namespace Choice

/-- A comparison comes to one verdict on related values, as equality does not tell them apart. -/
theorem equals_respects (hR : Congruence R) {r : Resolver} (h : r.Respects R refs) :
    Verdict.Respects R refs (equals r) := by
  intro v v' hv s s' hs
  have hr := h s s' hs
  simp only [equals]
  generalize r s = x, r s' = x' at hr
  cases hr with
  | error e => rfl
  | ok hr => simp only [bind, Except.bind, hr.isOk_eq, hr.errors, hR.sameOption hr.value hv]

/-- A schema comes to one verdict on related values, since it has errors for both or for neither. -/
theorem passes_respects {r : Resolver} (h : r.Respects R refs) :
    Verdict.Respects R refs (passes r) := by
  intro v v' hv s s' hs
  have hr := h _ _ (hs.nest label hv)
  simp only [passes]
  generalize r (s.nest label v) = x, r (s'.nest label v') = x' at hr
  cases hr with
  | error e => rfl
  | ok hr => simp only [bind, Except.bind, hr.isOk_eq]

/-- The case and what it leads to respect the relation. -/
structure Respects (R : Value → Value → Prop) (refs : List Reference) (c : Choice (Except Error)) :
    Prop where
  verdict : Verdict.Respects R refs c.verdict
  outcome : ∀ r, c.outcome = some r → Resolver.Respects R refs r

theorem Respects.mono {c : Choice (Except Error)} {more : List Reference} (h : c.Respects R refs)
    (hsub : refs ⊆ more) : c.Respects R more :=
  ⟨h.verdict.mono hsub, fun r hr => (h.outcome r hr).mono hsub⟩

/-- Cases that respect the relation select alike: the verdicts do not differ, so it is one case that
matches in both scopes. -/
theorem select_respects {otherwise : Option Resolver}
    (ho : ∀ r, otherwise = some r → r.Respects R refs) {choices : List (Choice (Except Error))}
    (hc : ∀ c ∈ choices, c.Respects R refs) {v v' d d' : Option Value} (hv : Option.Rel R v v')
    (hd : Option.Rel R d d') {s s' : Scope} (hs : Scope.Agree R refs s s') :
    Like (Resolution.Alike R) (select otherwise v d s choices)
      (select otherwise v' d' s' choices) := by
  induction choices with
  | nil => exact Resolver.orUndefined_respects ho s s' hs
  | cons c rest ih =>
    obtain ⟨hfirst, hrest⟩ := List.forall_mem_cons.1 hc
    rw [select, select, hfirst.verdict d d' hd s s' hs]
    cases c.verdict d' s' with
    | error e => exact .error e
    | ok verdict =>
      cases verdict with
      | matched => exact Resolver.orUndefined_respects hfirst.outcome s s' hs
      | missed => exact ih hrest
      | failed errors => exact .ok ⟨hv, rfl⟩

/-- What is compared of related values is related. -/
theorem discriminator_rel (hR : Congruence R) (subject : Option Path) {v v' : Option Value}
    (h : Option.Rel R v v') :
    Option.Rel R (discriminator subject v) (discriminator subject v') := by
  cases subject with
  | none => exact h
  | some path => exact rel_bind h fun _ _ hw => hR.reach hw path

end Choice

/-! ## Stages -/

namespace Stages

/-- What makes the stages respect the relation. -/
structure Respect (R : Value → Value → Prop) (refs : List Reference) (s : Stages (Except Error)) :
    Prop where
  source : Resolver.Respects R refs s.source
  default : ∀ r, s.default = some r → Resolver.Respects R refs r
  validator : ∀ v, s.validator = some v → ∃ c : Constraint, v = c.validator
  conditional : ∀ apply, s.conditional = some apply → Mapping.Respects R refs apply

variable {stages : Stages (Except Error)} {s s' : Scope} {r r' : Resolution}

/-- A default steps in for both values or for neither. -/
theorem Respect.fill (h : stages.Respect R refs) (hs : Scope.Agree R refs s s')
    (hr : r.Alike R r') : Like (Resolution.Alike R) (stages.fill r s) (stages.fill r' s') := by
  obtain ⟨value, errors⟩ := r
  obtain ⟨value', errors'⟩ := r'
  obtain ⟨hvalue, herrors⟩ := hr
  obtain rfl : errors = errors' := herrors
  cases hd : stages.default with
  | none =>
    have hkeep : ∀ r scope, stages.fill r scope = .ok r := by
      intro r scope
      rw [Stages.fill, hd]
      cases r.value <;> rfl
    rw [hkeep, hkeep]
    exact .ok ⟨hvalue, rfl⟩
  | some default =>
    change Option.Rel R value value' at hvalue
    cases hvalue with
    | some hv =>
      simp only [Stages.fill]
      exact .ok ⟨.some hv, rfl⟩
    | none =>
      simp only [Stages.fill, hd]
      refine (h.default default hd s s' hs).bind fun d d' hdd => .ok ⟨hdd.value, ?_⟩
      rw [hdd.errors]

/-- A constraint answers alike, with one value for the other. -/
theorem Respect.check (hR : Congruence R) (h : stages.Respect R refs)
    (hs : Scope.Agree R refs s s') {v v' : Option Value} (hv : Option.Rel R v v') :
    (stages.check v s).Alike R (stages.check v' s') := by
  cases hval : stages.validator with
  | none =>
    simp only [Stages.check, hval]
    exact ⟨hv, rfl⟩
  | some validate =>
    obtain ⟨c, rfl⟩ := h.validator validate hval
    simp only [Stages.check, hval, Constraint.validator, hs.prefs]
    exact c.check_alike hR _ hv

theorem Respect.remap (h : stages.Respect R refs) : Mapping.Respects R refs stages.remap := by
  intro v v' hv s s' hs
  cases hc : stages.conditional with
  | none =>
    simp only [Stages.remap, hc]
    exact .ok ⟨hv, rfl⟩
  | some apply =>
    simp only [Stages.remap, hc]
    exact h.conditional apply hc v v' hv s s' hs

/-- The stages behind the default end at the same one, with related values and the same errors. -/
theorem Respect.finish (hR : Congruence R) (h : stages.Respect R refs)
    (hs : Scope.Agree R refs s s') (hr : r.Alike R r') :
    Like (Resolution.Alike R) (stages.finish r s) (stages.finish r' s') := by
  have hc := h.check hR hs hr.value
  simp only [Stages.finish_eq, hc.isOk_eq, isNone_eq_of_rel hc.value, hc.errors, hr.errors]
  split
  · exact .ok ⟨hc.value, rfl⟩
  · split
    · exact .ok ⟨hc.value, rfl⟩
    · refine (h.remap _ _ hc.value s s' hs).bind fun m m' hm => .ok ⟨?_, ?_⟩
      · cases stages.strip with
        | true => exact .none
        | false => exact hm.value
      · rw [hm.errors]

/-- Stages that are made of what respects the relation respect it. -/
theorem Respect.run (hR : Congruence R) (h : stages.Respect R refs) :
    Resolver.Respects R refs stages.run := by
  intro s s' hs
  refine (h.source s s' hs).bind fun r r' hr => ?_
  simp only [hr.stops_eq hs.prefs]
  split
  · exact .ok hr
  · refine (h.fill hs hr).bind fun f f' hf => ?_
    simp only [hf.stops_eq hs.prefs]
    split
    · exact .ok hf
    · exact h.finish hR hs hf

end Stages

end ValueResolution
