import ValueResolution.Proofs.Inquiry.Scopes
/-!
# Where errors are reported

The errors of a call are those of the answers to its queries, in order, except for the queries of
schemas that decide a case. Each stands at the path of the scope in which it was found, which is
made up of the places of the terminals around (`Schema.resolve_located`). What a look-up, a formula,
a constraint or a missing value reports is found at the place itself (`Question.path_eq_nil`); only
a validator of another kind can report something further inside.
-/

set_option autoImplicit false

namespace ValueResolution

/-- A look-up fails at the place of the reference. -/
theorem Scope.path_of_lookUp {scope : Scope} {r : Reference} {e : ValidationError}
    (h : scope.lookUp r = .error e) : e.path = [] := by
  unfold lookUp at h
  split at h
  · cases h
  · split at h
    · obtain rfl := Except.error.inj h
      rfl
    · split at h
      · cases h
      · obtain rfl := Except.error.inj h
        rfl

/-- An expression fails at its place. -/
theorem Expression.path_of_evaluate {x : Expression} {scope : Scope} {e : ValidationError}
    (h : x.evaluate scope = .error e) : e.path = [] := by
  unfold evaluate at h
  split at h
  · rename_i found hfound
    obtain rfl := Except.error.inj h
    obtain ⟨r, -, hr⟩ := exists_of_mapM_eq_error hfound
    exact Scope.path_of_lookUp hr
  · split at h
    · cases h
    · obtain rfl := Except.error.inj h
      rfl

theorem Resolution.path_of_ofLookup {found : Except ValidationError (Option Value)}
    (h : ∀ e, found = .error e → e.path = []) {e : ValidationError}
    (he : e ∈ (ofLookup found).errors) : e.path = [] := by
  cases found with
  | ok value => exact absurd he List.not_mem_nil
  | error reason =>
    obtain rfl := List.mem_singleton.1 he
    exact h _ rfl

/-- A constraint refuses a value as a whole. -/
theorem Constraint.path_of_check {c : Constraint} {convert : Bool} {value : Option Value}
    {e : ValidationError} (he : e ∈ (c.check convert value).errors) : e.path = [] := by
  cases value with
  | none => exact absurd he List.not_mem_nil
  | some v =>
    rw [check] at he
    cases hv : c.accept? convert v with
    | some accepted =>
      rw [hv] at he
      exact absurd he List.not_mem_nil
    | none =>
      rw [hv] at he
      obtain rfl := List.mem_singleton.1 he
      rfl

/-- Only a validator that is not a constraint reports something further inside. -/
theorem Question.path_eq_nil {q : Question} {scope : Scope} {e : ValidationError}
    (he : e ∈ (q.answer scope).errors)
    (hq : ∀ v value, q = .validator v value → ∃ c : Constraint, v = c.validator) :
    e.path = [] := by
  cases q with
  | reference r => exact Resolution.path_of_ofLookup (fun _ => Scope.path_of_lookUp) he
  | expression x => exact Resolution.path_of_ofLookup (fun _ => Expression.path_of_evaluate) he
  | validator v value =>
    obtain ⟨c, rfl⟩ := hq v value rfl
    exact Constraint.path_of_check he
  | presence value =>
    cases value with
    | none =>
      obtain rfl := List.mem_singleton.1 he
      rfl
    | some v => exact absurd he List.not_mem_nil

namespace Schema

/-- The errors of a call are those of the answers to its queries outside of the schemas that decide
a case, each with the path of the scope of its query in front. This path is that of the places of
the terminals around, and what is behind it was put there by a validator of the schema's own. -/
theorem resolve_located {s : Schema} {input : Value} {prefs : Preferences} {r : Resolution}
    (h : s.resolve input prefs = .ok r) :
    (s.inquiry (Scope.ofInput input prefs)).outcome = .ok r ∧
    r.errors = ((s.queries input prefs).filter fun q => q.scope.context.isEmpty).flatMap
      (fun q => q.answer.errors.map fun e => e.within q.scope.path) ∧
    ∀ q ∈ s.queries input prefs, q.scope.path = q.places.flatten ∧
      ∀ e ∈ q.answer.errors, e.path ≠ [] →
        ∃ v value, q.question = .validator v value ∧ ∀ c : Constraint, v ≠ c.validator := by
  have houtcome : (s.inquiry (Scope.ofInput input prefs)).outcome = .ok r :=
    (congrFun s.inquiry_resolver _).trans h
  have hpath : ∀ q ∈ s.queries input prefs, q.scope.path = q.places.flatten :=
    fun q hq => (leads_of_mem_queries hq).path_eq
  refine ⟨houtcome, ?_, fun q hq => ⟨hpath q hq, fun e he hne => ?_⟩⟩
  · have hreported : r.errors = reports [] (s.queries input prefs) :=
      (s.accounts _).reported r houtcome
    have hcontext : ∀ q : Query, decide (q.scope.context = []) = q.scope.context.isEmpty :=
      fun q => by cases q.scope.context <;> rfl
    rw [hreported, reports, funext hcontext]
    refine List.flatMap_congr fun q hq => ?_
    rw [Query.report, hpath q (List.mem_of_mem_filter hq)]
  · by_contra hnot
    refine hne (Question.path_eq_nil he fun v value hv => ?_)
    by_contra hc
    exact hnot ⟨v, value, hv, fun c hvc => hc ⟨c, hvc⟩⟩

/-- In a run through every stage, the errors of a nested tree, of a default, of a validator and of a
case stand at their full places; those of the schema that decides a case are not among them. -/
theorem resolve_located_everyStage : ∃ s r, everyStage = .ok s ∧
    s.resolve (.object []) {} = .ok r ∧
    r.errors.map ValidationError.text =
      ["'n.b': reference '@7/x' points past the outermost ancestor [ref.ancestor]",
       "'m.0': reference '@7/x' points past the outermost ancestor [ref.ancestor]",
       "'m.deep': is refused [deep]",
       "'k.e': reference '@7/x' points past the outermost ancestor [ref.ancestor]"] ∧
    r.errors = ((s.queries (.object []) {}).filter fun q => q.scope.context.isEmpty).flatMap
      (fun q => q.answer.errors.map fun e => e.within q.scope.path) := by
  have hrun : ((everyStage.toOption.bind fun s => (s.resolve (.object []) {}).toOption).map
      fun r => r.errors.map ValidationError.text) = some
        ["'n.b': reference '@7/x' points past the outermost ancestor [ref.ancestor]",
         "'m.0': reference '@7/x' points past the outermost ancestor [ref.ancestor]",
         "'m.deep': is refused [deep]",
         "'k.e': reference '@7/x' points past the outermost ancestor [ref.ancestor]"] := by
    decide +kernel
  obtain ⟨r, hr, htexts⟩ := Option.map_eq_some_iff.1 hrun
  obtain ⟨s, hs, hres⟩ := Option.bind_eq_some_iff.1 hr
  have hok : s.resolve (.object []) {} = .ok r := eq_ok_of_toOption hres
  exact ⟨s, r, eq_ok_of_toOption hs, hok, htexts, (resolve_located hok).2.1⟩

end Schema

end ValueResolution
