import ValueResolution.Proofs.Recorded
/-!
# Resolving with a record of the questions

A `Query` is a question with the scope in which it was asked, and with the places of the terminals
around, one for every tree that they stand in. An `Inquiry` is a resolver that notes its queries:
it is put together like every resolver, in the monad `Recorded Query`, where to ask is to note the
query and to answer it.

Each way to put resolvers together gives the same outcome with the record as without it: for
conditionals this is `Choice.outcome_select`, for the stages of a schema `Stages.plain_run`.
-/

set_option autoImplicit false

namespace ValueResolution

/-- A question, the scope in which it was asked, and the places of the terminals around it: of each
one in its own tree, the outermost first. -/
structure Query where
  question : Question
  scope : Scope
  places : List Path := []

/-- The answer to a query. -/
def Query.answer (q : Query) : Resolution := q.question.answer q.scope

/-- The query as the tree makes it that has the asking terminal at `place`. -/
def Query.within (q : Query) (place : Path) : Query := { q with places := place :: q.places }

/-- A resolver that keeps a record of its queries. -/
abbrev Inquiry := ResolverIn (Recorded Query)

/-- A question is noted and answered on the spot. -/
instance : Asking (Recorded Query) where
  ask question scope := ⟨[{ question, scope }], .ok (question.answer scope)⟩
  within place x := { x with notes := x.notes.map fun q => q.within place }

/-- Without the record, nothing is still nothing. -/
theorem Resolver.plain_orUndefined (f : Option Inquiry) :
    (orUndefined f).plain = orUndefined (f.map ResolverIn.plain) := by
  cases f <;> rfl

/-! ## Conditionals -/

namespace Choice

/-- The case without its record. -/
def plain (c : Choice (Recorded Query)) : Choice (Except Error) where
  verdict := fun value scope => (c.verdict value scope).outcome
  outcome := c.outcome.map ResolverIn.plain

/-- The record makes no difference to a comparison. -/
theorem outcome_equals (f : Inquiry) (discriminator : Option Value) (scope : Scope) :
    (equals f discriminator scope).outcome = equals f.plain discriminator scope := by
  rw [equals, equals, Recorded.outcome_bind]
  refine congrArg _ (funext fun expected => ?_)
  split
  · rfl
  · split <;> rfl

/-- Nor does it to a schema that decides a case. -/
theorem outcome_passes (f : Inquiry) (discriminator : Option Value) (scope : Scope) :
    (passes f discriminator scope).outcome = passes f.plain discriminator scope :=
  Recorded.outcome_bind _ _

/-- The record makes no difference to the case that is selected. -/
theorem outcome_select (otherwise : Option Inquiry) (value discriminator : Option Value)
    (scope : Scope) (choices : List (Choice (Recorded Query))) :
    (select otherwise value discriminator scope choices).outcome =
      select (otherwise.map ResolverIn.plain) value discriminator scope (choices.map plain) := by
  induction choices with
  | nil => exact congrFun (Resolver.plain_orUndefined otherwise) scope
  | cons c rest ih =>
    rw [select, List.map_cons, select, Recorded.outcome_bind]
    refine congrArg _ (funext fun verdict => ?_)
    cases verdict with
    | matched => exact congrFun (Resolver.plain_orUndefined c.outcome) scope
    | missed => exact ih
    | failed errors => rfl

end Choice

/-! ## Stages -/

namespace Stages

/-- The stages without their record. -/
def plain (s : Stages (Recorded Query)) : Stages (Except Error) where
  source := s.source.plain
  default := s.default.map ResolverIn.plain
  validator := s.validator
  required := s.required
  conditional := s.conditional.map fun apply value => (apply value).plain
  strip := s.strip

variable (s : Stages (Recorded Query))

/-- A default gives the same with the record as without it. -/
theorem outcome_fill (r : Resolution) (scope : Scope) :
    (s.fill r scope).outcome = s.plain.fill r scope := by
  obtain ⟨source, default, validator, required, conditional, strip⟩ := s
  obtain ⟨value, errors⟩ := r
  cases value with
  | some v => rfl
  | none =>
    cases default with
    | none => rfl
    | some default => exact Recorded.outcome_bind _ _

/-- The validator is asked about the same value, and noting the question leaves its answer. -/
theorem outcome_validate (value : Option Value) (scope : Scope) :
    (s.validate value scope).outcome = s.plain.validate value scope := by
  obtain ⟨source, default, validator, required, conditional, strip⟩ := s
  cases validator <;> rfl

theorem outcome_demand (value : Option Value) (scope : Scope) :
    (s.demand value scope).outcome = s.plain.demand value scope := by
  obtain ⟨source, default, validator, required, conditional, strip⟩ := s
  cases required <;> rfl

theorem outcome_remap (value : Option Value) (scope : Scope) :
    (s.remap value scope).outcome = s.plain.remap value scope := by
  obtain ⟨source, default, validator, required, conditional, strip⟩ := s
  cases conditional <;> rfl

/-- The stages behind the default go on for the same reasons, and come to the same. -/
theorem outcome_finish (r : Resolution) (scope : Scope) :
    (s.finish r scope).outcome = s.plain.finish r scope := by
  rw [finish, finish, Recorded.outcome_bind, outcome_validate]
  refine congrArg _ (funext fun checked => ?_)
  dsimp only
  split
  · rfl
  · rw [Recorded.outcome_bind, outcome_demand]
    refine congrArg _ (funext fun present => ?_)
    split
    · rfl
    · rw [Recorded.outcome_bind, outcome_remap]
      rfl

/-- The record makes no difference to what the stages come to. -/
theorem plain_run : ResolverIn.plain s.run = s.plain.run := by
  funext scope
  rw [ResolverIn.plain, run, run, Recorded.outcome_bind]
  refine congrArg _ (funext fun produced => ?_)
  split
  · rfl
  · rw [Recorded.outcome_bind, outcome_fill]
    refine congrArg _ (funext fun filled => ?_)
    split
    · rfl
    · exact s.outcome_finish filled scope

end Stages

end ValueResolution
