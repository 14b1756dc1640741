import ValueResolution.Constraint
import ValueResolution.Scope
/-!
# Resolvers

What a node means once it is compiled: a `Resolver` gives its resolution in a scope, or the error
that keeps it from having one. This module holds the ways in which resolvers are put together,
without any recursion over trees.

What a node resolves to comes from the answers to questions: what a reference leads to, what an
expression computes, what a validator says of a value, and whether a value that is required is
there. A resolver is put together in any monad that can ask them (`Asking`). In `Except Error` every
question is answered on the spot (`Question.answer`); another monad may take note of it.

`Stages.run` takes a value through the stages of a schema: source, default, validator, presence,
conditional and stripping. `Choice.select` takes it through the cases of a conditional, up to the
first that matches.
-/

set_option autoImplicit false

namespace ValueResolution

/-- Checks a value, and possibly converts it. -/
abbrev Validator := Option Value → Scope → Resolution

/-- A type constraint as a validator; the scope's preferences say whether it converts. -/
def Constraint.validator (c : Constraint) : Validator := fun v scope =>
  c.check scope.prefs.convert v

/-! ## Questions -/

/-- The error of a value that is missing but required. -/
def Stages.missing : ValidationError := { code := "any.required", message := "is required" }

/-- What is asked in a scope. -/
inductive Question where
  | reference (r : Reference)
  | expression (x : Expression)
  /-- What the validator says of the value. -/
  | validator (v : Validator) (value : Option Value)
  /-- Whether the value is there. -/
  | presence (value : Option Value)

/-- What a question comes to in a scope. -/
def Question.answer (q : Question) (scope : Scope) : Resolution :=
  match q with
  | reference r => .ofLookup (scope.lookUp r)
  | expression x => .ofLookup (x.evaluate scope)
  | validator v value => v value scope
  | presence value => ⟨value, if value.isNone then [Stages.missing] else []⟩

/-- The resolution of a node in a scope, in a monad. -/
abbrev ResolverIn (m : Type → Type) := Scope → m Resolution

/-- The resolution of a node in a scope. -/
abbrev Resolver := ResolverIn (Except Error)

/-- A monad in which questions are asked. -/
class Asking (m : Type → Type) where
  /-- Asks one question. -/
  ask : Question → ResolverIn m
  /-- A computation that is made for the terminal at a place of a tree. -/
  within {α : Type} : Path → m α → m α

/-- Every question is answered on the spot, wherever it is asked. -/
instance : Asking (Except Error) where
  ask question scope := .ok (question.answer scope)
  within _ x := x

namespace Resolver

variable {m : Type → Type} [Monad m] [Asking m]

/-- A value that needs no resolving. -/
def ofValue (v : Value) : ResolverIn m := fun _ => pure (.ofValue v)

/-- The value under validation. -/
def subject : ResolverIn m := fun scope => pure ⟨scope.subject, []⟩

/-- What a reference leads to. -/
def ofReference (r : Reference) : ResolverIn m := Asking.ask (.reference r)

/-- What an expression computes. -/
def ofExpression (x : Expression) : ResolverIn m := Asking.ask (.expression x)

/-- Nothing, if there is no node. -/
def orUndefined : Option (ResolverIn m) → ResolverIn m
  | some r => r
  | none => fun _ => pure .undefined

end Resolver

/-- Whether a resolution ends the call in this scope. -/
def Resolution.stops (r : Resolution) (scope : Scope) : Bool := !r.isOk && scope.prefs.abortEarly

/-! ## Conditionals -/

/-- How a case stands to a value. -/
inductive Verdict where
  | matched
  | missed
  /-- The case cannot be decided. -/
  | failed (errors : List ValidationError)

/-- A case of a conditional: its verdict on a value, and what to resolve when it matches. -/
structure Choice (m : Type → Type) where
  verdict : Option Value → Scope → m Verdict
  outcome : Option (ResolverIn m)

namespace Choice

variable {m : Type → Type} [Monad m]

/-- The verdict of a comparison with what a node resolves to. -/
def equals (r : ResolverIn m) (discriminator : Option Value) (scope : Scope) : m Verdict := do
  let expected ← r scope
  if !expected.isOk then return .failed expected.errors
  else if Value.sameOption expected.value discriminator then return .matched
  else return .missed

/-- The label of the validation that decides a case. -/
def label : String := "is"

/-- The verdict of a schema: a value matches when it has no errors. -/
def passes (r : ResolverIn m) (discriminator : Option Value) (scope : Scope) : m Verdict := do
  let checked ← r (scope.nest label discriminator)
  return if checked.isOk then .matched else .missed

/-- Resolves the outcome of the first case that matches, or `otherwise` if none does. A case that
cannot be decided gives `value` back with its errors. -/
def select (otherwise : Option (ResolverIn m)) (value discriminator : Option Value)
    (scope : Scope) : List (Choice m) → m Resolution
  | [] => Resolver.orUndefined otherwise scope
  | c :: rest => do
    match ← c.verdict discriminator scope with
    | .matched => Resolver.orUndefined c.outcome scope
    | .missed => select otherwise value discriminator scope rest
    | .failed errors => return ⟨value, errors⟩

/-- The part of a value that is compared: what is at `subject` in it, or all of it. -/
def discriminator (subject : Option Path) (value : Option Value) : Option Value :=
  match subject with
  | some path => value.bind fun v => v.reach path
  | none => value

end Choice

/-! ## The stages of a schema -/

/-- What a schema does with a value, stage by stage. -/
structure Stages (m : Type → Type) where
  source : ResolverIn m
  default : Option (ResolverIn m)
  validator : Option Validator
  required : Bool
  conditional : Option (Option Value → ResolverIn m)
  strip : Bool

namespace Stages

variable {m : Type → Type} [Monad m] [Asking m]

/-- The default in place of an undefined value. -/
def fill (s : Stages m) (r : Resolution) (scope : Scope) : m Resolution :=
  match r.value, s.default with
  | none, some default => do
    let filled ← default scope
    return ⟨filled.value, r.errors ++ filled.errors⟩
  | _, _ => pure r

/-- The validator's word on a value; without one it passes as it is. -/
def validate (s : Stages m) (value : Option Value) (scope : Scope) : m Resolution :=
  match s.validator with
  | some validate => Asking.ask (.validator validate value) scope
  | none => pure ⟨value, []⟩

/-- Whether a value is there, if it has to be. -/
def demand (s : Stages m) (value : Option Value) (scope : Scope) : m Resolution :=
  if s.required then Asking.ask (.presence value) scope else pure ⟨value, []⟩

/-- The conditional's image of a value; without one it is left alone. -/
def remap (s : Stages m) (value : Option Value) (scope : Scope) : m Resolution :=
  match s.conditional with
  | some apply => apply value scope
  | none => pure ⟨value, []⟩

/-- The stages behind the default. A refusal by the validator and a missing value end them. -/
def finish (s : Stages m) (r : Resolution) (scope : Scope) : m Resolution := do
  let checked ← s.validate r.value scope
  let errors := r.errors ++ checked.errors
  if !checked.isOk then return ⟨checked.value, errors⟩
  else
    let present ← s.demand checked.value scope
    if !present.isOk then return ⟨checked.value, errors ++ present.errors⟩
    else
      let mapped ← s.remap checked.value scope
      return ⟨if s.strip then none else mapped.value, errors ++ mapped.errors⟩

/-- All stages in order. A source or a default that fails ends them when the preferences ask to
stop at the first failure. -/
def run (s : Stages m) : ResolverIn m := fun scope => do
  let produced ← s.source scope
  if produced.stops scope then return produced
  else
    let filled ← s.fill produced scope
    if filled.stops scope then return filled
    else s.finish filled scope

/-! ### Questions that are answered on the spot -/

/-- The validator's answer. -/
def check (s : Stages m) (value : Option Value) (scope : Scope) : Resolution :=
  match s.validator with
  | some validate => validate value scope
  | none => ⟨value, []⟩

theorem validate_eq (s : Stages (Except Error)) (value : Option Value) (scope : Scope) :
    s.validate value scope = .ok (s.check value scope) := by
  unfold validate check
  cases s.validator <;> rfl

theorem demand_eq (s : Stages (Except Error)) (value : Option Value) (scope : Scope) :
    s.demand value scope =
      .ok ⟨value, if s.required && value.isNone then [missing] else []⟩ := by
  unfold demand
  cases s.required <;> rfl

/-- Behind the default the validator is asked first; its refusal and a missing value end the stages,
and else the conditional has its turn. -/
theorem finish_eq (s : Stages (Except Error)) (r : Resolution) (scope : Scope) :
    s.finish r scope =
      if !(s.check r.value scope).isOk then
        .ok ⟨(s.check r.value scope).value, r.errors ++ (s.check r.value scope).errors⟩
      else if s.required && (s.check r.value scope).value.isNone then
        .ok ⟨(s.check r.value scope).value,
          r.errors ++ (s.check r.value scope).errors ++ [missing]⟩
      else s.remap (s.check r.value scope).value scope >>= fun mapped =>
        .ok ⟨if s.strip then none else mapped.value,
          r.errors ++ (s.check r.value scope).errors ++ mapped.errors⟩ := by
  simp only [finish, validate_eq, demand_eq, bind, Except.bind, pure, Except.pure]
  split
  · rfl
  · cases s.required && (s.check r.value scope).value.isNone <;> rfl

end Stages

end ValueResolution
