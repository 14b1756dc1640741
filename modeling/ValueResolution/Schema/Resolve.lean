import ValueResolution.Pass
import ValueResolution.Schema.Basic
/-!
# Resolving schemas and value trees

Every part of a schema means a resolver, by recursion on the part and in any monad that can ask
(`Schema.resolverIn`); how the resolvers of its parts work together is said in `Stages.run`,
`Choice.select` and `Pass.run`. `Schema.resolver` is the one in which nothing else is done than to
answer.

A tree that is resolved in a scope without containers is the outermost one. It uses its rooted
order, and a cycle in that order is an error before any terminal is resolved.

`Schema.resolve` is a whole call that collects all errors the preferences ask for;
`Schema.attempt` stops at the first one and refuses.
-/

set_option autoImplicit false

namespace ValueResolution

namespace ValueTree

/-- The order of the terminals in a scope. -/
def orderIn (order : List Path) (rootedOrder : Except String (List Path)) (scope : Scope) :
    Except Error (List Path) :=
  if scope.frames.isEmpty then rootedOrder.mapError .dependencyCycle else .ok order

/-- The entries at the given paths, in the order of the paths. -/
def arrange {α : Type} (entries : List (Path × α)) (order : List Path) : List (Path × α) :=
  order.filterMap fun path => entries.find? fun entry => entry.1 = path

end ValueTree

section Meaning

variable (m : Type → Type) [Monad m] [MonadLiftT (Except Error) m] [Asking m]

mutual

/-- The meaning of a terminal. -/
def Terminal.resolverIn (t : Terminal) : ResolverIn m :=
  match t with
  | .reference r => Resolver.ofReference r
  | .expression x => Resolver.ofExpression x
  | .schema s => s.resolverIn
termination_by structural t

/-- The meaning of a schema. -/
def Schema.resolverIn (s : Schema) : ResolverIn m :=
  match s with
  | ⟨source, default, validator, required, conditional, strip⟩ =>
    match source.literal? with
    | some v => Resolver.ofValue v
    | none =>
      Stages.run
        { source := source.resolverIn
          default := resolverOfTreeIn? default
          validator := validator
          required := required
          conditional := mappingOfIn? conditional
          strip := strip }
termination_by structural s

/-- The meaning of a source. -/
def Source.resolverIn (s : Source) : ResolverIn m :=
  match s with
  | .subject => Resolver.subject
  | .literal v => Resolver.ofValue v
  | .tree t => t.resolverIn
  | .reference r => Resolver.ofReference r
  | .expression x => Resolver.ofExpression x
termination_by structural s

/-- The meaning of a tree: a pass over its skeleton. -/
def ValueTree.resolverIn (t : ValueTree) : ResolverIn m :=
  match t with
  | ⟨skeleton, root, sites, order, rootedOrder⟩ => fun scope => do
    let order ← ValueTree.orderIn order rootedOrder scope
    Pass.run skeleton root (ValueTree.arrange (resolversOfSitesIn sites) order) scope
termination_by structural t

/-- The meanings of terminals, with their places. -/
def resolversOfSitesIn (sites : List Site) : List (Path × ResolverIn m) :=
  match sites with
  | [] => []
  | ⟨path, terminal⟩ :: rest =>
    (path, fun scope => Asking.within path (terminal.resolverIn scope)) :: resolversOfSitesIn rest
termination_by structural sites

/-- The meaning of a tree, if there is one. -/
def resolverOfTreeIn? (t : Option ValueTree) : Option (ResolverIn m) :=
  match t with
  | none => none
  | some t => some t.resolverIn
termination_by structural t

/-- The meaning of a conditional, if there is one. -/
def mappingOfIn? (c : Option Conditional) : Option (Option Value → ResolverIn m) :=
  match c with
  | none => none
  | some c => some c.mappingIn
termination_by structural c

/-- The meaning of a conditional: what it makes of a value. -/
def Conditional.mappingIn (c : Conditional) : Option Value → ResolverIn m :=
  match c with
  | ⟨subject, branches, otherwise⟩ => fun value scope =>
    Choice.select (resolverOfTreeIn? otherwise) value (Choice.discriminator subject value) scope
      (choicesOfIn branches)
termination_by structural c

/-- The meanings of cases. -/
def choicesOfIn (branches : List Branch) : List (Choice m) :=
  match branches with
  | [] => []
  | ⟨pattern, outcome⟩ :: rest =>
    { verdict := pattern.verdictIn, outcome := resolverOfTreeIn? outcome } :: choicesOfIn rest
termination_by structural branches

/-- The meaning of a pattern: its verdict on a value. -/
def Pattern.verdictIn (p : Pattern) : Option Value → Scope → m Verdict :=
  match p with
  | .equals t => Choice.equals t.resolverIn
  | .schema s => Choice.passes s.resolverIn
termination_by structural p

end

end Meaning

/-! ## Resolvers -/

/-- The resolver of a terminal. -/
def Terminal.resolver (t : Terminal) : Resolver := t.resolverIn (Except Error)

/-- The resolver of a schema. -/
def Schema.resolver (s : Schema) : Resolver := s.resolverIn (Except Error)

/-- The resolver of a source. -/
def Source.resolver (s : Source) : Resolver := s.resolverIn (Except Error)

/-- The resolver of a tree. -/
def ValueTree.resolver (t : ValueTree) : Resolver := t.resolverIn (Except Error)

/-- The resolvers of terminals, with their places. -/
def resolversOfSites (sites : List Site) : List (Path × Resolver) :=
  resolversOfSitesIn (Except Error) sites

/-- The resolver of a tree, if there is one. -/
def resolverOfTree? (t : Option ValueTree) : Option Resolver :=
  resolverOfTreeIn? (Except Error) t

/-- The mapping of a conditional, if there is one. -/
def mappingOf? (c : Option Conditional) : Option (Option Value → Resolver) :=
  mappingOfIn? (Except Error) c

/-- What a conditional makes of a value. -/
def Conditional.mapping (c : Conditional) : Option Value → Resolver := c.mappingIn (Except Error)

/-- The cases of a conditional. -/
def choicesOf (branches : List Branch) : List (Choice (Except Error)) :=
  choicesOfIn (Except Error) branches

/-- The verdict of a pattern on a value. -/
def Pattern.verdict (p : Pattern) : Option Value → Scope → Except Error Verdict :=
  p.verdictIn (Except Error)

/-- A schema with a literal as its source has this value; any other goes through its stages. -/
theorem Schema.resolver_eq (source : Source) (default : Option ValueTree)
    (validator : Option Validator) (required : Bool) (conditional : Option Conditional)
    (strip : Bool) : Schema.resolver ⟨source, default, validator, required, conditional, strip⟩ =
      match source.literal? with
      | some v => Resolver.ofValue v
      | none => Stages.run
          { source := source.resolver
            default := resolverOfTree? default
            validator := validator
            required := required
            conditional := mappingOf? conditional
            strip := strip } := rfl

/-- Resolving a tree is a pass over its terminals in the order of the scope. -/
theorem ValueTree.resolver_run (t : ValueTree) (scope : Scope) :
    t.resolver scope = ValueTree.orderIn t.order t.rootedOrder scope >>= fun order =>
      Pass.run t.skeleton t.root (ValueTree.arrange (resolversOfSites t.sites) order) scope := by
  obtain ⟨skeleton, root, sites, order, rootedOrder⟩ := t
  rfl

@[simp]
theorem resolverOfTree?_none : resolverOfTree? none = none := rfl

@[simp]
theorem resolverOfTree?_some (t : ValueTree) : resolverOfTree? (some t) = some t.resolver := rfl

@[simp]
theorem mappingOf?_none : mappingOf? none = none := rfl

@[simp]
theorem mappingOf?_some (c : Conditional) : mappingOf? (some c) = some c.mapping := rfl

namespace Schema

/-- Resolves the schema against an input. -/
def resolve (s : Schema) (input : Value) (prefs : Preferences) : Except Error Resolution :=
  s.resolver (Scope.ofInput input prefs)

/-- Resolves the schema against an input and refuses at the first error. -/
def attempt (s : Schema) (input : Value) : Except Error (Option Value) := do
  let r ← s.resolve input { abortEarly := true }
  r.toExcept.mapError .validation

end Schema

end ValueResolution
