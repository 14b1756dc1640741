import ValueResolution.Proofs.References.Made
import ValueResolution.Proofs.Schema.Parts
/-!
# What a schema reads of its input

A call reads its input in two ways: at the paths of root references, and as the value under
validation of a schema that has no source of its own. Inside a schema that decides a case the latter
is another value, which the call has computed. So if a schema without validators of its own kind has
such schemas only there (`Schema.exposed`), then all that counts of an input is what root references
read of it (`Schema.resolve_named_input`).

`Scope.Unmoved` says of a function of the scope that it does not notice when another input takes the
place of the one, and another value that of the value under validation. Every way in which resolvers
are put together keeps it.
-/

set_option autoImplicit false

namespace ValueResolution

mutual

/-- The schemas in a terminal that are not in one that decides a case. -/
def Terminal.exposed (t : Terminal) : List Schema :=
  match t with
  | .reference _ => []
  | .expression _ => []
  | .schema s => s.exposed
termination_by structural t

/-- The schema, and those in it that are not in one that decides a case. -/
def Schema.exposed (s : Schema) : List Schema :=
  match s with
  | ⟨source, default, validator, required, conditional, strip⟩ =>
    ⟨source, default, validator, required, conditional, strip⟩ :: (source.exposed ++
      exposedInTree? default ++ exposedInConditional? conditional)
termination_by structural s

/-- The schemas in a source that are not in one that decides a case. -/
def Source.exposed (s : Source) : List Schema :=
  match s with
  | .subject => []
  | .literal _ => []
  | .tree t => t.exposed
  | .reference _ => []
  | .expression _ => []
termination_by structural s

/-- The schemas in a tree that are not in one that decides a case. -/
def ValueTree.exposed (t : ValueTree) : List Schema :=
  match t with
  | ⟨_, _, sites, _, _⟩ => exposedInSites sites
termination_by structural t

/-- The schemas in terminals that are not in one that decides a case. -/
def exposedInSites (sites : List Site) : List Schema :=
  match sites with
  | [] => []
  | ⟨_, terminal⟩ :: rest => terminal.exposed ++ exposedInSites rest
termination_by structural sites

/-- The schemas in a tree, if there is one. -/
def exposedInTree? (t : Option ValueTree) : List Schema :=
  match t with
  | none => []
  | some t => t.exposed
termination_by structural t

/-- The schemas in a conditional, if there is one. -/
def exposedInConditional? (c : Option Conditional) : List Schema :=
  match c with
  | none => []
  | some c => c.exposed
termination_by structural c

/-- The schemas in the trees of a conditional. -/
def Conditional.exposed (c : Conditional) : List Schema :=
  match c with
  | ⟨_, branches, otherwise⟩ => exposedInBranches branches ++ exposedInTree? otherwise
termination_by structural c

/-- The schemas in the trees of several cases. -/
def exposedInBranches (branches : List Branch) : List Schema :=
  match branches with
  | [] => []
  | ⟨pattern, outcome⟩ :: rest =>
    pattern.exposed ++ exposedInTree? outcome ++ exposedInBranches rest
termination_by structural branches

/-- The schemas in the tree of a pattern. A schema that decides a case is not counted, nor is what
is in it. -/
def Pattern.exposed (p : Pattern) : List Schema :=
  match p with
  | .equals t => t.exposed
  | .schema _ => []
termination_by structural p

end

/-! ## Functions of the scope -/

namespace Scope

/-- The scope with another input, and with another value under validation. -/
def moved (s : Scope) (input : Value) (subject : Option Value) : Scope :=
  { s with input := input, subject := subject }

/-- The function does not notice `input'` in the place of `input`. It does not notice another value
under validation either, unless it is `inside` a schema that decides a case. -/
def Unmoved {α : Type} (input input' : Value) (inside : Bool) (f : Scope → α) : Prop :=
  ∀ (s : Scope) (subject : Option Value), s.input = input → (inside = true → s.subject = subject) →
    f (s.moved input' subject) = f s

namespace Unmoved

variable {α β : Type} {input input' : Value} {inside : Bool}

theorem const (a : α) : Unmoved input input' inside fun _ => a := fun _ _ _ _ => rfl

/-- Two computations in a row do not notice the input if neither does, whatever the first gives. -/
theorem bind {x : Scope → Except Error α} {f : α → Scope → Except Error β}
    (hx : Unmoved input input' inside x) (hf : ∀ a, Unmoved input input' inside (f a)) :
    Unmoved input input' inside fun s => x s >>= fun a => f a s := by
  intro s subject hi hs
  dsimp only
  rw [hx s subject hi hs]
  exact congrArg _ (funext fun a => hf a s subject hi hs)

theorem comp {f : Scope → α} (hf : Unmoved input input' inside f) (g : α → β) :
    Unmoved input input' inside fun s => g (f s) :=
  fun s subject hi hs => congrArg g (hf s subject hi hs)

/-- Nor does a choice between them. -/
theorem ite {c : Scope → Bool} {f g : Scope → α} (hc : Unmoved input input' inside c)
    (hf : Unmoved input input' inside f) (hg : Unmoved input input' inside g) :
    Unmoved input input' inside fun s => if c s then f s else g s := by
  intro s subject hi hs
  dsimp only
  rw [hc s subject hi hs, hf s subject hi hs, hg s subject hi hs]

/-- A step into a terminal changes neither the input nor the value under validation. -/
theorem localize {f : Scope → α} (hf : Unmoved input input' inside f) (path : Path)
    (frames : List Frame) : Unmoved input input' inside fun s => f (s.localize path frames) :=
  fun s subject hi hs => hf (s.localize path frames) subject hi hs

/-- A labelled validation has a value of its own under validation. -/
theorem nest {f : Scope → α} (hf : Unmoved input input' true f) (label : String)
    (value : Option Value) : Unmoved input input' inside fun s => f (s.nest label value) :=
  fun s _ hi _ => hf (s.nest label value) value hi fun _ => rfl

theorem stops (r : Resolution) : Unmoved input input' inside fun s => r.stops s :=
  fun _ _ _ _ => rfl

/-- Inside a validation the value under validation is given, so it is the same. -/
theorem subject : Unmoved input input' true fun s => s.subject := fun _ _ _ hs => (hs rfl).symm

/-- A root reference reads the input at its path, and no other reference reads the input. -/
theorem lookUp {r : Reference} (h : r.anchor = .root → input.reach r.path = input'.reach r.path) :
    Unmoved input input' inside fun s => s.lookUp r := by
  intro s subject hi _
  obtain ⟨anchor, path⟩ := r
  cases anchor with
  | root =>
    subst hi
    exact congrArg Except.ok (h rfl).symm
  | relative up => rfl
  | level depth => rfl

/-- An expression notices no more of the input than what its references read of it. -/
theorem evaluate {x : Expression}
    (h : ∀ r ∈ x.references, r.anchor = .root → input.reach r.path = input'.reach r.path) :
    Unmoved input input' inside x.evaluate := by
  intro s subject hi hs
  have hlook : ∀ r ∈ x.references, (s.moved input' subject).lookUp r = s.lookUp r :=
    fun r hr => lookUp (h r hr) s subject hi hs
  rw [Expression.evaluate, Expression.evaluate, mapM_congr hlook]

/-- A constraint goes by the preferences. -/
theorem validator (c : Constraint) (value : Option Value) :
    Unmoved input input' inside fun s => c.validator value s := fun _ _ _ _ => rfl

end Unmoved

end Scope

open Scope (Unmoved)

variable {input input' : Value} {inside : Bool}

/-- A reference into the input has to find the same in both inputs; any other does not read them. -/
theorem Resolver.ofReference_unmoved {r : Reference}
    (h : ∀ m ∈ Made.here [r], m.2.anchor = .root → input.reach m.2.path = input'.reach m.2.path) :
    Unmoved input input' inside (ofReference r : Resolver) :=
  (Unmoved.lookUp (h (0, r) List.mem_cons_self)).comp fun found =>
    Except.ok (Resolution.ofLookup found)

theorem Resolver.ofExpression_unmoved {x : Expression}
    (h : ∀ m ∈ Made.here x.references, m.2.anchor = .root →
      input.reach m.2.path = input'.reach m.2.path) :
    Unmoved input input' inside (ofExpression x : Resolver) :=
  (Unmoved.evaluate fun r hr => h (0, r) (List.mem_map_of_mem hr)).comp fun found =>
    Except.ok (Resolution.ofLookup found)

theorem Resolver.orUndefined_unmoved {f : Option Resolver}
    (h : ∀ g, f = some g → Unmoved input input' inside g) :
    Unmoved input input' inside (orUndefined f) := by
  cases f with
  | none => exact .const _
  | some g => exact h g rfl

/-! ## Conditionals -/

namespace Choice

/-- The verdict of the case and what it leads to do not notice the input. -/
structure Unmoved (input input' : Value) (inside : Bool) (c : Choice (Except Error)) : Prop where
  verdict : ∀ value, Scope.Unmoved input input' inside (c.verdict value)
  outcome : ∀ f, c.outcome = some f → Scope.Unmoved input input' inside f

theorem equals_unmoved {f : Resolver} (h : Scope.Unmoved input input' inside f)
    (value : Option Value) : Scope.Unmoved input input' inside (equals f value) :=
  h.bind fun _ => .const _

/-- A schema that decides a case is inside of a validation. -/
theorem passes_unmoved {f : Resolver} (h : Scope.Unmoved input input' true f)
    (value : Option Value) : Scope.Unmoved input input' inside (passes f value) :=
  (h.nest label value).bind fun _ => .const _

/-- Cases that do not notice the input select the same. -/
theorem select_unmoved {otherwise : Option Resolver}
    (ho : ∀ f, otherwise = some f → Scope.Unmoved input input' inside f)
    {choices : List (Choice (Except Error))}
    (hc : ∀ c ∈ choices, c.Unmoved input input' inside) (value discriminator : Option Value) :
    Scope.Unmoved input input' inside fun s => select otherwise value discriminator s choices := by
  induction choices with
  | nil => exact Resolver.orUndefined_unmoved ho
  | cons c rest ih =>
    obtain ⟨hfirst, hrest⟩ := List.forall_mem_cons.1 hc
    refine (hfirst.verdict discriminator).bind fun verdict => ?_
    cases verdict with
    | matched => exact Resolver.orUndefined_unmoved hfirst.outcome
    | missed => exact ih hrest
    | failed errors => exact .const _

end Choice

/-! ## Stages -/

namespace Stages

/-- What the stages are made of does not notice the input. -/
structure Unmoved (input input' : Value) (inside : Bool) (s : Stages (Except Error)) : Prop where
  source : Scope.Unmoved input input' inside s.source
  default : ∀ f, s.default = some f → Scope.Unmoved input input' inside f
  validator : ∀ v, s.validator = some v → ∃ c : Constraint, v = c.validator
  conditional : ∀ apply, s.conditional = some apply →
    ∀ value, Scope.Unmoved input input' inside (apply value)

namespace Unmoved

variable {s : Stages (Except Error)}

theorem fill (h : s.Unmoved input input' inside) (r : Resolution) :
    Scope.Unmoved input input' inside (s.fill r) := by
  unfold Stages.fill
  split
  · rename_i default _ hd
    exact (h.default default hd).bind fun _ => .const _
  · exact .const _

theorem check (h : s.Unmoved input input' inside) (value : Option Value) :
    Scope.Unmoved input input' inside (s.check value) := by
  unfold Stages.check
  split
  · rename_i v hv
    obtain ⟨c, rfl⟩ := h.validator v hv
    exact .validator c value
  · exact .const _

theorem remap (h : s.Unmoved input input' inside) (value : Option Value) :
    Scope.Unmoved input input' inside (s.remap value) := by
  unfold Stages.remap
  split
  · rename_i apply hc
    exact h.conditional apply hc value
  · exact .const _

/-- The stages behind the default only pass the scope on. -/
theorem finish (h : s.Unmoved input input' inside) (r : Resolution) :
    Scope.Unmoved input input' inside (s.finish r) := by
  intro scope subject hi hs
  rw [Stages.finish_eq, Stages.finish_eq, h.check r.value scope subject hi hs]
  rw [h.remap _ scope subject hi hs]

/-- Stages that are made of what does not notice the input do not notice it. -/
theorem run (h : s.Unmoved input input' inside) :
    Scope.Unmoved input input' inside s.run :=
  h.source.bind fun produced => .ite (.stops produced) (.const _) <|
    (h.fill produced).bind fun filled => .ite (.stops filled) (.const _) (h.finish filled)

end Unmoved

end Stages

/-! ## Passes -/

namespace Pass

/-- The containers around a terminal come from the working tree, not from the input. -/
theorem resolveAt_unmoved {f : Resolver} (h : Unmoved input input' inside f) (p : Pass)
    (current : NodeId) (path : Path) :
    Unmoved input input' inside fun s => p.resolveAt s current path f := by
  simp only [resolveAt_eq]
  split
  · exact .const _
  · exact h.localize path _

/-- The working trees are the same, too: they hold what terminals resolved to. -/
theorem resolveAll_unmoved {terminals : List (Path × Resolver)}
    (h : ∀ e ∈ terminals, Unmoved input input' inside e.2) (p : Pass) :
    Unmoved input input' inside fun s => resolveAll s terminals p := by
  induction terminals generalizing p with
  | nil => exact .const _
  | cons e rest ih =>
    obtain ⟨path, f⟩ := e
    obtain ⟨hfirst, hrest⟩ := List.forall_mem_cons.1 h
    unfold resolveAll
    split
    · exact .const _
    · rename_i current _
      refine (resolveAt_unmoved hfirst p current path).bind fun r => ?_
      exact .ite (.stops r) (.const _) (Unmoved.bind (.const _) fun q => ih hrest q)

theorem run_unmoved {skeleton : Arena Slot} {root : NodeId} {terminals : List (Path × Resolver)}
    (h : ∀ e ∈ terminals, Unmoved input input' inside e.2) :
    Unmoved input input' inside (run skeleton root terminals) :=
  (resolveAll_unmoved h (start skeleton root)).bind fun _ => .const _

end Pass

/-! ## Schemas -/

/-- The validators are constraints, the root references read the same in both inputs, and the
schemas have sources of their own where the value under validation is the input. -/
structure Shared (input input' : Value) (inside : Bool) (parts : List Part) (made : List Made)
    (exposed : List Schema) : Prop where
  constraints : ∀ v, .validator v ∈ parts → ∃ c : Constraint, v = c.validator
  roots : ∀ m ∈ made, m.2.anchor = .root → input.reach m.2.path = input'.reach m.2.path
  sources : inside = false → ∀ s ∈ exposed, s.source ≠ .subject

namespace Shared

variable {parts parts' : List Part} {made made' : List Made} {exposed exposed' : List Schema}

/-- What is shared by all parts is shared by some of them. -/
theorem mono (h : Shared input input' inside parts made exposed) (hp : parts' ⊆ parts)
    (hm : made' ⊆ made) (he : exposed' ⊆ exposed) :
    Shared input input' inside parts' made' exposed' :=
  ⟨fun v hv => h.constraints v (hp hv), fun m hmem => h.roots m (hm hmem),
    fun hout s hs => h.sources hout s (he hs)⟩

theorem left (h : Shared input input' inside (parts ++ parts') (made ++ made')
    (exposed ++ exposed')) : Shared input input' inside parts made exposed :=
  h.mono (List.subset_append_left _ _) (List.subset_append_left _ _) (List.subset_append_left _ _)

theorem right (h : Shared input input' inside (parts ++ parts') (made ++ made')
    (exposed ++ exposed')) : Shared input input' inside parts' made' exposed' :=
  h.mono (List.subset_append_right _ _) (List.subset_append_right _ _)
    (List.subset_append_right _ _)

/-- Seen from the place of the tree, a reference has the same anchor and the same path. -/
theorem of_deeper {depth : Nat}
    (h : Shared input input' inside parts (made.map (Made.deeper depth)) exposed) :
    Shared input input' inside parts made exposed :=
  { h with roots := fun m hm => h.roots (m.deeper depth) (List.mem_map_of_mem hm) }

/-- Inside a schema that decides a case, no schema needs a source of its own. -/
theorem enter (h : Shared input input' inside parts made exposed) (exposed' : List Schema) :
    Shared input input' true parts made exposed' :=
  { h with sources := fun hout => absurd hout (by decide) }

/-! What a schema shares, its source, its default, its validator and its conditional share. -/

section

variable {s : Schema}

theorem of_source (h : Shared input input' inside s.parts s.made s.exposed) :
    Shared input input' inside s.source.parts s.source.made s.source.exposed := by
  cases s
  exact h.mono (fun p hp => by simp [Schema.parts, hp]) (fun m hm => by simp [Schema.made, hm])
    fun s hs => by simp [Schema.exposed, hs]

theorem of_default (h : Shared input input' inside s.parts s.made s.exposed) :
    Shared input input' inside (partsOfTree? s.default) (madeInTree? s.default)
      (exposedInTree? s.default) := by
  cases s
  exact h.mono (fun p hp => by simp [Schema.parts, hp]) (fun m hm => by simp [Schema.made, hm])
    fun s hs => by simp [Schema.exposed, hs]

theorem of_conditional (h : Shared input input' inside s.parts s.made s.exposed) :
    Shared input input' inside (partsOfConditional? s.conditional)
      (madeInConditional? s.conditional) (exposedInConditional? s.conditional) := by
  cases s
  exact h.mono (fun p hp => by simp [Schema.parts, hp]) (fun m hm => by simp [Schema.made, hm])
    fun s hs => by simp [Schema.exposed, hs]

theorem of_validator (h : Shared input input' inside s.parts s.made s.exposed) {v : Validator}
    (hv : s.validator = some v) : ∃ c : Constraint, v = c.validator := by
  cases s
  obtain rfl := hv
  exact h.constraints v (by simp [Schema.parts])

/-- Outside of validations no source is the value under validation. -/
theorem own_source (h : Shared input input' inside s.parts s.made s.exposed)
    (hout : inside = false) : s.source ≠ .subject := by
  cases s
  exact h.sources hout _ (by rw [Schema.exposed]; exact List.mem_cons_self)

end

end Shared

mutual

/-- What a terminal resolves to depends on what root references read of the input. -/
theorem Terminal.resolver_unmoved (t : Terminal) (inside : Bool)
    (h : Shared input input' inside t.parts t.made t.exposed) :
    Unmoved input input' inside t.resolver := by
  match t with
  | .reference r => exact Resolver.ofReference_unmoved h.roots
  | .expression x => exact Resolver.ofExpression_unmoved h.roots
  | .schema s => exact s.resolver_unmoved inside h
termination_by structural t

/-- What a schema resolves to depends on what root references read of the input. -/
theorem Schema.resolver_unmoved (s : Schema) (inside : Bool)
    (h : Shared input input' inside s.parts s.made s.exposed) :
    Unmoved input input' inside s.resolver := by
  match s with
  | ⟨source, default, validator, required, conditional, strip⟩ =>
    rw [Schema.resolver_eq]
    split
    · exact .const _
    · exact Stages.Unmoved.run
        { source := source.resolver_unmoved inside h.of_source h.own_source
          default := resolverOfTree?_unmoved default inside h.of_default
          validator := fun v => h.of_validator
          conditional := mappingOf?_unmoved conditional inside h.of_conditional }
termination_by structural s

/-- A source does not notice the input, unless it is the value under validation of a schema
outside. -/
theorem Source.resolver_unmoved (s : Source) (inside : Bool)
    (h : Shared input input' inside s.parts s.made s.exposed)
    (hown : inside = false → s ≠ .subject) : Unmoved input input' inside s.resolver := by
  match s with
  | .subject =>
    cases inside with
    | false => exact absurd rfl (hown rfl)
    | true => exact Unmoved.subject.comp fun v => (.ok ⟨v, []⟩ : Except Error Resolution)
  | .literal v => exact .const _
  | .tree t => exact t.resolver_unmoved inside h
  | .reference r => exact Resolver.ofReference_unmoved h.roots
  | .expression x => exact Resolver.ofExpression_unmoved h.roots
termination_by structural s

/-- A tree does not notice the input if its terminals do not. -/
theorem ValueTree.resolver_unmoved (t : ValueTree) (inside : Bool)
    (h : Shared input input' inside t.parts t.made t.exposed) :
    Unmoved input input' inside t.resolver := by
  match t with
  | ⟨skeleton, root, sites, order, rootedOrder⟩ =>
    have hsites := resolversOfSites_unmoved sites inside
      (h.mono (List.subset_cons_self _ _) (List.Subset.refl _) (List.Subset.refl _))
    have horder : Unmoved input input' inside (ValueTree.orderIn order rootedOrder) :=
      fun _ _ _ _ => rfl
    exact horder.bind fun order => Pass.run_unmoved fun e he => hsites e (ValueTree.mem_arrange he)
termination_by structural t

theorem resolversOfSites_unmoved (sites : List Site) (inside : Bool)
    (h : Shared input input' inside (partsOfSites sites) (madeInSites sites)
      (exposedInSites sites)) :
    ∀ e ∈ resolversOfSites sites, Unmoved input input' inside e.2 := by
  match sites with
  | [] => exact fun e he => absurd he List.not_mem_nil
  | ⟨path, terminal⟩ :: rest =>
    exact List.forall_mem_cons.2 ⟨terminal.resolver_unmoved inside h.left.of_deeper,
      resolversOfSites_unmoved rest inside h.right⟩
termination_by structural sites

theorem resolverOfTree?_unmoved (t : Option ValueTree) (inside : Bool)
    (h : Shared input input' inside (partsOfTree? t) (madeInTree? t) (exposedInTree? t)) :
    ∀ f, resolverOfTree? t = some f → Unmoved input input' inside f := by
  match t with
  | none => exact fun f hf => absurd hf (by simp)
  | some t =>
    intro f hf
    obtain rfl := Option.some.inj hf
    exact t.resolver_unmoved inside h
termination_by structural t

theorem mappingOf?_unmoved (c : Option Conditional) (inside : Bool)
    (h : Shared input input' inside (partsOfConditional? c) (madeInConditional? c)
      (exposedInConditional? c)) :
    ∀ apply, mappingOf? c = some apply → ∀ value, Unmoved input input' inside (apply value) := by
  match c with
  | none => exact fun apply happly => absurd happly (by simp)
  | some c =>
    intro apply happly
    obtain rfl := Option.some.inj happly
    exact c.mapping_unmoved inside h
termination_by structural c

/-- A conditional does not notice the input if its cases do not. -/
theorem Conditional.mapping_unmoved (c : Conditional) (inside : Bool)
    (h : Shared input input' inside c.parts c.made c.exposed) (value : Option Value) :
    Unmoved input input' inside (c.mapping value) := by
  match c with
  | ⟨subject, branches, otherwise⟩ =>
    exact Choice.select_unmoved (resolverOfTree?_unmoved otherwise inside h.right)
      (choicesOf_unmoved branches inside h.left) value _
termination_by structural c

theorem choicesOf_unmoved (branches : List Branch) (inside : Bool)
    (h : Shared input input' inside (partsOfBranches branches) (madeInBranches branches)
      (exposedInBranches branches)) :
    ∀ c ∈ choicesOf branches, c.Unmoved input input' inside := by
  match branches with
  | [] => exact fun c hc => absurd hc List.not_mem_nil
  | ⟨pattern, outcome⟩ :: rest =>
    exact List.forall_mem_cons.2 ⟨⟨pattern.verdict_unmoved inside h.left.left,
      resolverOfTree?_unmoved outcome inside h.left.right⟩, choicesOf_unmoved rest inside h.right⟩
termination_by structural branches

/-- A pattern comes to the same verdict; a schema is inside of a validation then. -/
theorem Pattern.verdict_unmoved (p : Pattern) (inside : Bool)
    (h : Shared input input' inside p.parts p.made p.exposed) (value : Option Value) :
    Unmoved input input' inside (p.verdict value) := by
  match p with
  | .equals t => exact Choice.equals_unmoved (t.resolver_unmoved inside h) value
  | .schema s => exact Choice.passes_unmoved (s.resolver_unmoved true (h.enter s.exposed)) value
termination_by structural p

end

namespace Schema

/-- A schema whose validators are constraints, and in which every schema outside of those that
decide a case has a source of its own, has the same outcome for two inputs that are the same at the
path of every root reference in it. -/
theorem resolve_named_input {s : Schema}
    (hconstraints : ∀ v, .validator v ∈ s.parts → ∃ c : Constraint, v = c.validator)
    (hsources : ∀ inner ∈ s.exposed, inner.source ≠ .subject)
    (hroots : ∀ m ∈ s.made, m.2.anchor = .root →
      input.reach m.2.path = input'.reach m.2.path) (prefs : Preferences) :
    s.resolve input prefs = s.resolve input' prefs :=
  (s.resolver_unmoved false ⟨hconstraints, hroots, fun _ => hsources⟩ (Scope.ofInput input prefs)
    (some input') rfl (fun h => absurd h (by decide))).symm

/-- Whether something is a number, for which there is no source. -/
def isNumber : Schema where
  source := .subject
  default := none
  validator := some Constraint.number.validator
  required := true
  conditional := none
  strip := false

/-- The value of `x`, or else of `y`, except that a number gives the value of `z`; and the same
again. -/
def chosenTwice : Except Error Schema := do
  let chosen ← SchemaSpec.build
    { source := .reference ⟨.root, [.field "x"]⟩
      default := some (.reference ⟨.root, [.field "y"]⟩)
      conditional := some
        { cases := [{ matcher := .schema isNumber,
                      outcome := some (.reference ⟨.root, [.field "z"]⟩) }]
          otherwise := some (.reference ⟨.root, [.field "x"]⟩) } }
  SchemaSpec.build
    { source := .tree
        (.map [("a", .schema chosen), ("b", .reference ⟨.relative 1, [.field "a"]⟩)]) }

/-- An input in which `x` is a number, with something else at `w`. -/
def withExtra (w : Value) : Value :=
  .object [("w", w), ("x", .number (.whole 1)), ("z", .string "one")]

/-- What is at `w` does not count, though the schema that decides the case has no source. -/
theorem resolve_named_input_extra : ∃ s, chosenTwice = .ok s ∧
    withExtra .null ≠ withExtra (.bool true) ∧
    s.resolve (withExtra .null) {} = s.resolve (withExtra (.bool true)) {} ∧
    ∃ r, s.resolve (withExtra .null) {} = .ok r ∧ r.errors = [] ∧
      Value.sameOption r.value
        (some (.object [("a", .string "one"), ("b", .string "one")])) = true := by
  have hrun : ((chosenTwice.toOption.bind fun s => (s.resolve (withExtra .null) {}).toOption).map
      fun r => (r.errors, Value.sameOption r.value
        (some (.object [("a", .string "one"), ("b", .string "one")])))) = some ([], true) := by
    decide +kernel
  refine ⟨_, rfl, by simp [withExtra], resolve_named_input ?_ ?_ ?_ {}, ?_⟩
  · intro v hv
    have hv : Part.validator v ∈ [Part.tree _, Part.tree _,
      Part.validator Constraint.number.validator, Part.tree _, Part.tree _] := hv
    exact ⟨.number, by simpa using hv⟩
  · intro inner hinner
    have hinner : inner ∈ [_, _] := hinner
    simp only [List.mem_cons, List.not_mem_nil, or_false] at hinner
    rcases hinner with rfl | rfl <;> simp
  · intro m hm
    have hm : m ∈ [_, _, _, _, _] := hm
    simp only [List.mem_cons, List.not_mem_nil, or_false] at hm
    rcases hm with rfl | rfl | rfl | rfl | rfl <;> exact fun _ => rfl
  · obtain ⟨r, hr, hvalue⟩ := Option.map_eq_some_iff.1 hrun
    obtain ⟨s, hs, hres⟩ := Option.bind_eq_some_iff.1 hr
    obtain rfl := Option.some.inj hs
    obtain ⟨herrors, hsame⟩ := Prod.mk.inj hvalue
    exact ⟨r, eq_ok_of_toOption hres, herrors, hsame⟩

end Schema

end ValueResolution
