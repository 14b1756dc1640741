import ValueResolution.Proofs.Ending
import ValueResolution.Proofs.References.Made
import ValueResolution.Proofs.Schema.Parts
/-!
# How resolving can fail

Resolving a built schema gives a resolution, or the error of a cycle; no look-up, no write and no
removal in a tree fails. `Settled` says so of an outcome, and where a cycle may not occur it says
that there is no error at all. It goes through every way of putting resolvers together, and through
a pass, in which every terminal finds the containers around its place and the slot there
(`Pass.traceAll_settles`).

A cycle is found only by an outermost tree whose rooted order does not exist, and only level
references can make a difference between that order and the one that the tree was compiled with
(`ValueTree.CompiledFrom.rootedOrder_of_levelless`).
-/

set_option autoImplicit false

namespace ValueResolution

/-- The outcome is a success or, if there `may` be one, a cycle. -/
def Settled {α : Type} (may : Prop) (x : Except Error α) : Prop :=
  (∃ a, x = .ok a) ∨ may ∧ ∃ key, x = .error (.dependencyCycle key)

/-- In every scope the resolver gives a resolution or, if there may be one, a cycle. A cycle is
found in a scope without containers only. -/
def Resolver.Settles (may : Prop) (r : Resolver) : Prop :=
  ∀ scope, Settled (may ∧ scope.frames = []) (r scope)

variable {may : Prop}

namespace Settled

variable {α β : Type}

theorem ok (a : α) : Settled may (.ok a : Except Error α) := Or.inl ⟨a, rfl⟩

/-- Two computations in a row settle if the second does for whatever the first gives. -/
theorem bind {x : Except Error α} {f : α → Except Error β} (hx : Settled may x)
    (hf : ∀ a, x = .ok a → Settled may (f a)) : Settled may (x >>= f) := by
  rcases hx with ⟨a, rfl⟩ | ⟨hmay, key, rfl⟩
  · exact hf a rfl
  · exact Or.inr ⟨hmay, key, rfl⟩

theorem map {x : Except Error α} (hx : Settled may x) (f : α → β) : Settled may (x.map f) :=
  hx.bind fun a _ => ok (f a)

/-- What settles under a condition settles under a weaker one. -/
theorem imp {x : Except Error α} {may' : Prop} (hx : Settled may x) (h : may → may') :
    Settled may' x :=
  hx.imp_right (And.imp_left h)

end Settled

/-! ## Conditionals and stages -/

namespace Resolver

theorem orUndefined_settles {r : Option Resolver} (h : ∀ r', r = some r' → Settles may r') :
    Settles may (orUndefined r) := by
  cases r with
  | none => exact fun _ => .ok _
  | some r => exact h r rfl

end Resolver

namespace Choice

theorem equals_settles {r : Resolver} (h : r.Settles may) (value : Option Value) (scope : Scope) :
    Settled (may ∧ scope.frames = []) (equals r value scope) := by
  refine (h scope).bind fun expected _ => ?_
  split
  · exact .ok _
  · split
    · exact .ok _
    · exact .ok _

theorem passes_settles {r : Resolver} (h : r.Settles may) (value : Option Value) (scope : Scope) :
    Settled (may ∧ scope.frames = []) (passes r value scope) :=
  (h (scope.nest label value)).bind fun _ _ => .ok _

/-- The case and what it leads to settle. -/
structure Settles (may : Prop) (c : Choice (Except Error)) : Prop where
  verdict : ∀ value scope, Settled (may ∧ scope.frames = []) (c.verdict value scope)
  outcome : ∀ r, c.outcome = some r → Resolver.Settles may r

/-- A conditional settles if its cases and their outcomes do. -/
theorem select_settles {otherwise : Option Resolver}
    (ho : ∀ r, otherwise = some r → Resolver.Settles may r) {choices : List (Choice (Except Error))}
    (hc : ∀ c ∈ choices, c.Settles may) (value discriminator : Option Value) :
    Resolver.Settles may fun scope => select otherwise value discriminator scope choices := by
  intro scope
  induction choices with
  | nil => exact Resolver.orUndefined_settles ho scope
  | cons c rest ih =>
    obtain ⟨hfirst, hrest⟩ := List.forall_mem_cons.1 hc
    refine (hfirst.verdict discriminator scope).bind fun verdict _ => ?_
    cases verdict with
    | matched => exact Resolver.orUndefined_settles hfirst.outcome scope
    | missed => exact ih hrest
    | failed errors => exact .ok _

end Choice

namespace Stages

/-- What settling of the stages comes from. -/
structure Settle (may : Prop) (s : Stages (Except Error)) : Prop where
  source : Resolver.Settles may s.source
  default : ∀ r, s.default = some r → Resolver.Settles may r
  conditional : ∀ apply, s.conditional = some apply → ∀ value, Resolver.Settles may (apply value)

variable {s : Stages (Except Error)}

theorem Settle.fill (h : s.Settle may) (r : Resolution) (scope : Scope) :
    Settled (may ∧ scope.frames = []) (s.fill r scope) := by
  unfold Stages.fill
  split
  · rename_i default _ hd
    exact (h.default default hd scope).bind fun _ _ => .ok _
  · exact .ok _

theorem Settle.remap (h : s.Settle may) (value : Option Value) (scope : Scope) :
    Settled (may ∧ scope.frames = []) (s.remap value scope) := by
  unfold Stages.remap
  split
  · rename_i apply hc
    exact h.conditional apply hc value scope
  · exact .ok _

/-- The stages behind the default settle, as only the conditional can fail there. -/
theorem Settle.finish (h : s.Settle may) (r : Resolution) (scope : Scope) :
    Settled (may ∧ scope.frames = []) (s.finish r scope) := by
  rw [Stages.finish_eq]
  split
  · exact .ok _
  · split
    · exact .ok _
    · exact (h.remap _ scope).bind fun _ _ => .ok _

/-- Stages settle if their source, their default and their conditional do. -/
theorem Settle.run (h : s.Settle may) : Resolver.Settles may s.run := by
  refine fun scope => (h.source scope).bind fun produced _ => ?_
  split
  · exact .ok _
  · refine (h.fill produced scope).bind fun filled _ => ?_
    split
    · exact .ok _
    · exact h.finish filled scope

end Stages

/-! ## Passes -/

namespace Pass

/-- A run over terminals whose slots are empty settles when the terminals do. It finds a cycle only
at the root of the outermost tree, since every other terminal has containers around it. -/
theorem traceAll_settles {scope : Scope} {n : Node} {ts : List (Path × Resolver)}
    (h : ∀ e ∈ ts, Resolver.Settles may e.2) (hsites : ∀ e ∈ ts, ∃ site ∈ n.sites, site.path = e.1)
    (hn : (ts.map Prod.fst).Nodup) {p : Pass} {σ : Path → Slot} (hp : p.Shows n σ)
    (hσ : ∀ e ∈ ts, σ e.1 = none) :
    Settled (may ∧ scope.frames = [] ∧ [] ∈ ts.map Prod.fst) (traceAll scope ts p) := by
  induction ts generalizing p σ with
  | nil => exact .ok _
  | cons e rest ih =>
    obtain ⟨path, resolve⟩ := e
    obtain ⟨hfirst, hlater⟩ : Resolver.Settles may resolve ∧ ∀ e ∈ rest, e.2.Settles may :=
      List.forall_mem_cons.1 h
    obtain ⟨⟨site, hsite, rfl⟩, hsites'⟩ := List.forall_mem_cons.1 hsites
    obtain ⟨hout, hn'⟩ := List.nodup_cons.1 hn
    obtain ⟨hfree, hσ'⟩ := List.forall_mem_cons.1 hσ
    obtain ⟨u, hroot, -⟩ := id hp
    obtain ⟨frames, hframes, hlen⟩ := hp.exists_frames hsite hroot
    rw [traceAll_step hroot]
    simp only [hframes]
    rcases hfirst (scope.localize site.path frames) with ⟨r, hr⟩ | ⟨⟨hmay, hnil⟩, key, hr⟩
    · simp only [hr]
      split
      · exact .ok _
      · obtain ⟨q, hq, hshows⟩ := (hp.note site.path r).record hsite hfree hroot r.value
        simp only [hq]
        have hempty : ∀ e ∈ rest, Function.update σ site.path r.value e.1 = none := by
          intro e he
          rw [Function.update_of_ne (ne_of_mem_of_not_mem (List.mem_map_of_mem he) hout)]
          exact hσ' e he
        exact ((ih hlater hsites' hn' hshows hempty).imp fun h =>
          ⟨h.1, h.2.1, List.mem_cons_of_mem _ h.2.2⟩).map _
    · simp only [hr]
      obtain ⟨rfl, hnil⟩ := List.append_eq_nil_iff.1 hnil
      have hpath : site.path = [] := List.length_eq_zero_iff.1 hlen.symm
      exact Or.inr ⟨⟨hmay, hnil, hpath ▸ List.mem_cons_self⟩, key, rfl⟩

end Pass

namespace ValueTree

/-- Without level references the outermost tree has the order it was compiled with. -/
theorem CompiledFrom.rootedOrder_of_levelless {t : ValueTree} {n : Node} (h : t.CompiledFrom n)
    (hl : ∀ site ∈ n.sites, ∀ r ∈ site.terminal.references, r.isLevel = false) :
    t.rootedOrder = .ok t.order := by
  have hsame : ((terminalsOf n).map fun t => (t.1, t.2.filter countsNested)) = terminalsOf n := by
    rw [terminalsOf, List.map_map]
    refine List.map_congr_left fun site hsite => ?_
    have hkeep : site.terminal.references.filter countsNested = site.terminal.references :=
      List.filter_eq_self.2 fun r hr => by simp [countsNested, hl site hsite r hr]
    simp [hkeep]
  rw [h.rootedOrder, ← h.order, resolutionOrder_false, hsame]

/-- The trace of a compiled tree settles when there is an order and its terminals settle. It finds a
cycle only if it is the outermost one and has a terminal at its root. -/
theorem CompiledFrom.tracePass_settles {t : ValueTree} {n : Node} (hc : t.CompiledFrom n)
    {scope : Scope} {order : List Path} (ho : orderIn t.order t.rootedOrder scope = .ok order)
    (h : ∀ e ∈ resolversOfSites t.sites, Resolver.Settles may e.2) :
    Settled (may ∧ scope.frames = [] ∧ [] ∈ order) (t.tracePass scope) := by
  have hperm := hc.order_perm ho
  have hpaths := hc.arrange_paths hperm
  have hrun : Settled
      (may ∧ scope.frames = [] ∧ [] ∈ (arrange (resolversOfSites t.sites) order).map Prod.fst)
      (Pass.traceAll scope (arrange (resolversOfSites t.sites) order)
        (Pass.start t.skeleton t.root)) := by
    refine Pass.traceAll_settles (fun e he => h e (mem_arrange he)) (fun e he => ?_) ?_
      hc.start_shows fun _ _ => rfl
    · obtain ⟨site, hs, hp, -⟩ := hc.mem_arrange_sites he
      exact ⟨site, hs, hp⟩
    · rw [hpaths]
      exact hperm.nodup_iff.2 n.nodup_sites
  rw [hpaths] at hrun
  rw [tracePass, ho]
  exact hrun

/-- A compiled tree settles when its terminals do, and it has a rooted order unless a cycle may be
found. -/
theorem CompiledFrom.resolver_settles {t : ValueTree} {n : Node} (hc : t.CompiledFrom n)
    (horder : may ∨ ∃ order, t.rootedOrder = .ok order)
    (h : ∀ e ∈ resolversOfSites t.sites, Resolver.Settles may e.2) :
    t.resolver.Settles may := by
  intro scope
  have ho : Settled (may ∧ scope.frames = []) (orderIn t.order t.rootedOrder scope) := by
    unfold orderIn
    split
    · rename_i hnil
      cases hr : t.rootedOrder with
      | ok order => exact .ok _
      | error key =>
        refine Or.inr ⟨⟨horder.resolve_right ?_, List.isEmpty_iff.1 hnil⟩, key, rfl⟩
        rintro ⟨order, hother⟩
        simp [hr] at hother
    · exact .ok _
  rcases ho with ⟨order, ho⟩ | ⟨hmay, key, ho⟩
  · have htrace : Settled (may ∧ scope.frames = []) (t.tracePass scope) :=
      (hc.tracePass_settles ho h).imp fun h => ⟨h.1, h.2.1⟩
    rw [resolver_eq]
    refine htrace.bind fun out hout => ?_
    obtain ⟨steps, p, stopped⟩ := out
    obtain ⟨-, -, r, -, hclose, -⟩ := hc.close hout
    exact Or.inl ⟨r, hclose⟩
  · rw [resolver_run, ho]
    exact Or.inr ⟨hmay, key, rfl⟩

/-- An outermost tree that is no terminal itself resolves exactly when it has a rooted order. -/
theorem CompiledFrom.exists_resolution_iff {t : ValueTree} {n : Node} (hc : t.CompiledFrom n)
    (hn : ∀ terminal, n ≠ .terminal terminal)
    (h : ∀ e ∈ resolversOfSites t.sites, Resolver.Settles True e.2) {scope : Scope}
    (hframes : scope.frames = []) :
    (∃ r, t.resolver scope = .ok r) ↔ ∃ order, t.rootedOrder = .ok order := by
  constructor
  · rintro ⟨r, hr⟩
    obtain ⟨order, -, -, ho, -⟩ := hc.resolved hr
    exact ⟨order, rootedOrder_of_orderIn hframes ho⟩
  · rintro ⟨order, ho⟩
    have ho : orderIn t.order t.rootedOrder scope = .ok order :=
      orderIn_eq_ok_iff.2 (Or.inl ⟨hframes, ho⟩)
    have hroot : [] ∉ order := by
      intro hmem
      obtain ⟨site, hsite, hpath⟩ := List.mem_map.1 ((hc.order_perm ho).subset hmem)
      rcases Node.mem_sites.1 hsite with ⟨terminal, heq, -⟩ | ⟨slot, child, -, inner, -, rfl⟩
      · exact hn terminal heq
      · simp [Site.inside] at hpath
    obtain ⟨⟨steps, p, stopped⟩, hrun⟩ :=
      (hc.tracePass_settles ho h).resolve_right fun hcycle => hroot hcycle.1.2.2
    have htrace : t.trace scope = .ok steps := by
      rw [trace, hrun]
      rfl
    exact hc.resolver_of_trace htrace

end ValueTree

/-! ## Schemas -/

/-- None of the references counts from the outermost container. -/
def Levelless (made : List Made) : Prop := ∀ m ∈ made, m.2.isLevel = false

theorem levelless_append {made more : List Made} :
    Levelless (made ++ more) ↔ Levelless made ∧ Levelless more :=
  List.forall_mem_append

/-- Going into a tree does not change the kind of an anchor. -/
theorem levelless_deeper {made : List Made} {depth : Nat} :
    Levelless (made.map (Made.deeper depth)) ↔ Levelless made :=
  List.forall_mem_map

/-- A reference that leaves a terminal counts from the outermost container only if one that is made
in it does. -/
theorem Levelless.references {t : Terminal} (h : Levelless t.made) :
    ∀ r ∈ t.references, r.isLevel = false := by
  intro r hr
  obtain ⟨m, hm, -, hlevel⟩ := t.exists_made hr
  rw [hlevel, h m hm]

/-- What a terminal makes is among what its tree makes, from further inside. -/
theorem mem_madeInSites {sites : List Site} {site : Site} (h : site ∈ sites) :
    site.terminal.made.map (Made.deeper site.path.length) ⊆ madeInSites sites := by
  induction sites with
  | nil => exact absurd h List.not_mem_nil
  | cons first rest ih =>
    obtain ⟨path, terminal⟩ := first
    rw [madeInSites]
    rcases List.mem_cons.1 h with rfl | h
    · exact List.subset_append_left _ _
    · exact fun m hm => List.mem_append_right _ (ih h hm)

/-- A terminal of a tree without level references makes none. -/
theorem Levelless.of_site {sites : List Site} (h : Levelless (madeInSites sites)) {site : Site}
    (hsite : site ∈ sites) : Levelless site.terminal.made :=
  levelless_deeper.1 fun m hm => h m (mem_madeInSites hsite hm)

mutual

/-- A terminal settles when all its trees come from nodes; without level references it finds no
cycle. -/
theorem Terminal.settles (t : Terminal) (hc : Compiled t.parts) (hl : may ∨ Levelless t.made) :
    t.resolver.Settles may := by
  match t with
  | .reference r => exact fun _ => .ok _
  | .expression x => exact fun _ => .ok _
  | .schema s => exact s.settles hc hl
termination_by structural t

/-- A schema settles when all its trees come from nodes. -/
theorem Schema.settles (s : Schema) (hc : Compiled s.parts) (hl : may ∨ Levelless s.made) :
    s.resolver.Settles may := by
  match s with
  | ⟨source, default, validator, required, conditional, strip⟩ =>
    obtain ⟨hc, hconditional⟩ := compiled_append.1 hc
    obtain ⟨hc, -⟩ := compiled_append.1 hc
    obtain ⟨hsource, hdefault⟩ := compiled_append.1 hc
    rw [Schema.made, levelless_append, levelless_append] at hl
    rw [Schema.resolver_eq]
    split
    · exact fun _ => .ok _
    · exact Stages.Settle.run
        { source := source.settles hsource (hl.imp_right fun h => h.1.1)
          default := settles_of_tree? default hdefault (hl.imp_right fun h => h.1.2)
          conditional := settles_of_conditional? conditional hconditional
            (hl.imp_right fun h => h.2) }
termination_by structural s

/-- A source settles if its tree does. -/
theorem Source.settles (s : Source) (hc : Compiled s.parts) (hl : may ∨ Levelless s.made) :
    s.resolver.Settles may := by
  match s with
  | .subject => exact fun _ => .ok _
  | .literal v => exact fun _ => .ok _
  | .tree t => exact t.settles hc hl
  | .reference r => exact fun _ => .ok _
  | .expression x => exact fun _ => .ok _
termination_by structural s

/-- A compiled tree settles if its terminals do; without level references it has an order as the
outermost one, too. -/
theorem ValueTree.settles (t : ValueTree) (hc : Compiled t.parts) (hl : may ∨ Levelless t.made) :
    t.resolver.Settles may := by
  match t with
  | ⟨skeleton, root, sites, order, rootedOrder⟩ =>
    obtain ⟨n, hn⟩ := hc _ List.mem_cons_self
    have hfrom := ValueTree.compiledFrom_of_compile hn
    have hsites : sites = n.sites := hfrom.sites
    refine hfrom.resolver_settles (hl.imp_right fun hl => ⟨order, ?_⟩)
      (settles_of_sites sites (fun t ht => hc t (List.mem_cons_of_mem _ ht)) hl)
    exact hfrom.rootedOrder_of_levelless fun site hsite =>
      (hl.of_site (hsites.symm ▸ hsite)).references
termination_by structural t

theorem settles_of_sites (sites : List Site) (hc : Compiled (partsOfSites sites))
    (hl : may ∨ Levelless (madeInSites sites)) :
    ∀ e ∈ resolversOfSites sites, Resolver.Settles may e.2 := by
  match sites with
  | [] =>
    intro e he
    exact absurd he List.not_mem_nil
  | ⟨path, terminal⟩ :: rest =>
    obtain ⟨hfirst, hrest⟩ := compiled_append.1 hc
    rw [madeInSites, levelless_append, levelless_deeper] at hl
    exact List.forall_mem_cons.2 ⟨terminal.settles hfirst (hl.imp_right fun h => h.1),
      settles_of_sites rest hrest (hl.imp_right fun h => h.2)⟩
termination_by structural sites

theorem settles_of_tree? (t : Option ValueTree) (hc : Compiled (partsOfTree? t))
    (hl : may ∨ Levelless (madeInTree? t)) :
    ∀ r, resolverOfTree? t = some r → r.Settles may := by
  match t with
  | none =>
    intro r hr
    exact absurd hr (by simp)
  | some t =>
    intro r hr
    obtain rfl := Option.some.inj hr
    exact t.settles hc hl
termination_by structural t

theorem settles_of_conditional? (c : Option Conditional) (hc : Compiled (partsOfConditional? c))
    (hl : may ∨ Levelless (madeInConditional? c)) :
    ∀ apply, mappingOf? c = some apply → ∀ value, Resolver.Settles may (apply value) := by
  match c with
  | none =>
    intro apply happly
    exact absurd happly (by simp)
  | some c =>
    intro apply happly
    obtain rfl := Option.some.inj happly
    exact c.settles hc hl
termination_by structural c

/-- A conditional settles if its trees and schemas do. -/
theorem Conditional.settles (c : Conditional) (hc : Compiled c.parts)
    (hl : may ∨ Levelless c.made) (value : Option Value) :
    Resolver.Settles may (c.mapping value) := by
  match c with
  | ⟨subject, branches, otherwise⟩ =>
    obtain ⟨hbranches, hotherwise⟩ := compiled_append.1 hc
    rw [Conditional.made, levelless_append] at hl
    exact Choice.select_settles (settles_of_tree? otherwise hotherwise (hl.imp_right fun h => h.2))
      (settles_of_branches branches hbranches (hl.imp_right fun h => h.1)) value _
termination_by structural c

theorem settles_of_branches (branches : List Branch) (hc : Compiled (partsOfBranches branches))
    (hl : may ∨ Levelless (madeInBranches branches)) :
    ∀ c ∈ choicesOf branches, c.Settles may := by
  match branches with
  | [] =>
    intro c hc
    exact absurd hc List.not_mem_nil
  | ⟨pattern, outcome⟩ :: rest =>
    obtain ⟨hc, hrest⟩ := compiled_append.1 hc
    obtain ⟨hpattern, houtcome⟩ := compiled_append.1 hc
    rw [madeInBranches, levelless_append, levelless_append] at hl
    exact List.forall_mem_cons.2
      ⟨⟨pattern.settles hpattern (hl.imp_right fun h => h.1.1),
          settles_of_tree? outcome houtcome (hl.imp_right fun h => h.1.2)⟩,
        settles_of_branches rest hrest (hl.imp_right fun h => h.2)⟩
termination_by structural branches

/-- A pattern comes to a verdict if what it compares with settles. -/
theorem Pattern.settles (p : Pattern) (hc : Compiled p.parts) (hl : may ∨ Levelless p.made) :
    ∀ value scope, Settled (may ∧ scope.frames = []) (p.verdict value scope) := by
  match p with
  | .equals t => exact Choice.equals_settles (t.settles hc hl)
  | .schema s => exact Choice.passes_settles (s.settles hc hl)
termination_by structural p

end

namespace Schema

/-- Resolving a built schema gives a resolution or the error of a cycle, and without level
references it always gives a resolution. -/
theorem resolve_settles {s : Schema} (hs : s.Built) (input : Value) (prefs : Preferences) :
    ((∃ r, s.resolve input prefs = .ok r) ∨
      ∃ key, s.resolve input prefs = .error (.dependencyCycle key)) ∧
    ((∀ m ∈ s.made, m.2.isLevel = false) → ∃ r, s.resolve input prefs = .ok r) := by
  constructor
  · exact (s.settles hs.compiled (Or.inl True.intro) (.ofInput input prefs)).imp_right And.right
  · intro hl
    exact (s.settles hs.compiled (Or.inr hl) (.ofInput input prefs)).resolve_right fun h => h.1.1

/-! ### Removals that move each other, and a cycle -/

/-- A sequence that loses items at two depths. -/
def thinned : Node := .seq
  [.reference ⟨.root, [.field "a"]⟩, .seq [.literal .null, .reference ⟨.root, [.field "b"]⟩],
    .reference ⟨.root, [.field "c"]⟩, .reference ⟨.relative 1, [.index 2]⟩]

def thinnedTree : ValueTree :=
  ValueTree.ofOrder thinned [[.index 0], [.index 1, .index 1], [.index 2], [.index 3]]

/-- Two terminals that wait for each other once their tree is the outermost one. -/
def crossed : Node := .map
  [("a", .reference ⟨.level 0, [.field "b"]⟩), ("b", .reference ⟨.level 0, [.field "a"]⟩)]

def crossedTree : ValueTree := ValueTree.ofOrder crossed [[.field "a"], [.field "b"]]

theorem thinned_built : (ofTree thinnedTree).Built :=
  built_ofTree (ValueTree.compile_of_order (n := thinned) (by decide +kernel))
    fun _ h => absurd h List.not_mem_nil

theorem crossed_built : (ofTree crossedTree).Built :=
  built_ofTree (ValueTree.compile_of_order (n := crossed) (by decide +kernel))
    fun _ h => absurd h List.not_mem_nil

/-- Without level references a schema resolves; with them its terminals can wait for each other. -/
theorem resolve_settles_both :
    ((ofTree thinnedTree).Built ∧ (∀ m ∈ (ofTree thinnedTree).made, m.2.isLevel = false) ∧
      ∃ r, (ofTree thinnedTree).resolve .null {} = .ok r) ∧
    (ofTree crossedTree).Built ∧
      ∃ key, (ofTree crossedTree).resolve .null {} = .error (.dependencyCycle key) := by
  have hl : ∀ m ∈ (ofTree thinnedTree).made, m.2.isLevel = false := by decide +kernel
  have hcycle : ((ofTree crossedTree).resolve .null {}).toOption.isSome = false := by
    decide +kernel
  refine ⟨⟨thinned_built, hl, (resolve_settles thinned_built .null {}).2 hl⟩, crossed_built, ?_⟩
  refine (resolve_settles crossed_built .null {}).1.resolve_left ?_
  rintro ⟨r, hr⟩
  simp [hr, Except.toOption] at hcycle

end Schema

end ValueResolution
