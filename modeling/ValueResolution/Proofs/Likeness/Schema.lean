import ValueResolution.Proofs.Likeness.Pass
import ValueResolution.Proofs.References.Made
import ValueResolution.Proofs.Schema.Parts
/-!
# Schemas in scopes that agree

A terminal fits a relation when all that it is made of does, at any depth: its validators are
constraints, its literals are related to themselves, and its formulas have related outcomes for
related arguments (`Terminal.Fits`). Such a terminal has alike outcomes in any two scopes that agree
on the references that it makes out of itself (`Terminal.respects`), so nothing else of a scope
counts, and of the values that it reads nothing that the relation does not tell apart.
-/

set_option autoImplicit false

namespace ValueResolution

mutual

/-- All that a terminal is made of fits the relation. -/
def Terminal.Fits (R : Value → Value → Prop) (t : Terminal) : Prop :=
  match t with
  | .reference _ => True
  | .expression x => x.Respects R
  | .schema s => s.Fits R
termination_by structural t

/-- Its validator is a constraint, and all else that a schema is made of fits. -/
def Schema.Fits (R : Value → Value → Prop) (s : Schema) : Prop :=
  match s with
  | ⟨source, default, validator, _, conditional, _⟩ =>
    source.Fits R ∧ treeFits? R default ∧
      (∀ v, validator = some v → ∃ c : Constraint, v = c.validator) ∧ conditionalFits? R conditional
termination_by structural s

def Source.Fits (R : Value → Value → Prop) (s : Source) : Prop :=
  match s with
  | .subject => True
  | .literal v => R v v
  | .tree t => t.Fits R
  | .reference _ => True
  | .expression x => x.Respects R
termination_by structural s

/-- The literals of a tree fit, and its terminals do. -/
def ValueTree.Fits (R : Value → Value → Prop) (t : ValueTree) : Prop :=
  match t with
  | ⟨skeleton, _, sites, _, _⟩ =>
    (∀ id v, Store.get? skeleton id = some (.leaf (some v)) → R v v) ∧ sitesFit R sites
termination_by structural t

def sitesFit (R : Value → Value → Prop) (sites : List Site) : Prop :=
  match sites with
  | [] => True
  | ⟨_, terminal⟩ :: rest => terminal.Fits R ∧ sitesFit R rest
termination_by structural sites

def treeFits? (R : Value → Value → Prop) (t : Option ValueTree) : Prop :=
  match t with
  | none => True
  | some t => t.Fits R
termination_by structural t

def conditionalFits? (R : Value → Value → Prop) (c : Option Conditional) : Prop :=
  match c with
  | none => True
  | some c => c.Fits R
termination_by structural c

def Conditional.Fits (R : Value → Value → Prop) (c : Conditional) : Prop :=
  match c with
  | ⟨_, branches, otherwise⟩ => branchesFit R branches ∧ treeFits? R otherwise
termination_by structural c

def branchesFit (R : Value → Value → Prop) (branches : List Branch) : Prop :=
  match branches with
  | [] => True
  | ⟨pattern, outcome⟩ :: rest => pattern.Fits R ∧ treeFits? R outcome ∧ branchesFit R rest
termination_by structural branches

def Pattern.Fits (R : Value → Value → Prop) (p : Pattern) : Prop :=
  match p with
  | .equals t => t.Fits R
  | .schema s => s.Fits R
termination_by structural p

end

/-- A literal of a node is a leaf of its skeleton. -/
theorem Node.HasLiteral.exists_leaf {n : Node} {v : Value} (h : n.HasLiteral v) :
    ∃ id, Store.get? (n.lay {}).1 id = some (.leaf (some v)) := by
  obtain ⟨path, hleaf⟩ := h
  obtain ⟨u, -, hlaid, htree⟩ := n.lay_laid {}
  have hholds : Store.Holds (n.lay {}).1 u := hlaid.holds u (List.mem_singleton_self _)
  have hat := hleaf.at?_eq
  rw [← htree, Unfolding.at?_tree] at hat
  obtain ⟨w, hw, hleaf⟩ := Option.map_eq_some_iff.1 hat
  cases w with
  | leaf id slot =>
    obtain rfl : slot = some v := by simpa using hleaf
    exact ⟨id, (hholds.at? hw).root⟩
  | map id children => simp at hleaf
  | seq id items => simp at hleaf

/-- A reference out of a tree comes from one of its terminals, and leads out of the tree from
there. -/
theorem mem_referencesOfSites {sites : List Site} {out : Reference} :
    out ∈ referencesOfSites sites ↔ ∃ site ∈ sites, ∃ r ∈ site.terminal.references,
      r.escape? site.path.length = some out := by
  induction sites with
  | nil => simp [referencesOfSites]
  | cons first rest ih =>
    obtain ⟨path, terminal⟩ := first
    rw [referencesOfSites, List.mem_append, ih, List.mem_filterMap]
    simp

/-- The references of a tree are those of its terminals that leave it. -/
theorem ValueTree.mem_references {t : ValueTree} {out : Reference} :
    out ∈ t.references ↔ ∃ site ∈ t.sites, ∃ r ∈ site.terminal.references,
      r.escape? site.path.length = some out := by
  obtain ⟨skeleton, root, sites, order, rootedOrder⟩ := t
  exact mem_referencesOfSites

variable {R : Value → Value → Prop}

mutual

/-- A terminal that fits respects the relation, with the references that it makes. -/
theorem Terminal.respects (hR : Congruence R) (t : Terminal) (hc : Compiled t.parts)
    (hf : t.Fits R) : t.resolver.Respects R t.references := by
  match t with
  | .reference r =>
    exact Resolver.ofReference_respects hR fun out ho =>
      List.mem_singleton.2 (Reference.eq_of_escape?_zero ho)
  | .expression x =>
    exact Resolver.ofExpression_respects hR hf fun r hr out ho =>
      Reference.eq_of_escape?_zero ho ▸ hr
  | .schema s => exact s.respects hR hc hf
termination_by structural t

/-- A schema that fits respects the relation. -/
theorem Schema.respects (hR : Congruence R) (s : Schema) (hc : Compiled s.parts)
    (hf : s.Fits R) : s.resolver.Respects R s.references := by
  match s with
  | ⟨source, default, validator, required, conditional, strip⟩ =>
    obtain ⟨hc, hconditional⟩ := compiled_append.1 hc
    obtain ⟨hc, -⟩ := compiled_append.1 hc
    obtain ⟨hsource, hdefault⟩ := compiled_append.1 hc
    obtain ⟨fsource, fdefault, fvalidator, fconditional⟩ := hf
    have hrespects := source.respects hR hsource fsource
    rw [Schema.resolver_eq, Schema.references]
    split
    · rename_i v hv
      cases source with
      | literal w =>
        obtain rfl := Option.some.inj hv
        exact Resolver.ofValue_respects fsource
      | subject | tree t | reference r | expression x => simp [Source.literal?] at hv
    · exact Stages.Respect.run hR
        { source := hrespects.mono (List.subset_append_of_subset_left _
            (List.subset_append_left _ _))
          default := fun r hr => (respects_of_tree? hR default hdefault fdefault r hr).mono
            (List.subset_append_of_subset_left _ (List.subset_append_right _ _))
          validator := fvalidator
          conditional := fun apply ha =>
            (respects_of_conditional? hR conditional hconditional fconditional apply ha).mono
              (List.subset_append_right _ _) }
termination_by structural s

/-- A source respects the relation. -/
theorem Source.respects (hR : Congruence R) (s : Source) (hc : Compiled s.parts)
    (hf : s.Fits R) : s.resolver.Respects R s.references := by
  match s with
  | .subject => exact Resolver.subject_respects
  | .literal v => exact Resolver.ofValue_respects hf
  | .tree t => exact t.respects hR hc hf
  | .reference r =>
    exact Resolver.ofReference_respects hR fun out ho => Option.mem_toList.2 ho
  | .expression x =>
    exact Resolver.ofExpression_respects hR hf fun r hr out ho => List.mem_filterMap.2 ⟨r, hr, ho⟩
termination_by structural s

/-- A compiled tree respects the relation if its terminals do. -/
theorem ValueTree.respects (hR : Congruence R) (t : ValueTree) (hc : Compiled t.parts)
    (hf : t.Fits R) : t.resolver.Respects R t.references := by
  match t with
  | ⟨skeleton, root, sites, order, rootedOrder⟩ =>
    obtain ⟨n, hn⟩ := hc _ List.mem_cons_self
    obtain ⟨hliterals, fsites⟩ := hf
    have hfrom := ValueTree.compiledFrom_of_compile hn
    have hsites : sites = n.sites := hfrom.sites
    have hskeleton : skeleton = (n.lay {}).1 := hfrom.skeleton
    have hterminals := respects_of_sites hR sites
      (fun t ht => hc t (List.mem_cons_of_mem _ ht)) fsites
    refine hfrom.resolver_respects hR (fun v hv => ?_) ?_ (hsites ▸ hterminals)
    · obtain ⟨id, hid⟩ := hv.exists_leaf
      exact hliterals id v (hskeleton ▸ hid)
    · intro site hsite r hr out ho
      exact mem_referencesOfSites.2 ⟨site, hsites ▸ hsite, r, hr, ho⟩
termination_by structural t

/-- So does each terminal of a tree, on its own references. -/
theorem respects_of_sites (hR : Congruence R) (sites : List Site)
    (hc : Compiled (partsOfSites sites)) (hf : sitesFit R sites) :
    ∀ site ∈ sites, site.terminal.resolver.Respects R site.terminal.references := by
  match sites with
  | [] => exact fun site hs => absurd hs List.not_mem_nil
  | ⟨path, terminal⟩ :: rest =>
    obtain ⟨hfirst, hrest⟩ := compiled_append.1 hc
    exact List.forall_mem_cons.2
      ⟨terminal.respects hR hfirst hf.1, respects_of_sites hR rest hrest hf.2⟩
termination_by structural sites

theorem respects_of_tree? (hR : Congruence R) (t : Option ValueTree)
    (hc : Compiled (partsOfTree? t)) (hf : treeFits? R t) :
    ∀ r, resolverOfTree? t = some r → r.Respects R (referencesOfTree? t) := by
  match t with
  | none =>
    intro r hr
    exact absurd hr (by simp)
  | some t =>
    intro r hr
    obtain rfl := Option.some.inj hr
    exact t.respects hR hc hf
termination_by structural t

theorem respects_of_conditional? (hR : Congruence R) (c : Option Conditional)
    (hc : Compiled (partsOfConditional? c)) (hf : conditionalFits? R c) :
    ∀ apply, mappingOf? c = some apply → Mapping.Respects R (referencesOfConditional? c) apply := by
  match c with
  | none =>
    intro apply happly
    exact absurd happly (by simp)
  | some c =>
    intro apply happly
    obtain rfl := Option.some.inj happly
    exact c.respects hR hc hf
termination_by structural c

/-- A conditional respects the relation, for related values too. -/
theorem Conditional.respects (hR : Congruence R) (c : Conditional) (hc : Compiled c.parts)
    (hf : c.Fits R) : Mapping.Respects R c.references c.mapping := by
  match c with
  | ⟨subject, branches, otherwise⟩ =>
    obtain ⟨hbranches, hotherwise⟩ := compiled_append.1 hc
    obtain ⟨fbranches, fotherwise⟩ := hf
    intro v v' hv s s' hs
    rw [Conditional.references] at hs
    refine Choice.select_respects (fun r hr => ?_) (fun c hc => ?_) hv
      (Choice.discriminator_rel hR subject hv) hs
    · exact (respects_of_tree? hR otherwise hotherwise fotherwise r hr).mono
        (List.subset_append_right _ _)
    · exact (respects_of_branches hR branches hbranches fbranches c hc).mono
        (List.subset_append_left _ _)
termination_by structural c

theorem respects_of_branches (hR : Congruence R) (branches : List Branch)
    (hc : Compiled (partsOfBranches branches)) (hf : branchesFit R branches) :
    ∀ c ∈ choicesOf branches, c.Respects R (referencesOfBranches branches) := by
  match branches with
  | [] => exact fun c hc => absurd hc List.not_mem_nil
  | ⟨pattern, outcome⟩ :: rest =>
    obtain ⟨hc, hrest⟩ := compiled_append.1 hc
    obtain ⟨hpattern, houtcome⟩ := compiled_append.1 hc
    obtain ⟨fpattern, foutcome, frest⟩ := hf
    rw [referencesOfBranches]
    refine List.forall_mem_cons.2 ⟨⟨?_, fun r hr => ?_⟩, fun c hc => ?_⟩
    · exact (pattern.respects hR hpattern fpattern).mono
        (List.subset_append_of_subset_left _ (List.subset_append_left _ _))
    · exact (respects_of_tree? hR outcome houtcome foutcome r hr).mono
        (List.subset_append_of_subset_left _ (List.subset_append_right _ _))
    · exact (respects_of_branches hR rest hrest frest c hc).mono (List.subset_append_right _ _)
termination_by structural branches

/-- A pattern comes to one verdict on related values. -/
theorem Pattern.respects (hR : Congruence R) (p : Pattern) (hc : Compiled p.parts)
    (hf : p.Fits R) : Verdict.Respects R p.references p.verdict := by
  match p with
  | .equals t => exact Choice.equals_respects hR (t.respects hR hc hf)
  | .schema s => exact Choice.passes_respects (s.respects hR hc hf)
termination_by structural p

end

/-- The literals of a node are related to themselves, and its terminals fit. -/
structure Node.Fits (R : Value → Value → Prop) (n : Node) : Prop where
  literals : ∀ v, n.HasLiteral v → R v v
  terminals : ∀ site ∈ n.sites, site.terminal.Fits R

/-- The terminals of a node that fits respect the relation, if its schemas were built. -/
theorem Node.Fits.respects (hR : Congruence R) {n : Node} (h : n.Fits R)
    (hn : ∀ s ∈ n.schemas, s.Built) {site : Site} (hsite : site ∈ n.sites) :
    site.terminal.resolver.Respects R site.terminal.references :=
  site.terminal.respects hR (Node.compiled_terminal hn hsite) (h.terminals site hsite)

namespace Schema

/-! ### A schema that fits every relation -/

/-- A number that has to be in the input. -/
def numberAt (name : String) : Schema :=
  { source := .reference ⟨.root, [.field name]⟩, default := none
    validator := some Constraint.number.validator, required := true, conditional := none
    strip := false }

theorem numberAt_built (name : String) : (numberAt name).Built := by
  have hbuild : SchemaSpec.build { source := .reference ⟨.root, [.field name]⟩
                                   validator := some Constraint.number.validator
                                   required := true } = .ok (numberAt name) := rfl
  exact .of_build hbuild fun _ h => absurd h List.not_mem_nil

theorem numberAt_fits (R : Value → Value → Prop) (name : String) : (numberAt name).Fits R :=
  ⟨trivial, trivial, fun _ hv => ⟨.number, (Option.some.inj hv).symm⟩, trivial⟩

end Schema

end ValueResolution
