import ValueResolution.Proofs.Trace
import ValueResolution.Schema.Builder
/-!
# The parts of a schema

A schema holds validators and value trees at any depth: its own, and those of the schemas that
stand in its trees and its patterns. `Schema.parts` lists them all.

`Schema.Built` is said of a schema that was built from a written form in which every schema was
built before. All trees of such a schema come from nodes (`Schema.Built.compiled`).
-/

set_option autoImplicit false

namespace ValueResolution

/-- A validator or a tree that stands in a schema. -/
inductive Part where
  | validator (v : Validator)
  | tree (t : ValueTree)

mutual

/-- The parts of a terminal. -/
def Terminal.parts (t : Terminal) : List Part :=
  match t with
  | .reference _ => []
  | .expression _ => []
  | .schema s => s.parts
termination_by structural t

/-- The parts of a schema. -/
def Schema.parts (s : Schema) : List Part :=
  match s with
  | ⟨source, default, validator, _, conditional, _⟩ =>
    source.parts ++ partsOfTree? default ++ validator.toList.map .validator ++
      partsOfConditional? conditional
termination_by structural s

/-- The parts of a source. -/
def Source.parts (s : Source) : List Part :=
  match s with
  | .subject => []
  | .literal _ => []
  | .tree t => t.parts
  | .reference _ => []
  | .expression _ => []
termination_by structural s

/-- A tree and the parts in it. -/
def ValueTree.parts (t : ValueTree) : List Part :=
  match t with
  | ⟨skeleton, root, sites, order, rootedOrder⟩ =>
    .tree ⟨skeleton, root, sites, order, rootedOrder⟩ :: partsOfSites sites
termination_by structural t

/-- The parts of several terminals. -/
def partsOfSites (sites : List Site) : List Part :=
  match sites with
  | [] => []
  | ⟨_, terminal⟩ :: rest => terminal.parts ++ partsOfSites rest
termination_by structural sites

/-- The parts of a tree, if there is one. -/
def partsOfTree? (t : Option ValueTree) : List Part :=
  match t with
  | none => []
  | some t => t.parts
termination_by structural t

/-- The parts of a conditional, if there is one. -/
def partsOfConditional? (c : Option Conditional) : List Part :=
  match c with
  | none => []
  | some c => c.parts
termination_by structural c

/-- The parts of a conditional. -/
def Conditional.parts (c : Conditional) : List Part :=
  match c with
  | ⟨_, branches, otherwise⟩ => partsOfBranches branches ++ partsOfTree? otherwise
termination_by structural c

/-- The parts of several cases. -/
def partsOfBranches (branches : List Branch) : List Part :=
  match branches with
  | [] => []
  | ⟨pattern, outcome⟩ :: rest => pattern.parts ++ partsOfTree? outcome ++ partsOfBranches rest
termination_by structural branches

/-- The parts of a pattern. -/
def Pattern.parts (p : Pattern) : List Part :=
  match p with
  | .equals t => t.parts
  | .schema s => s.parts
termination_by structural p

end

/-- The parts in a tree are those of its terminals. -/
theorem mem_partsOfSites {sites : List Site} {p : Part} :
    p ∈ partsOfSites sites ↔ ∃ site ∈ sites, p ∈ site.terminal.parts := by
  induction sites with
  | nil => simp [partsOfSites]
  | cons site rest ih =>
    obtain ⟨path, terminal⟩ := site
    rw [partsOfSites, List.mem_append, ih]
    simp

/-! ## Schemas that were built -/

/-- The schemas that are terminals of a node. -/
def Node.schemas (n : Node) : List Schema :=
  n.sites.filterMap fun site =>
    match site.terminal with
    | .schema s => some s
    | _ => none

theorem Node.mem_schemas {n : Node} {site : Site} (h : site ∈ n.sites) {s : Schema}
    (hs : site.terminal = .schema s) : s ∈ n.schemas :=
  List.mem_filterMap.2 ⟨site, h, by rw [hs]⟩

/-- The schemas of a node, if there is one. -/
def schemasOfNode? (n : Option Node) : List Schema := n.elim [] Node.schemas

namespace SchemaSpec

/-- The schemas in a source. -/
def schemasOfSource : SourceSpec → List Schema
  | .tree n => n.schemas
  | _ => []

/-- The schemas in a case. -/
def schemasOfCase (c : Case) : List Schema :=
  (match c.matcher with
    | .equals n => n.schemas
    | .schema s => [s]) ++ schemasOfNode? c.outcome

/-- The schemas in a conditional. -/
def schemasOfWhen (w : When) : List Schema :=
  w.cases.flatMap schemasOfCase ++ schemasOfNode? w.otherwise

/-- The schemas that a written schema is made from. -/
def schemas (s : SchemaSpec) : List Schema :=
  schemasOfSource s.source ++ schemasOfNode? s.default ++ s.conditional.elim [] schemasOfWhen

end SchemaSpec

/-- The schema can be built: from a written one that builds, and that is made from built ones. -/
inductive Schema.Built : Schema → Prop where
  | of_build {spec : SchemaSpec} {s : Schema} (hbuild : spec.build = .ok s)
      (hinner : ∀ inner ∈ spec.schemas, inner.Built) : s.Built

/-- All trees among the parts come from nodes. -/
def Compiled (parts : List Part) : Prop :=
  ∀ t, .tree t ∈ parts → ∃ n, ValueTree.compile n = .ok t

theorem compiled_append {parts more : List Part} :
    Compiled (parts ++ more) ↔ Compiled parts ∧ Compiled more := by
  simp [Compiled, or_imp, forall_and]

theorem compiled_nil : Compiled [] := fun _ h => absurd h List.not_mem_nil

theorem ValueTree.parts_eq (t : ValueTree) : t.parts = .tree t :: partsOfSites t.sites := by
  obtain ⟨skeleton, root, sites, order, rootedOrder⟩ := t
  rfl

/-- A compiled tree has compiled parts when the schemas in it do. -/
theorem compiled_of_compile {n : Node} {t : ValueTree} (h : ValueTree.compile n = .ok t)
    (hn : ∀ s ∈ n.schemas, Compiled s.parts) : Compiled t.parts := by
  intro u hu
  rw [ValueTree.parts_eq, List.mem_cons] at hu
  rcases hu with hu | hu
  · obtain rfl : u = t := Part.tree.inj hu
    exact ⟨n, h⟩
  · rw [(ValueTree.compiledFrom_of_compile h).sites] at hu
    obtain ⟨site, hsite, hpart⟩ := mem_partsOfSites.1 hu
    cases hterm : site.terminal with
    | reference r => simp [hterm, Terminal.parts] at hpart
    | expression x => simp [hterm, Terminal.parts] at hpart
    | schema s =>
      rw [hterm, Terminal.parts] at hpart
      exact hn s (Node.mem_schemas hsite hterm) u hpart

/-- An optional tree is compiled if its node compiles. -/
theorem compiled_of_compile? {n : Option Node} {t : Option ValueTree}
    (h : ValueTree.compile? n = .ok t) (hn : ∀ s ∈ schemasOfNode? n, Compiled s.parts) :
    Compiled (partsOfTree? t) := by
  cases n with
  | none =>
    obtain rfl : none = t := Except.ok.inj h
    exact compiled_nil
  | some n =>
    obtain ⟨t, ht, rfl⟩ := map_eq_ok_iff.1 h
    exact compiled_of_compile ht hn

namespace SchemaSpec

/-- The source of a schema that was built has compiled parts only. -/
theorem compiled_of_source {spec : SourceSpec} {source : Source} (h : spec.compile = .ok source)
    (hn : ∀ s ∈ schemasOfSource spec, Compiled s.parts) : Compiled source.parts := by
  cases spec with
  | tree n =>
    obtain ⟨t, ht, rfl⟩ := map_eq_ok_iff.1 h
    exact compiled_of_compile ht hn
  | subject | literal v | reference r | expression x =>
    obtain rfl := Except.ok.inj h
    exact compiled_nil

/-- A case that was compiled has compiled parts only, in its pattern and in its outcome. -/
theorem compiled_of_case {c : Case} {b : Branch} (h : c.compile = .ok b)
    (hn : ∀ s ∈ schemasOfCase c, Compiled s.parts) :
    Compiled b.pattern.parts ∧ Compiled (partsOfTree? b.outcome) := by
  obtain ⟨pattern, hp, h⟩ := bind_eq_ok_iff.1 h
  obtain ⟨outcome, ho, h⟩ := bind_eq_ok_iff.1 h
  obtain rfl := Except.ok.inj h
  refine ⟨?_, compiled_of_compile? ho fun s hs => hn s (List.mem_append_right _ hs)⟩
  obtain ⟨matcher, written⟩ := c
  cases matcher with
  | equals n =>
    obtain ⟨t, ht, rfl⟩ := map_eq_ok_iff.1 hp
    exact compiled_of_compile ht fun s hs => hn s (List.mem_append_left _ hs)
  | schema s =>
    obtain rfl := Except.ok.inj hp
    exact hn s (List.mem_append_left _ (List.mem_singleton_self s))

theorem compiled_of_cases {cases : List Case} {branches : List Branch}
    (h : cases.mapM Case.compile = .ok branches)
    (hn : ∀ s ∈ cases.flatMap schemasOfCase, Compiled s.parts) :
    Compiled (partsOfBranches branches) := by
  induction cases generalizing branches with
  | nil =>
    obtain rfl : [] = branches := Except.ok.inj h
    exact compiled_nil
  | cons c rest ih =>
    rw [List.mapM_cons] at h
    obtain ⟨b, hb, h⟩ := bind_eq_ok_iff.1 h
    obtain ⟨later, hl, h⟩ := bind_eq_ok_iff.1 h
    obtain rfl := Except.ok.inj h
    obtain ⟨pattern, outcome⟩ := b
    rw [List.flatMap_cons] at hn
    obtain ⟨hpattern, houtcome⟩ := compiled_of_case hb fun s hs => hn s (List.mem_append_left _ hs)
    rw [partsOfBranches, compiled_append, compiled_append]
    exact ⟨⟨hpattern, houtcome⟩, ih hl fun s hs => hn s (List.mem_append_right _ hs)⟩

/-- A conditional that was compiled has compiled parts only. -/
theorem compiled_of_when? {w : Option When} {c : Option Conditional}
    (h : When.compile? w = .ok c) (hn : ∀ s ∈ w.elim [] schemasOfWhen, Compiled s.parts) :
    Compiled (partsOfConditional? c) := by
  cases w with
  | none =>
    obtain rfl : none = c := Except.ok.inj h
    exact compiled_nil
  | some w =>
    obtain ⟨c, hc, rfl⟩ := map_eq_ok_iff.1 h
    obtain ⟨branches, hb, hc⟩ := bind_eq_ok_iff.1 hc
    obtain ⟨otherwise, ho, hc⟩ := bind_eq_ok_iff.1 hc
    obtain rfl := Except.ok.inj hc
    rw [partsOfConditional?, Conditional.parts, compiled_append]
    exact ⟨compiled_of_cases hb fun s hs => hn s (List.mem_append_left _ hs),
      compiled_of_compile? ho fun s hs => hn s (List.mem_append_right _ hs)⟩

/-- A built schema has compiled parts when the schemas it is made from do. -/
theorem compiled_of_build {spec : SchemaSpec} {s : Schema} (h : spec.build = .ok s)
    (hn : ∀ inner ∈ spec.schemas, Compiled inner.parts) : Compiled s.parts := by
  obtain ⟨source, hs, h⟩ := bind_eq_ok_iff.1 h
  obtain ⟨default, hd, h⟩ := bind_eq_ok_iff.1 h
  obtain ⟨conditional, hc, h⟩ := bind_eq_ok_iff.1 h
  obtain rfl := Except.ok.inj h
  simp only [schemas, List.mem_append, or_imp, forall_and] at hn
  rw [Schema.parts, compiled_append, compiled_append, compiled_append]
  refine ⟨⟨⟨compiled_of_source hs hn.1.1, compiled_of_compile? hd hn.1.2⟩, fun t ht => ?_⟩,
    compiled_of_when? hc hn.2⟩
  simp at ht

end SchemaSpec

/-- All trees of a built schema come from nodes. -/
theorem Schema.Built.compiled {s : Schema} (h : s.Built) : Compiled s.parts := by
  induction h with
  | of_build hbuild _ ih => exact SchemaSpec.compiled_of_build hbuild ih

/-- All trees in the terminals of a node come from nodes, if its schemas were built. -/
theorem Node.compiled_terminal {n : Node} (hn : ∀ s ∈ n.schemas, s.Built) {site : Site}
    (h : site ∈ n.sites) : Compiled site.terminal.parts := by
  cases hterm : site.terminal with
  | reference r => exact compiled_nil
  | expression x => exact compiled_nil
  | schema s => exact (hn s (Node.mem_schemas h hterm)).compiled

/-! ## Schemas that only have a tree -/

/-- Stages with nothing but a source are that source. -/
theorem Stages.run_source (source : Resolver) :
    run ⟨source, none, none, false, none, false⟩ = source := by
  funext scope
  have hfill : ∀ r, fill ⟨source, none, none, false, none, false⟩ r scope = .ok r := by
    intro r
    unfold fill
    cases r.value <;> rfl
  have hfinish : ∀ r, finish ⟨source, none, none, false, none, false⟩ r scope = .ok r := by
    intro r
    rw [finish_eq]
    simp [check, remap, Resolution.isOk, bind, Except.bind, pure, Except.pure]
  simp only [run, hfill, hfinish, bind, Except.bind, pure, Except.pure, ite_self]
  cases source scope <;> rfl

namespace Schema

/-- The schema that resolves a tree and leaves its value alone. -/
def ofTree (t : ValueTree) : Schema :=
  { source := .tree t, default := none, validator := none, required := false, conditional := none
    strip := false }

theorem build_tree_eq_ok_iff {n : Node} {s : Schema} : SchemaSpec.build { source := .tree n } =
    .ok s ↔ ∃ t, ValueTree.compile n = .ok t ∧ ofTree t = s := by
  have hbuild : SchemaSpec.build { source := .tree n } = (ofTree <$> ValueTree.compile n) := by
    rw [SchemaSpec.build, SourceSpec.compile]
    cases ValueTree.compile n <;> rfl
  rw [hbuild, map_eq_ok_iff]

/-- A schema around a compiled tree can be built. -/
theorem built_ofTree {n : Node} {t : ValueTree} (h : ValueTree.compile n = .ok t)
    (hn : ∀ inner ∈ n.schemas, inner.Built) : (ofTree t).Built := by
  refine .of_build (build_tree_eq_ok_iff.2 ⟨t, h, rfl⟩) fun inner hinner => hn inner ?_
  simpa [SchemaSpec.schemas, SchemaSpec.schemasOfSource, schemasOfNode?] using hinner

/-- The stages behind the tree change nothing. -/
theorem resolver_ofTree (t : ValueTree) : (ofTree t).resolver = t.resolver :=
  Stages.run_source t.resolver

end Schema

end ValueResolution
