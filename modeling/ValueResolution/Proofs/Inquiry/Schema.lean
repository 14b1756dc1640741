import ValueResolution.Proofs.Inquiry.Record
import ValueResolution.Schema.Resolve
/-!
# The inquiries of schemas

The meaning of a schema with a record of its queries is its inquiry (`Schema.inquiry`). Without the
record it is the schema's resolver (`Schema.inquiry_resolver`), so its queries are those that the
schema makes when it is resolved.
-/

set_option autoImplicit false

namespace ValueResolution

/-- The inquiry of a schema. -/
def Schema.inquiry (s : Schema) : Inquiry := s.resolverIn (Recorded Query)

/-- Terminals are put in order alike with and without their record. -/
theorem ValueTree.plain_arrange (inquiries : List (Path × Inquiry)) (order : List Path) :
    Pass.plain (arrange inquiries order) = arrange (Pass.plain inquiries) order := by
  rw [arrange, Pass.plain, List.map_filterMap, arrange, Pass.plain]
  refine congrArg (fun f => order.filterMap f) (funext fun path => ?_)
  rw [List.find?_map]
  rfl

mutual

/-- Without the record, a terminal means its resolver. -/
theorem Terminal.inquiry_resolver (t : Terminal) :
    (t.resolverIn (Recorded Query)).plain = t.resolver := by
  match t with
  | .reference r => rfl
  | .expression x => rfl
  | .schema s => exact s.inquiry_resolver
termination_by structural t

/-- Without the record, the inquiry of a schema is its resolver. -/
theorem Schema.inquiry_resolver (s : Schema) : s.inquiry.plain = s.resolver := by
  match s with
  | ⟨source, default, validator, required, conditional, strip⟩ =>
    rw [Schema.inquiry, Schema.resolverIn, Schema.resolver_eq]
    cases source.literal? with
    | some v => rfl
    | none =>
      dsimp only
      rw [Stages.plain_run, Stages.plain, source.inquiry_resolver,
        inquiryOfTree?_resolver default, inquiryOfConditional?_resolver conditional]
termination_by structural s

/-- Without the record, a source means its resolver. -/
theorem Source.inquiry_resolver (s : Source) :
    (s.resolverIn (Recorded Query)).plain = s.resolver := by
  match s with
  | .subject => rfl
  | .literal v => rfl
  | .tree t => exact t.inquiry_resolver
  | .reference r => rfl
  | .expression x => rfl
termination_by structural s

/-- Without the record, a tree means its resolver. -/
theorem ValueTree.inquiry_resolver (t : ValueTree) :
    (t.resolverIn (Recorded Query)).plain = t.resolver := by
  match t with
  | ⟨skeleton, root, sites, order, rootedOrder⟩ =>
    funext scope
    refine (Recorded.outcome_bind _ _).trans ?_
    change _ = ValueTree.orderIn order rootedOrder scope >>= fun order =>
      Pass.run skeleton root (ValueTree.arrange (resolversOfSites sites) order) scope
    refine congrArg _ (funext fun order => ?_)
    rw [← inquiriesOfSites_plain sites, ← ValueTree.plain_arrange, ← Pass.outcome_run]
    rfl
termination_by structural t

/-- Without the record, terminals mean their resolvers, at the same places. -/
theorem inquiriesOfSites_plain (sites : List Site) :
    Pass.plain (resolversOfSitesIn (Recorded Query) sites) = resolversOfSites sites := by
  match sites with
  | [] => rfl
  | ⟨path, terminal⟩ :: rest =>
    change (path, (terminal.resolverIn (Recorded Query)).plain) ::
      Pass.plain (resolversOfSitesIn (Recorded Query) rest) = _
    rw [terminal.inquiry_resolver, inquiriesOfSites_plain rest]
    rfl
termination_by structural sites

theorem inquiryOfTree?_resolver (t : Option ValueTree) :
    (resolverOfTreeIn? (Recorded Query) t).map ResolverIn.plain = resolverOfTree? t := by
  match t with
  | none => rfl
  | some t => exact congrArg some t.inquiry_resolver
termination_by structural t

theorem inquiryOfConditional?_resolver (c : Option Conditional) :
    ((mappingOfIn? (Recorded Query) c).map fun apply value => (apply value).plain) =
      mappingOf? c := by
  match c with
  | none => rfl
  | some c => exact congrArg some c.inquiry_resolver
termination_by structural c

/-- Without the record, a conditional means its mapping. -/
theorem Conditional.inquiry_resolver (c : Conditional) :
    (fun value => (c.mappingIn (Recorded Query) value).plain) = c.mapping := by
  match c with
  | ⟨subject, branches, otherwise⟩ =>
    funext value scope
    refine (Choice.outcome_select _ value _ scope _).trans ?_
    rw [inquiryOfTree?_resolver otherwise, inquiriesOfBranches_plain branches]
    rfl
termination_by structural c

theorem inquiriesOfBranches_plain (branches : List Branch) :
    (choicesOfIn (Recorded Query) branches).map Choice.plain = choicesOf branches := by
  match branches with
  | [] => rfl
  | ⟨pattern, outcome⟩ :: rest =>
    rw [choicesOfIn, List.map_cons, inquiriesOfBranches_plain rest, Choice.plain,
      pattern.outcome_inquiry, inquiryOfTree?_resolver outcome]
    rfl
termination_by structural branches

/-- The record makes no difference to the verdict of a pattern. -/
theorem Pattern.outcome_inquiry (p : Pattern) :
    (fun value scope => (p.verdictIn (Recorded Query) value scope).outcome) = p.verdict := by
  match p with
  | .equals t =>
    funext value scope
    refine (Choice.outcome_equals _ value scope).trans ?_
    rw [t.inquiry_resolver]
    rfl
  | .schema s =>
    funext value scope
    refine (Choice.outcome_passes _ value scope).trans ?_
    rw [← Schema.inquiry, s.inquiry_resolver]
    rfl
termination_by structural p

end

end ValueResolution
