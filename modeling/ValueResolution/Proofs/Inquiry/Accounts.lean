import ValueResolution.Proofs.EarlyStop.Pass
import ValueResolution.Proofs.Inquiry.Schema
/-!
# Where a run asks, and what it reports

A scope leads to another one by stepping into terminals and into labelled validations
(`Scope.Leads`). Every query of a run has such a scope, and the places on the way are the places of
the query. The errors of a run are those of the answers, except in labelled validations, each at the
places of its query (`reports`). Both are said together by `Recorded.Accounts`, which passes on from
step to step (`Recorded.Accounts.bind`), and hold of every part of a schema (`Schema.accounts`).
-/

set_option autoImplicit false

namespace ValueResolution

/-- The second scope is made from the first by stepping into the terminals at `places`, the
outermost first, through the containers around each, and into labelled validations. -/
inductive Scope.Leads : Scope → List Path → Scope → Prop where
  | here (s : Scope) : Leads s [] s
  | into {s s' : Scope} {places : List Path} {store : Overlay Slot} {current : NodeId} {path : Path}
      {frames : List Frame} (hframes : Pass.framesAlong store current path [] = some frames)
      (h : Leads (s.localize path frames) places s') : Leads s (path :: places) s'
  | nested {s s' : Scope} {places : List Path} {label : String} {value : Option Value}
      (h : Leads (s.nest label value) places s') : Leads s places s'

namespace Scope.Leads

variable {s s' : Scope} {places : List Path}

/-- The path grows by the places. -/
theorem path_eq (h : s.Leads places s') : s'.path = s.path ++ places.flatten := by
  induction h with
  | here s => simp
  | into _ _ ih => simpa [localize] using ih
  | nested _ ih => exact ih

/-- The context grows by the labels of the validations. -/
theorem context_extends (h : s.Leads places s') : s.context <+: s'.context := by
  induction h with
  | here s => exact List.prefix_refl _
  | into _ _ ih => exact ih
  | nested _ ih => exact (List.prefix_append _ _).trans ih

end Scope.Leads

/-- The errors of the answer, as the tree reports them in which the query was made. -/
def Query.report (q : Query) : List ValidationError :=
  q.answer.errors.map fun e => e.within q.places.flatten

/-- What queries report that were made in the given context, and in no further validation. -/
def reports (context : List String) (queries : List Query) : List ValidationError :=
  (queries.filter fun q => q.scope.context = context).flatMap Query.report

/-- Queries in a row report one after the other. -/
theorem reports_append (context : List String) (queries more : List Query) :
    reports context (queries ++ more) = reports context queries ++ reports context more := by
  rw [reports, List.filter_append, List.flatMap_append]
  rfl

/-- Queries that were all made in further validations report nothing. -/
theorem reports_eq_nil {context : List String} {queries : List Query}
    (h : ∀ q ∈ queries, q.scope.context ≠ context) : reports context queries = [] := by
  rw [reports, List.filter_eq_nil_iff.2 (by simpa using h), List.flatMap_nil]

/-- A tree reports its terminal's errors from the place of the terminal. -/
theorem reports_within (context : List String) (queries : List Query) (place : Path) :
    reports context (queries.map fun q => q.within place) =
      (reports context queries).map fun e => e.within place := by
  rw [reports, reports, List.filter_map, List.flatMap_map, List.map_flatMap]
  refine congrArg (fun f => List.flatMap f _) (funext fun q => ?_)
  rw [Query.report, Query.report, List.map_map]
  exact List.map_congr_left fun e _ => (e.within_append place q.places.flatten).symm

/-- The errors that a verdict rests on. -/
def Verdict.errors : Verdict → List ValidationError
  | failed errors => errors
  | _ => []

/-- All queries of the computation were made in scopes that `scope` leads to, and the errors of its
outcome are those before it and those that it reports. -/
structure Recorded.Accounts {α : Type} (errors : α → List ValidationError) (scope : Scope)
    (before : List ValidationError) (x : Recorded Query α) : Prop where
  led : ∀ q ∈ x.notes, scope.Leads q.places q.scope
  reported : ∀ a, x.outcome = .ok a → errors a = before ++ reports scope.context x.notes

/-- The same for an inquiry in every scope. -/
def ResolverIn.Accounts (f : Inquiry) : Prop :=
  ∀ scope, (f scope).Accounts Resolution.errors scope []

namespace Recorded.Accounts

variable {α β : Type} {errors : α → List ValidationError} {errors' : β → List ValidationError}
  {scope : Scope} {before : List ValidationError} {x : Recorded Query α}

/-- What asks nothing has no errors but those before it. -/
theorem lift {outcome : Except Error α} (h : ∀ a, outcome = .ok a → errors a = before) :
    (liftM outcome : Recorded Query α).Accounts errors scope before where
  led _ hq := absurd hq List.not_mem_nil
  reported a ha := (h a ha).trans (List.append_nil before).symm

theorem pure {a : α} (h : errors a = before) :
    (Pure.pure a : Recorded Query α).Accounts errors scope before where
  led _ hq := absurd hq List.not_mem_nil
  reported b hb := by
    obtain rfl := Except.ok.inj hb
    exact h.trans (List.append_nil before).symm

/-- Two computations in a row account for their errors when each does, the second one behind the
errors of the first. -/
theorem bind (h : x.Accounts errors scope before) {f : α → Recorded Query β}
    (hf : ∀ a, x.outcome = .ok a → (f a).Accounts errors' scope (errors a)) :
    (x >>= f).Accounts errors' scope before where
  led q hq := by
    rcases mem_notes_bind hq with hq | ⟨a, ha, hq⟩
    · exact h.led q hq
    · exact (hf a ha).led q hq
  reported b hb := by
    rw [outcome_bind] at hb
    obtain ⟨a, ha, hb⟩ := bind_eq_ok_iff.1 hb
    rw [(hf a ha).reported b hb, h.reported a ha, notes_bind ha, reports_append,
      List.append_assoc]

/-- What comes before a computation stands before what it reports. -/
theorem after (h : x.Accounts errors scope []) (before : List ValidationError) :
    x.Accounts (fun a => before ++ errors a) scope before where
  led := h.led
  reported a ha := congrArg (before ++ ·) (h.reported a ha)

end Recorded.Accounts

namespace Resolver

/-- A question accounts for the errors of its answer. -/
theorem ask_accounts (question : Question) :
    ResolverIn.Accounts (Asking.ask question) := by
  intro scope
  refine ⟨fun q hq => ?_, fun r hr => ?_⟩
  · obtain rfl := List.mem_singleton.1 hq
    exact .here scope
  · obtain rfl := Except.ok.inj hr
    have hwithin : ∀ e : ValidationError, e.within [] = e := fun _ => rfl
    simp [Asking.ask, reports, Query.report, Query.answer, hwithin]

theorem ofValue_accounts (v : Value) : ResolverIn.Accounts (ofValue v) := fun _ => .pure rfl

/-- What is resolved if it is there accounts for its errors when it is. -/
theorem orUndefined_accounts {f : Option Inquiry} (h : ∀ g, f = some g → g.Accounts) :
    (orUndefined f).Accounts := by
  cases f with
  | none => exact fun _ => .pure rfl
  | some g => exact h g rfl

end Resolver

/-! ## Conditionals -/

namespace Choice

/-- What decides a case accounts for its errors. -/
def Judges (judge : Option Value → Scope → Recorded Query Verdict) : Prop :=
  ∀ value scope, (judge value scope).Accounts Verdict.errors scope []

/-- A comparison fails with the errors of what it compares with. -/
theorem equals_judges {f : Inquiry} (h : f.Accounts) : Judges (equals f) := by
  intro value scope
  refine (h scope).bind fun expected _ => ?_
  cases hok : expected.isOk with
  | false => exact .pure rfl
  | true =>
    have hnil : expected.errors = [] := List.isEmpty_iff.1 hok
    simp only [Bool.not_true, Bool.false_eq_true, if_false]
    split <;> exact .pure hnil.symm

/-- What a schema reports about a value is not passed on: its queries have a longer context. -/
theorem passes_judges {f : Inquiry} (h : f.Accounts) : Judges (passes f) := by
  intro value scope
  have hled : ∀ q ∈ (passes f value scope).notes,
      (scope.nest label value).Leads q.places q.scope := by
    intro q hq
    rcases Recorded.mem_notes_bind hq with hq | ⟨checked, -, hq⟩
    · exact (h _).led q hq
    · exact absurd hq List.not_mem_nil
  refine ⟨fun q hq => .nested (hled q hq), fun verdict hverdict => ?_⟩
  have hcontext : ∀ q ∈ (passes f value scope).notes, q.scope.context ≠ scope.context := by
    intro q hq heq
    have hlen := (hled q hq).context_extends.length_le
    rw [heq] at hlen
    rw [Scope.nest, List.length_append, List.length_singleton] at hlen
    omega
  rw [reports_eq_nil hcontext]
  rw [outcome_passes, passes] at hverdict
  obtain ⟨checked, -, hverdict⟩ := bind_eq_ok_iff.1 hverdict
  obtain rfl := Except.ok.inj hverdict
  cases checked.isOk <;> rfl

/-- The case and what it leads to account for their errors. -/
structure Accounts (c : Choice (Recorded Query)) : Prop where
  verdict : Judges c.verdict
  outcome : ∀ f, c.outcome = some f → f.Accounts

/-- What is selected among cases accounts for its errors when each case does. -/
theorem select_accounts {otherwise : Option Inquiry} (ho : ∀ f, otherwise = some f → f.Accounts)
    {choices : List (Choice (Recorded Query))} (hc : ∀ c ∈ choices, c.Accounts)
    (value discriminator : Option Value) (scope : Scope) :
    (select otherwise value discriminator scope choices).Accounts Resolution.errors scope [] := by
  induction choices with
  | nil => exact Resolver.orUndefined_accounts ho scope
  | cons c rest ih =>
    obtain ⟨hfirst, hrest⟩ := List.forall_mem_cons.1 hc
    refine (hfirst.verdict discriminator scope).bind fun verdict _ => ?_
    cases verdict with
    | matched => exact Resolver.orUndefined_accounts hfirst.outcome scope
    | missed => exact ih hrest
    | failed errors => exact .pure rfl

end Choice

/-! ## Stages -/

namespace Stages

/-- What the stages are made of accounts for its errors. -/
structure Account (s : Stages (Recorded Query)) : Prop where
  source : s.source.Accounts
  default : ∀ f, s.default = some f → f.Accounts
  conditional : ∀ apply, s.conditional = some apply → ∀ value, (apply value).Accounts

variable {s : Stages (Recorded Query)}

/-- The errors of a default stand behind those of the source. -/
theorem Account.fill (h : s.Account) (r : Resolution) (scope : Scope) :
    (s.fill r scope).Accounts Resolution.errors scope r.errors := by
  unfold Stages.fill
  split
  · rename_i default _ hd
    exact ((h.default default hd scope).after r.errors).bind fun filled _ => .pure rfl
  · exact .pure rfl

theorem validate_accounts (s : Stages (Recorded Query)) (value : Option Value) :
    ResolverIn.Accounts (s.validate value) := by
  unfold validate
  split
  · exact Resolver.ask_accounts _
  · exact fun _ => .pure rfl

theorem demand_accounts (s : Stages (Recorded Query)) (value : Option Value) :
    ResolverIn.Accounts (s.demand value) := by
  unfold demand
  split
  · exact Resolver.ask_accounts _
  · exact fun _ => .pure rfl

/-- A conditional puts its errors behind those of the stages in front of it. -/
theorem Account.remap (h : s.Account) (value : Option Value) :
    ResolverIn.Accounts (s.remap value) := by
  unfold Stages.remap
  split
  · rename_i apply hc
    exact h.conditional apply hc value
  · exact fun _ => .pure rfl

/-- Each of the stages behind the default puts its errors behind those so far. -/
theorem Account.finish (h : s.Account) (r : Resolution) (scope : Scope) :
    (s.finish r scope).Accounts Resolution.errors scope r.errors := by
  refine ((s.validate_accounts r.value scope).after r.errors).bind fun checked _ => ?_
  dsimp only
  split
  · exact .pure rfl
  · refine ((s.demand_accounts checked.value scope).after _).bind fun present _ => ?_
    cases hok : present.isOk with
    | false => exact .pure rfl
    | true =>
      have hnil : present.errors = [] := List.isEmpty_iff.1 hok
      rw [hnil, List.append_nil]
      exact ((h.remap checked.value scope).after _).bind fun mapped _ => .pure rfl

/-- A run through all stages accounts for its errors. -/
theorem Account.run (h : s.Account) : ResolverIn.Accounts s.run := by
  intro scope
  refine (h.source scope).bind fun produced _ => ?_
  split
  · exact .pure rfl
  · refine (h.fill produced scope).bind fun filled _ => ?_
    split
    · exact .pure rfl
    · exact h.finish filled scope

end Stages

/-! ## Passes -/

namespace Pass

/-- The inquiry is one for the terminal at `path`, made of one that accounts for its errors. -/
def Placed (path : Path) (f : Inquiry) : Prop :=
  ∃ g : Inquiry, g.Accounts ∧ f = fun scope => Asking.within path (g scope)

/-- The terminal at `path` asks in scopes further inside, and its errors are reported from there. -/
theorem resolveAt_accounts {path : Path} {f : Inquiry} (h : Placed path f) (p : Pass)
    (scope : Scope) (current : NodeId) : (p.resolveAt scope current path f).Accounts
      (fun r => r.errors.map fun e => e.within path) scope [] := by
  obtain ⟨g, hg, rfl⟩ := h
  unfold resolveAt framesAt
  cases hframes : framesAlong p.draft.store current path [] with
  | none => exact ⟨fun q hq => absurd hq List.not_mem_nil, fun r hr => nomatch hr⟩
  | some frames =>
    have hlocal := hg (scope.localize path frames)
    refine ⟨fun q hq => ?_, fun r hr => ?_⟩
    · obtain ⟨inner, hinner, rfl⟩ := List.mem_map.1 hq
      exact .into hframes (hlocal.led inner hinner)
    · rw [hlocal.reported r hr]
      exact (reports_within scope.context _ path).symm

/-- A run over terminals adds what they report to the errors it begins with. -/
theorem resolveAll_accounts {scope : Scope} {terminals : List (Path × Inquiry)}
    (h : ∀ e ∈ terminals, Placed e.1 e.2) (p : Pass) :
    (resolveAll scope terminals p).Accounts (fun out => out.1.errors) scope p.errors := by
  induction terminals generalizing p with
  | nil => exact .pure rfl
  | cons e rest ih =>
    obtain ⟨path, f⟩ := e
    obtain ⟨hfirst, hrest⟩ := List.forall_mem_cons.1 h
    cases hroot : p.root with
    | none =>
      rw [resolveAll, hroot]
      exact .pure rfl
    | some current =>
      rw [resolveAll_step hroot]
      refine ((resolveAt_accounts hfirst p scope current).after p.errors).bind fun r _ => ?_
      split
      · exact .pure rfl
      · have hrecord : (liftM ((p.note path r).record current path r.value) :
            Recorded Query Pass).Accounts Pass.errors scope (p.note path r).errors :=
          .lift fun q hq => record_errors hq
        exact hrecord.bind fun q _ => ih hrest q

/-- A whole pass reports what its terminals report. -/
theorem run_accounts {skeleton : Arena Slot} {root : NodeId} {terminals : List (Path × Inquiry)}
    (h : ∀ e ∈ terminals, Placed e.1 e.2) : (run skeleton root terminals).Accounts := by
  intro scope
  have hall : (resolveAll scope terminals (start skeleton root)).Accounts
      (fun out => out.1.errors) scope [] := resolveAll_accounts h (start skeleton root)
  exact hall.bind fun out _ => .lift fun r hr => close_errors hr

end Pass

/-! ## Schemas -/

mutual

/-- A terminal accounts for its errors. -/
theorem Terminal.accounts (t : Terminal) : (t.resolverIn (Recorded Query)).Accounts := by
  match t with
  | .reference r => exact Resolver.ask_accounts _
  | .expression x => exact Resolver.ask_accounts _
  | .schema s => exact s.accounts
termination_by structural t

/-- A schema accounts for its errors. -/
theorem Schema.accounts (s : Schema) : s.inquiry.Accounts := by
  match s with
  | ⟨source, default, validator, required, conditional, strip⟩ =>
    rw [Schema.inquiry, Schema.resolverIn]
    split
    · exact Resolver.ofValue_accounts _
    · exact Stages.Account.run
        { source := source.accounts
          default := accounts_of_tree? default
          conditional := accounts_of_conditional? conditional }
termination_by structural s

/-- A source accounts for its errors. -/
theorem Source.accounts (s : Source) : (s.resolverIn (Recorded Query)).Accounts := by
  match s with
  | .subject => exact fun _ => .pure rfl
  | .literal v => exact Resolver.ofValue_accounts v
  | .tree t => exact t.accounts
  | .reference r => exact Resolver.ask_accounts _
  | .expression x => exact Resolver.ask_accounts _
termination_by structural s

/-- A tree accounts for its errors. -/
theorem ValueTree.accounts (t : ValueTree) : (t.resolverIn (Recorded Query)).Accounts := by
  match t with
  | ⟨skeleton, root, sites, order, rootedOrder⟩ =>
    have hsites := placed_of_sites sites
    intro scope
    have horder : (liftM (ValueTree.orderIn order rootedOrder scope) :
        Recorded Query (List Path)).Accounts (fun _ => []) scope [] := .lift fun _ _ => rfl
    refine horder.bind fun order _ => ?_
    exact Pass.run_accounts (fun e he => hsites e (ValueTree.mem_arrange he)) scope
termination_by structural t

/-- The terminals of a tree ask for their places. -/
theorem placed_of_sites (sites : List Site) :
    ∀ e ∈ resolversOfSitesIn (Recorded Query) sites, Pass.Placed e.1 e.2 := by
  match sites with
  | [] => exact fun e he => absurd he List.not_mem_nil
  | ⟨path, terminal⟩ :: rest =>
    exact List.forall_mem_cons.2 ⟨⟨_, terminal.accounts, rfl⟩, placed_of_sites rest⟩
termination_by structural sites

theorem accounts_of_tree? (t : Option ValueTree) :
    ∀ f, resolverOfTreeIn? (Recorded Query) t = some f → f.Accounts := by
  match t with
  | none => exact fun f hf => absurd hf (by simp [resolverOfTreeIn?])
  | some t =>
    intro f hf
    obtain rfl := Option.some.inj hf
    exact t.accounts
termination_by structural t

theorem accounts_of_conditional? (c : Option Conditional) :
    ∀ apply, mappingOfIn? (Recorded Query) c = some apply →
      ∀ value, (apply value).Accounts := by
  match c with
  | none => exact fun apply happly => absurd happly (by simp [mappingOfIn?])
  | some c =>
    intro apply happly
    obtain rfl := Option.some.inj happly
    exact c.accounts
termination_by structural c

/-- A conditional accounts for its errors, whatever the value. -/
theorem Conditional.accounts (c : Conditional) (value : Option Value) :
    (c.mappingIn (Recorded Query) value).Accounts := by
  match c with
  | ⟨subject, branches, otherwise⟩ =>
    exact fun scope => Choice.select_accounts (accounts_of_tree? otherwise)
      (accounts_of_branches branches) value _ scope
termination_by structural c

theorem accounts_of_branches (branches : List Branch) :
    ∀ c ∈ choicesOfIn (Recorded Query) branches, c.Accounts := by
  match branches with
  | [] => exact fun c hc => absurd hc List.not_mem_nil
  | ⟨pattern, outcome⟩ :: rest =>
    exact List.forall_mem_cons.2
      ⟨⟨pattern.judges, accounts_of_tree? outcome⟩, accounts_of_branches rest⟩
termination_by structural branches

/-- A pattern accounts for the errors that keep it from deciding. -/
theorem Pattern.judges (p : Pattern) : Choice.Judges (p.verdictIn (Recorded Query)) := by
  match p with
  | .equals t => exact Choice.equals_judges t.accounts
  | .schema s => exact Choice.passes_judges s.accounts
termination_by structural p

end

end ValueResolution
