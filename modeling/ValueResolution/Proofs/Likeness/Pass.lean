import ValueResolution.Proofs.Ending
import ValueResolution.Proofs.Likeness.Stages
/-!
# Passes in scopes that agree

Two passes over one tree, in scopes that agree on the references that leave the tree, go in step:
their steps are alike one by one (`Pass.traceAll_alike`), since the forms that they show hold
related slots, and what a terminal reads in the tree or around it is related
(`Step.Faces.agree`). So a tree respects the relation when its terminals do
(`ValueTree.CompiledFrom.resolver_respects`).
-/

set_option autoImplicit false

namespace ValueResolution

variable {R : Value → Value → Prop} {refs : List Reference}

/-- Without containers a scope agrees with itself on every reference. -/
theorem Scope.Agree.of_outermost {scope : Scope} (hframes : scope.frames = [])
    (hinput : R scope.input scope.input) (hsubject : Option.Rel R scope.subject scope.subject) :
    Scope.Agree R refs scope scope := by
  refine ⟨hinput, hsubject, rfl, rfl, fun r _ f f' hf => ?_⟩
  have hnone : scope.frame? r.anchor = none := by
    cases r.anchor with
    | root => rfl
    | relative up => cases up <;> simp [Scope.frame?, hframes]
    | level depth => simp [Scope.frame?, hframes]
  simp [hnone] at hf

namespace Step

/-- Two steps at one place with alike outcomes. -/
structure Alike (R : Value → Value → Prop) (s s' : Step) : Prop where
  path : s.path = s'.path
  resolution : s.resolution.Alike R s'.resolution

/-- Alike steps leave related slots. -/
theorem slots_rel {steps steps' : List Step} (h : List.Forall₂ (Alike R) steps steps')
    (path : Path) : Option.Rel R (slots steps path) (slots steps' path) := by
  suffices ∀ σ τ : Path → Slot, (∀ p, Option.Rel R (σ p) (τ p)) → ∀ p, Option.Rel R
      (steps.foldl (fun σ s => Function.update σ s.path s.resolution.value) σ p)
      (steps'.foldl (fun σ s => Function.update σ s.path s.resolution.value) τ p) from
    this _ _ (fun _ => .none) path
  induction h with
  | nil => exact fun _ _ h => h
  | cons hs _ ih =>
    refine fun σ τ hστ => ih _ _ fun p => ?_
    simp only [Function.update_apply, hs.path]
    split
    · exact hs.resolution.value
    · exact hστ p

/-- Alike steps have the same errors. -/
theorem errors_eq {steps steps' : List Step} (h : List.Forall₂ (Alike R) steps steps') :
    errors steps = errors steps' := by
  induction h with
  | nil => rfl
  | cons hs _ ih =>
    rw [errors, errors, List.flatMap_cons, List.flatMap_cons, hs.path, hs.resolution.errors]
    exact congrArg _ ih

/-- Steps at one place agree on what is read in their trees and what leaves them. -/
theorem Faces.agree {s s' : Step} {scope scope' : Scope} {t t' : Tree Slot}
    {outer : List Reference} (h : s.Faces scope t) (h' : s'.Faces scope' t')
    (hpath : s.path = s'.path) (hs : Scope.Agree R outer scope scope')
    (hin : ∀ r ∈ refs, ∀ target, r.inside? scope.frames.length s.path = some target →
      Option.Rel R (t.read target) (t'.read target))
    (hout : ∀ r ∈ refs, ∀ out, r.escape? s.path.length = some out → out ∈ outer) :
    Scope.Agree R refs s.scope s'.scope := by
  have hread : ∀ r ∈ refs, ∀ f f', s.scope.frame? r.anchor = some f →
      s'.scope.frame? r.anchor = some f' → ∃ v v', f.read r.path = .ok v ∧
        f'.read r.path = .ok v' ∧ Option.Rel R v v' := by
    intro r hr f f' hf hf'
    cases hi : r.inside? scope.frames.length s.path with
    | some target =>
      obtain ⟨g, hg, hv⟩ := h.frame_inside hi
      obtain ⟨g', hg', hv'⟩ := h'.frame_inside (by rwa [← hpath, ← hs.frames])
      obtain rfl : g = f := Option.some.inj (hg.symm.trans hf)
      obtain rfl : g' = f' := Option.some.inj (hg'.symm.trans hf')
      exact ⟨_, _, hv, hv', hin r hr target hi⟩
    | none =>
      obtain ⟨frames, hscope, hlen, -⟩ := h
      obtain ⟨frames', hscope', hlen', -⟩ := h'
      rw [hscope, Scope.frame?_localize_outside hlen hi] at hf
      rw [hscope', Scope.frame?_localize_outside hlen' (by rwa [← hpath, ← hs.frames]),
        ← hpath] at hf'
      obtain ⟨out, ho, hf⟩ := Option.bind_eq_some_iff.1 hf
      rw [ho] at hf'
      rw [← Reference.path_of_escape? ho]
      exact hs.reads out (hout r hr out ho) f f' hf hf'
  obtain ⟨frames, hscope, hlen, -⟩ := h
  obtain ⟨frames', hscope', hlen', -⟩ := h'
  rw [hscope, hscope'] at hread ⊢
  exact ⟨hs.input, hs.subject, by simp [Scope.localize, hlen, hlen', hpath, hs.frames], hs.prefs,
    hread⟩

/-- In two outermost trees, steps at one place agree when what they read there is related. -/
theorem Faces.agree_outermost {s s' : Step} {scope : Scope} {t t' : Tree Slot}
    (h : s.Faces scope t) (h' : s'.Faces scope t') (hpath : s.path = s'.path)
    (hframes : scope.frames = []) (hinput : R scope.input scope.input)
    (hsubject : Option.Rel R scope.subject scope.subject)
    (hin : ∀ r ∈ refs, ∀ target, r.target? s.path = some target →
      Option.Rel R (t.read target) (t'.read target)) :
    Scope.Agree R refs s.scope s'.scope := by
  have hself : Scope.Agree R (refs.filterMap fun r => r.escape? s.path.length) scope scope :=
    .of_outermost hframes hinput hsubject
  refine h.agree h' hpath hself (fun r hr target ht => ?_)
    fun r hr out hout => List.mem_filterMap.2 ⟨r, hr, hout⟩
  rw [hframes, List.length_nil, Reference.inside?_zero] at ht
  exact hin r hr target ht

end Step

namespace Pass

/-- The outcomes of two runs: alike steps, and both stopped or neither. -/
structure RunsAlike (R : Value → Value → Prop) (out out' : List Step × Pass × Bool) : Prop where
  steps : List.Forall₂ (Step.Alike R) out.1 out'.1
  stopped : out.2.2 = out'.2.2

/-- Runs over the terminals of a node go in step when the slots are related and the scopes agree on
what leaves the tree. -/
theorem traceAll_alike (hR : Congruence R) {scope scope' : Scope} {n : Node}
    (hlit : ∀ v, n.HasLiteral v → R v v) {outer : List Reference}
    (hs : Scope.Agree R outer scope scope')
    (hout : ∀ site ∈ n.sites, ∀ r ∈ site.terminal.references,
      ∀ out, r.escape? site.path.length = some out → out ∈ outer)
    {ts : List (Path × Resolver)} (h : ∀ e ∈ ts, ∃ site ∈ n.sites, site.path = e.1 ∧
      e.2.Respects R site.terminal.references) (hn : (ts.map Prod.fst).Nodup) {p p' : Pass}
    {σ σ' : Path → Slot} (hp : p.Shows n σ) (hp' : p'.Shows n σ')
    (hσ : ∀ path, Option.Rel R (σ path) (σ' path))
    (hfree : ∀ e ∈ ts, σ e.1 = none ∧ σ' e.1 = none) :
    Like (RunsAlike R) (traceAll scope ts p) (traceAll scope' ts p') := by
  induction ts generalizing p p' σ σ' with
  | nil => exact .ok ⟨.nil, rfl⟩
  | cons e rest ih =>
    obtain ⟨path, resolve⟩ := e
    obtain ⟨⟨site, hsite, rfl, hresolve⟩, hlater⟩ := List.forall_mem_cons.1 h
    obtain ⟨hother, hn'⟩ := List.nodup_cons.1 hn
    obtain ⟨⟨hempty, hempty'⟩, hfree'⟩ := List.forall_mem_cons.1 hfree
    obtain ⟨u, hroot, -⟩ := id hp
    obtain ⟨u', hroot', -⟩ := id hp'
    obtain ⟨frames, hframes, -⟩ := hp.exists_frames hsite hroot
    obtain ⟨frames', hframes', -⟩ := hp'.exists_frames hsite hroot'
    have hagree : Scope.Agree R site.terminal.references (scope.localize site.path frames)
        (scope'.localize site.path frames') :=
      (hp.faces hsite hroot hframes scope .undefined).agree
        (hp'.faces hsite hroot' hframes' scope' .undefined) rfl hs
        (fun r _ target _ => hR.form hlit (fun site _ => hσ site.path) target) (hout site hsite)
    have hr : Like (Resolution.Alike R) (resolve (scope.localize site.path frames))
        (resolve (scope'.localize site.path frames')) := hresolve _ _ hagree
    rw [traceAll_step hroot, traceAll_step hroot']
    simp only [hframes, hframes']
    generalize resolve (scope.localize site.path frames) = x,
      resolve (scope'.localize site.path frames') = x' at hr
    cases hr with
    | error e => exact .error e
    | @ok r r' hr =>
      simp only [hr.stops_eq hs.prefs]
      split
      · exact .ok ⟨.cons ⟨rfl, hr⟩ .nil, rfl⟩
      · obtain ⟨q, hq, hshows⟩ := (hp.note site.path r).record hsite hempty hroot r.value
        obtain ⟨q', hq', hshows'⟩ := (hp'.note site.path r').record hsite hempty' hroot' r'.value
        simp only [hq, hq']
        have hslots : ∀ path, Option.Rel R (Function.update σ site.path r.value path)
            (Function.update σ' site.path r'.value path) := by
          intro path
          rw [Function.update_apply, Function.update_apply]
          split
          · exact hr.value
          · exact hσ path
        have hempty : ∀ e ∈ rest, Function.update σ site.path r.value e.1 = none ∧
            Function.update σ' site.path r'.value e.1 = none := by
          intro e he
          have hne := ne_of_mem_of_not_mem (List.mem_map_of_mem he) hother
          rw [Function.update_of_ne hne, Function.update_of_ne hne]
          exact hfree' e he
        refine (ih hlater hn' hshows hshows' hslots hempty).bind fun out out' hruns => ?_
        exact .ok ⟨.cons ⟨rfl, hr⟩ hruns.steps, hruns.stopped⟩

end Pass

namespace ValueTree

/-- The steps that have filled their slots are those that do not stop the pass. -/
theorem Resolved.kept_eq {n : Node} {scope : Scope} {order : List Path} {steps kept : List Step}
    {r : Resolution} (h : Resolved n scope order steps kept r) :
    kept = steps.filter fun s => !s.resolution.stops scope := by
  have hkept : kept.filter (fun s => !s.resolution.stops scope) = kept :=
    List.filter_eq_self.2 fun s hs => by rw [h.passed s hs, Bool.not_false]
  rcases h.rest with ⟨-, rfl⟩ | ⟨s, rfl, hs⟩
  · exact hkept.symm
  · rw [List.filter_append, hkept, List.filter_singleton, hs]
    exact (List.append_nil _).symm

/-- A compiled tree respects the relation when its terminals and its literals do. -/
theorem CompiledFrom.resolver_respects (hR : Congruence R) {t : ValueTree} {n : Node}
    (hc : t.CompiledFrom n) (hlit : ∀ v, n.HasLiteral v → R v v)
    (hout : ∀ site ∈ n.sites, ∀ r ∈ site.terminal.references,
      ∀ out, r.escape? site.path.length = some out → out ∈ refs)
    (h : ∀ site ∈ n.sites, site.terminal.resolver.Respects R site.terminal.references) :
    t.resolver.Respects R refs := by
  intro scope scope' hs
  have horder : orderIn t.order t.rootedOrder scope = orderIn t.order t.rootedOrder scope' := by
    have hempty : scope.frames.isEmpty = scope'.frames.isEmpty := by
      rw [Bool.eq_iff_iff, List.isEmpty_iff_length_eq_zero, List.isEmpty_iff_length_eq_zero,
        hs.frames]
    rw [orderIn, orderIn, hempty]
  cases ho : orderIn t.order t.rootedOrder scope with
  | error e =>
    rw [resolver_run, resolver_run, ← horder, ho]
    exact .error e
  | ok order =>
    have hperm := hc.order_perm ho
    have hpaths := hc.arrange_paths hperm
    have hruns : Like (Pass.RunsAlike R) (t.tracePass scope) (t.tracePass scope') := by
      rw [tracePass, tracePass, ← horder, ho]
      refine Pass.traceAll_alike hR hlit hs hout (fun e he => ?_) ?_ hc.start_shows hc.start_shows
        (fun _ => .none) fun _ _ => ⟨rfl, rfl⟩
      · obtain ⟨site, hsite, hpath, hres⟩ := hc.mem_arrange_sites he
        exact ⟨site, hsite, hpath, hres ▸ h site hsite⟩
      · rw [hpaths]
        exact hperm.nodup_iff.2 n.nodup_sites
    rw [resolver_eq, resolver_eq]
    cases hpass : t.tracePass scope with
    | error e =>
      cases hpass' : t.tracePass scope' with
      | error e' =>
        rw [hpass, hpass'] at hruns
        cases hruns
        exact .error e
      | ok out =>
        rw [hpass, hpass'] at hruns
        cases hruns
    | ok out =>
      obtain ⟨out', hpass', hrun⟩ := hruns.exists_ok hpass
      obtain ⟨steps, p, stopped⟩ := out
      obtain ⟨steps', p', stopped'⟩ := out'
      obtain ⟨_, kept, r, -, hclose, hr⟩ := hc.close hpass
      obtain ⟨_, kept', r', -, hclose', hr'⟩ := hc.close hpass'
      have hkept : List.Forall₂ (Step.Alike R) kept kept' := by
        rw [hr.kept_eq, hr'.kept_eq]
        refine List.rel_filter (fun s s' hss => ?_) hrun.steps
        simp only [hss.resolution.stops_eq hs.prefs]
      rw [hpass']
      change Like _ (p.close stopped) (p'.close stopped')
      rw [hclose, hclose']
      refine .ok ⟨?_, ?_⟩
      · rw [hr.value, hr'.value]
        exact hR.form hlit (fun site _ => Step.slots_rel hkept site.path) []
      · rw [hr.errors, hr'.errors]
        exact Step.errors_eq hrun.steps

end ValueTree

end ValueResolution
