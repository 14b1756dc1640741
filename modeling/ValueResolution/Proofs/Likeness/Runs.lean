import ValueResolution.Proofs.Ending
import ValueResolution.Proofs.Likeness.Stages
import ValueResolution.Proofs.References.Equations
/-!
# Comparing runs

Two runs can go through their terminals in different orders. What a step reads depends only on the
places that overlap the target of its reference (`ValueTree.Follows.read_among`), and these come
before it in either run. The slots of places that both runs have filled are related when the steps
there are alike (`Step.shared_rel`). A whole run is said by what its terminals come to, in whatever
order: the form that it leaves (`ValueTree.Follows.form_slots`), and, up to their order, its errors
(`ValueTree.Follows.errors_perm`).
-/

set_option autoImplicit false

namespace ValueResolution

variable {R : Value → Value → Prop}

namespace Step

/-! ## Outcomes by place -/

/-- What the step at a place came to. -/
def outcome (steps : List Step) (path : Path) : Resolution :=
  ((steps.find? fun s => s.path = path).map Step.resolution).getD .undefined

theorem outcome_of_mem {steps : List Step} (hn : (steps.map Step.path).Nodup) {s : Step}
    (h : s ∈ steps) : outcome steps s.path = s.resolution := by
  cases hfind : steps.find? fun u => u.path = s.path with
  | none => simpa using List.find?_eq_none.1 hfind s h
  | some found =>
    have hpath : found.path = s.path := by simpa using List.find?_some hfind
    obtain rfl := List.inj_on_of_nodup_map hn (List.mem_of_find?_eq_some hfind) h hpath
    rw [outcome, hfind]
    rfl

/-! ## Slots that two runs share -/

/-- Where two runs have alike steps, the slots that both have filled are related. -/
theorem shared_rel {before before' : List Step} (hn : (before.map Step.path).Nodup)
    (hn' : (before'.map Step.path).Nodup)
    (h : ∀ s ∈ before, ∀ s' ∈ before', s'.path = s.path →
      s.resolution.Alike R s'.resolution) (path : Path) :
    Option.Rel R (if path ∈ before'.map Step.path then slots before path else none)
      (if path ∈ before.map Step.path then slots before' path else none) := by
  by_cases hin : path ∈ before.map Step.path
  · by_cases hin' : path ∈ before'.map Step.path
    · obtain ⟨s, hs, rfl⟩ := List.mem_map.1 hin
      obtain ⟨s', hs', hpath⟩ := List.mem_map.1 hin'
      rw [if_pos hin, if_pos hin', slots_of_mem hn hs, ← hpath, slots_of_mem hn' hs']
      exact (h s hs s' hs' hpath).value
    · rw [if_neg hin', if_pos hin, slots_of_notMem hin']
      exact .none
  · rw [if_neg hin, slots_of_notMem hin, ite_self]
    exact .none

end Step

namespace ValueTree

/-- The slots of terminals that have come to the given outcomes. -/
def filled (outcome : Path → Resolution) (path : Path) : Slot := (outcome path).value

theorem Follows.value_eq {n : Node} {scope : Scope} {order : List Path} {steps : List Step}
    (hf : Follows n scope order steps) {s : Step} (hs : s ∈ steps) :
    s.resolution.value = filled (Step.outcome steps) s.path := by
  rw [filled, Step.outcome_of_mem hf.nodup hs]

/-- The errors of a terminal that has come to its outcome, as its tree reports them. -/
def reported (outcome : Path → Resolution) (site : Site) : List ValidationError :=
  (outcome site.path).errors.map fun e => e.within site.path

section Whole

variable {n : Node} {scope : Scope} {order : List Path} {steps : List Step}
  (hf : Follows n scope order steps) (hall : scope.prefs.abortEarly = false)

include hf hall

/-- The form that a whole run leaves, by what its steps come to. -/
theorem Follows.form_slots {φ : Path → Slot} (hφ : ∀ s ∈ steps, s.resolution.value = φ s.path) :
    n.form (Step.slots steps) = n.form φ := by
  refine Node.form_congr fun site hsite => ?_
  obtain ⟨before, s, behind, rfl, hpath⟩ := hf.exists_step hall hsite
  rw [← hpath, Step.slots_of_mem hf.nodup (by simp), hφ s (by simp)]

/-- The errors of a whole run are those of the terminals, up to their order. -/
theorem Follows.errors_perm {outcome : Path → Resolution}
    (h : ∀ s ∈ steps, s.resolution.errors.Perm (outcome s.path).errors) :
    (Step.errors steps).Perm (n.sites.flatMap (reported outcome)) := by
  have hpaths : (steps.map Step.path).Perm (n.sites.map Site.path) := hf.all hall ▸ hf.perm
  have hperm := hpaths.flatMap_right fun path => (outcome path).errors.map fun e => e.within path
  rw [List.flatMap_map, List.flatMap_map] at hperm
  exact (List.Perm.flatMap_left _ fun s hs => (h s hs).map _).trans hperm

theorem Follows.errors_perm_outcome :
    (Step.errors steps).Perm (n.sites.flatMap (reported (Step.outcome steps))) :=
  hf.errors_perm hall fun s hs => by rw [Step.outcome_of_mem hf.nodup hs]

end Whole

/-- What a reference reads is what the steps before come to, the terminal itself left out. -/
theorem CompiledFrom.read_filled {n : Node} {t : ValueTree} (hc : t.CompiledFrom n)
    {scope : Scope} {order : List Path} {before behind : List Step} {s : Step}
    (hf : Follows n scope order (before ++ s :: behind)) {site : Site} (hsite : site ∈ n.sites)
    (hpath : site.path = s.path) {r : Reference} (hr : r ∈ site.terminal.references)
    (ho : t.rootedOrder = .ok order ∨ t.order = order ∧ r.isLevel = false) {target : Path}
    (ht : r.target? site.path = some target) (hspelled : r.Spelled) {φ : Path → Slot}
    (hφ : ∀ u ∈ before, u.resolution.value = φ u.path) :
    (n.form (Step.slots before)).read target =
      (n.form (Function.update φ site.path none)).read target := by
  refine hc.read_before hf hsite hpath hr ho ht hspelled (fun u hu _ => ?_)
    fun _ => Function.update_self ..
  have hne : u.path ≠ site.path := by
    rw [hpath]
    exact ne_of_mem_of_not_mem (List.mem_map_of_mem hu) hf.notMem_before
  rw [Function.update_of_ne hne, hφ u hu]

/-- What a reference reads depends only on the places that overlap its target, its own apart. -/
theorem Follows.read_among {n : Node} {scope : Scope} {order : List Path}
    {before behind : List Step} {s : Step} (hf : Follows n scope order (before ++ s :: behind))
    {site : Site} (hsite : site ∈ n.sites) (hpath : site.path = s.path) {r : Reference}
    (hspelled : r.Spelled) {target : Path} (ht : r.target? site.path = some target)
    {places : List Path} (hplaces : ∀ other ∈ n.sites, other.path ≠ site.path →
      Path.overlaps other.path target = true → other.path ∈ places) :
    (n.form (Step.slots before)).read target =
      (n.form fun path => if path ∈ places then Step.slots before path else none).read target := by
  refine Node.form_read_congr (Node.form_spelled_target hsite hspelled ht)
    fun other hother hover => ?_
  by_cases heq : other.path = site.path
  · rw [heq, hpath, Step.slots_of_notMem hf.notMem_before, ite_self]
  · rw [if_pos (hplaces other hother heq hover)]

end ValueTree

end ValueResolution
