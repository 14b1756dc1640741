import Mathlib.Data.List.Induction
import ValueResolution.Proofs.Node.Layout
import ValueResolution.Proofs.Recorded
import ValueResolution.Proofs.References.Inside
import ValueResolution.Proofs.Store.Updating
/-!
# The steps of a pass

A pass over a tree resolves terminals one by one. `Pass.traceAll` runs it and keeps a `Step` for
every terminal: its place, the scope it was resolved in, and the outcome. The pass itself is this
run without the record (`Pass.resolveAll_eq`).

A pass over a compiled tree shows the form of its node, with the slots that the steps so far have
filled (`Pass.Shows`, `Step.slots`). One step keeps that (`Pass.Shows.record`), so every step of a
run faces the form as the steps before it left it (`Pass.traceAll_traced`): a reference that is
anchored there reads that form (`Step.Faces.lookUp_inside`).
-/

set_option autoImplicit false

namespace ValueResolution

open Store

/-- A terminal that was resolved: its place, the scope it was resolved in and the outcome. -/
structure Step where
  path : Path
  scope : Scope
  resolution : Resolution

namespace Step

/-- The slots of a tree after the given steps: each holds what the terminal there resolved to. -/
def slots (steps : List Step) : Path → Slot :=
  steps.foldl (fun σ s => Function.update σ s.path s.resolution.value) fun _ => none

theorem slots_concat (steps : List Step) (s : Step) :
    slots (steps ++ [s]) = Function.update (slots steps) s.path s.resolution.value := by
  rw [slots, List.foldl_append]
  rfl

/-- A place without a step has an empty slot. -/
theorem slots_of_notMem {steps : List Step} {path : Path} (h : path ∉ steps.map Step.path) :
    slots steps path = none := by
  induction steps using List.reverseRecOn with
  | nil => rfl
  | append_singleton steps s ih =>
    simp only [List.map_append, List.map_cons, List.map_nil, List.mem_append, List.mem_singleton,
      not_or] at h
    rw [slots_concat, Function.update_of_ne h.2, ih h.1]

/-- A place that has one step has its value. -/
theorem slots_of_mem {steps : List Step} (hn : (steps.map Step.path).Nodup) {s : Step}
    (h : s ∈ steps) : slots steps s.path = s.resolution.value := by
  induction steps using List.reverseRecOn with
  | nil => simp at h
  | append_singleton steps last ih =>
    rw [List.map_append, List.nodup_append] at hn
    rw [slots_concat]
    rcases List.mem_append.1 h with hs | hs
    · have hne : s.path ≠ last.path :=
        hn.2.2 _ (List.mem_map_of_mem hs) _ (List.mem_singleton_self _)
      rw [Function.update_of_ne hne, ih hn.1 hs]
    · obtain rfl := List.mem_singleton.1 hs
      rw [Function.update_self]

/-- What holds of a step when it holds of the steps before it holds of all steps. -/
theorem forall_of_before {motive : Step → Prop} {steps : List Step}
    (h : ∀ before s behind, steps = before ++ s :: behind → (∀ u ∈ before, motive u) → motive s) :
    ∀ s ∈ steps, motive s := by
  induction steps using List.reverseRecOn with
  | nil => exact fun s hs => absurd hs List.not_mem_nil
  | append_singleton steps last ih =>
    have hsteps := ih fun before s behind heq hbefore =>
      h before s (behind ++ [last]) (by rw [heq, List.append_assoc]; rfl) hbefore
    intro s hs
    rcases List.mem_append.1 hs with hs | hs
    · exact hsteps s hs
    · obtain rfl := List.mem_singleton.1 hs
      exact h steps s [] rfl hsteps

/-- The errors of the steps, as the tree reports them. -/
def errors (steps : List Step) : List ValidationError :=
  steps.flatMap fun s => s.resolution.errors.map fun e => e.within s.path

/-- The places of the steps that found no value. -/
def absent (steps : List Step) : List Path :=
  (steps.filter fun s => s.resolution.value.isNone).map Step.path

end Step

namespace Pass

/-! ## A pass with a record of its steps -/

/-- The terminal with a note of its step. -/
def noted (e : Path × Resolver) : Path × ResolverIn (Recorded Step) :=
  (e.1, fun scope => do
    let r ← e.2 scope
    ⟨[⟨e.1, scope, r⟩], .ok r⟩)

theorem plain_noted (ts : List (Path × Resolver)) : plain (ts.map noted) = ts := by
  have hplain : ∀ e : Path × Resolver, (e.1, (noted e).2.plain) = e := by
    intro e
    refine Prod.ext rfl (funext fun scope => ?_)
    exact (Recorded.outcome_bind _ _).trans (bind_pure (e.2 scope))
  rw [plain, List.map_map]
  exact List.map_id'' hplain ts

/-- Resolves terminals in the given order, and keeps the steps. -/
def traceAll (scope : Scope) (ts : List (Path × Resolver)) (p : Pass) :
    Except Error (List Step × Pass × Bool) :=
  (resolveAll scope (ts.map noted) p).listen

theorem traceAll_nil (scope : Scope) (p : Pass) : traceAll scope [] p = .ok ([], p, false) := rfl

/-- A pass is its run without the record. -/
theorem resolveAll_eq (scope : Scope) (ts : List (Path × Resolver)) (p : Pass) :
    resolveAll scope ts p = (traceAll scope ts p).map Prod.snd := by
  rw [traceAll, Recorded.map_snd_listen, outcome_resolveAll, plain_noted]

theorem listen_resolveAt (p : Pass) (scope : Scope) (current : NodeId) (path : Path)
    (resolve : Resolver) : (p.resolveAt scope current path (noted (path, resolve)).2).listen =
      match framesAlong p.draft.store current path [] with
      | none => .error (.invalidPath path.text)
      | some frames => (resolve (scope.localize path frames)).map fun r =>
        ([⟨path, scope.localize path frames, r⟩], r) := by
  rw [resolveAt, framesAt, Recorded.listen_lift_bind]
  cases framesAlong p.draft.store current path [] with
  | none => rfl
  | some frames =>
    refine (Recorded.listen_lift_bind _ _).trans ?_
    cases resolve (scope.localize path frames) <;> rfl

/-- What resolving terminals with a record begins with. -/
theorem traceAll_step {scope : Scope} {path : Path} {resolve : Resolver}
    {rest : List (Path × Resolver)} {p : Pass} {current : NodeId} (hroot : p.root = some current) :
    traceAll scope ((path, resolve) :: rest) p =
      match framesAlong p.draft.store current path [] with
      | none => .error (.invalidPath path.text)
      | some frames =>
        match resolve (scope.localize path frames) with
        | .error e => .error e
        | .ok r =>
          if r.stops scope then .ok ([⟨path, scope.localize path frames, r⟩], p.note path r, true)
          else
            match (p.note path r).record current path r.value with
            | .error e => .error e
            | .ok q => (traceAll scope rest q).map fun out =>
              (⟨path, scope.localize path frames, r⟩ :: out.1, out.2) := by
  rw [traceAll, List.map_cons, noted, resolveAll_step hroot, Recorded.listen_bind]
  refine (congrArg (· >>= _) (listen_resolveAt p scope current path resolve)).trans ?_
  cases framesAlong p.draft.store current path [] with
  | none => rfl
  | some frames =>
    dsimp only
    cases resolve (scope.localize path frames) with
    | error e => rfl
    | ok r =>
      change (Recorded.listen (ite _ _ _)).map _ = ite _ _ _
      split
      · rfl
      · rw [Recorded.listen_lift_bind]
        cases (p.note path r).record current path r.value <;> rfl

/-- What a run that does anything begins with. -/
theorem traceAll_cons {scope : Scope} {path : Path} {resolve : Resolver}
    {rest : List (Path × Resolver)} {p : Pass} {current : Nat} (hroot : p.root = some current)
    {steps : List Step} {p' : Pass} {stopped : Bool}
    (h : traceAll scope ((path, resolve) :: rest) p = .ok (steps, p', stopped)) :
    ∃ frames r, framesAlong p.draft.store current path [] = some frames ∧
      resolve (scope.localize path frames) = .ok r ∧
      ((r.stops scope = true ∧ stopped = true ∧
          steps = [⟨path, scope.localize path frames, r⟩] ∧ p' = p.note path r) ∨
        (r.stops scope = false ∧ ∃ q later, (p.note path r).record current path r.value = .ok q ∧
          traceAll scope rest q = .ok (later, p', stopped) ∧
          steps = ⟨path, scope.localize path frames, r⟩ :: later)) := by
  rw [traceAll_step hroot] at h
  cases hf : framesAlong p.draft.store current path [] with
  | none => simp [hf] at h
  | some frames =>
    cases hr : resolve (scope.localize path frames) with
    | error e => simp [hf, hr] at h
    | ok r =>
      refine ⟨frames, r, rfl, hr, ?_⟩
      simp only [hf, hr] at h
      cases hs : r.stops scope with
      | true =>
        simp only [hs, if_true, Except.ok.injEq, Prod.mk.injEq] at h
        obtain ⟨rfl, rfl, rfl⟩ := h
        exact Or.inl ⟨rfl, rfl, rfl, rfl⟩
      | false =>
        simp only [hs, Bool.false_eq_true, if_false] at h
        cases hq : (p.note path r).record current path r.value with
        | error e => simp [hq] at h
        | ok q =>
          cases ht : traceAll scope rest q with
          | error e => simp [hq, ht, Except.map] at h
          | ok found =>
            obtain ⟨later, last, done⟩ := found
            simp only [hq, ht, Except.map, Except.ok.injEq, Prod.mk.injEq] at h
            obtain ⟨rfl, rfl, rfl⟩ := h
            exact Or.inr ⟨rfl, q, later, rfl, ht, rfl⟩

/-! ## What a pass shows -/

/-- The pass works on the form of the node with these slots. -/
def Shows (p : Pass) (n : Node) (σ : Path → Slot) : Prop :=
  ∃ u, p.root = some u.id ∧ Draft.Sound p.draft u ∧ u.tree = n.form σ

/-- A pass over a laid node begins with empty slots. -/
theorem start_shows (n : Node) : (start (n.lay {}).1 (n.lay {}).2).Shows n Node.noSlots := by
  obtain ⟨u, hid, hlaid, htree⟩ := n.lay_laid {}
  refine ⟨u, congrArg some hid, ⟨fun x hx => ?_, ?_, fun i hi => ?_⟩, htree⟩
  · have hx' := hlaid.holds u (List.mem_singleton_self _) x hx
    have hlt : x.1 < (n.lay {}).1.entries.size := Store.lt_size_of_get? hx'
    exact (if_pos hlt).trans hx'
  · simpa using hlaid.nodup
  · simp [start] at hi

theorem Shows.note {p : Pass} {n : Node} {σ : Path → Slot} (h : p.Shows n σ) (path : Path)
    (r : Resolution) : (p.note path r).Shows n σ := h

/-- Recording the outcome of a terminal fills its slot. -/
theorem Shows.record {p : Pass} {n : Node} {σ : Path → Slot} (h : p.Shows n σ) {site : Site}
    (hsite : site ∈ n.sites) (hσ : σ site.path = none) {current : Nat}
    (hroot : p.root = some current) (v : Option Value) : ∃ q,
      p.record current site.path v = .ok q ∧ q.Shows n (Function.update σ site.path v) := by
  obtain ⟨u, hu, hsound, htree⟩ := h
  cases v with
  | none =>
    refine ⟨_, rfl, u, hu, hsound, ?_⟩
    rw [← hσ, Function.update_eq_self, htree]
  | some v =>
    obtain rfl : u.id = current := Option.some.inj (hu.symm.trans hroot)
    obtain ⟨i, slot, hw⟩ := Node.exists_leaf_site htree hsite
    obtain ⟨d, u', hupdate, hsound', htree'⟩ := Draft.update_put hsound (some v) hw
    refine ⟨{ p with draft := d, root := some u'.id }, ?_, u', rfl, hsound', ?_⟩
    · rw [Pass.record, change, hupdate]
      rfl
    · rw [htree', htree, Node.form_put_site hsite]

/-- Recording an outcome keeps the errors, and takes note of a place without a value. -/
theorem record_eq_ok {p q : Pass} {current : NodeId} {path : Path} {v : Option Value}
    (h : p.record current path v = .ok q) : q.errors = p.errors ∧
      q.absent = p.absent ++ if v.isNone then [path] else [] := by
  cases v with
  | none =>
    obtain rfl := Except.ok.inj h
    exact ⟨rfl, rfl⟩
  | some v =>
    obtain ⟨root, -, hq⟩ := bind_eq_ok_iff.1 h
    obtain rfl := Except.ok.inj hq
    exact ⟨rfl, (List.append_nil _).symm⟩

/-- The value of a pass is the value of the form it shows. -/
theorem Shows.snapshot {p : Pass} {n : Node} {σ : Path → Slot} (h : p.Shows n σ) :
    p.snapshot = .ok ((n.form σ).value fun slot => slot) := by
  obtain ⟨u, hu, hsound, htree⟩ := h
  rw [Pass.snapshot, hu, ← htree]
  exact hsound.holds.materialize _

/-- The containers along a path, outermost last. -/
theorem framesAlong_of_holds {store : Overlay Slot} {u v : Unfolding Slot} (h : Holds store u)
    {path : Path} (hv : u.at? path = some v) (outer : List Frame) :
    ∃ inner, framesAlong store u.id path outer = some (inner ++ outer) ∧
      inner.length = path.length ∧ ∀ k < path.length, ∃ w, u.at? (path.take k) = some w ∧
        inner[path.length - (k + 1)]? = some ⟨store, w.id⟩ := by
  induction path generalizing u outer with
  | nil => exact ⟨[], rfl, rfl, by simp⟩
  | cons key rest ih =>
    obtain ⟨child, hc, hv⟩ := Option.bind_eq_some_iff.1 hv
    obtain ⟨inner, hinner, hlen, hk⟩ := ih (h.child hc) hv (⟨store, u.id⟩ :: outer)
    refine ⟨inner ++ [⟨store, u.id⟩], ?_, by simp [hlen], fun k hlt => ?_⟩
    · rw [framesAlong, h.child?_eq, hc]
      simpa using hinner
    · cases k with
      | zero =>
        refine ⟨u, rfl, ?_⟩
        simp [hlen]
      | succ k =>
        have hlt' : k < rest.length := by simpa using hlt
        obtain ⟨w, hw, hframe⟩ := hk k hlt'
        refine ⟨w, ?_, ?_⟩
        · rw [List.take_succ_cons, Unfolding.at?, hc]
          exact hw
        · rw [List.length_cons, Nat.add_sub_add_right, List.getElem?_append_left (by omega)]
          exact hframe

end Pass

namespace Step

open Pass

/-- The step was made at its place of the tree `t`, inside the scope `outer`. -/
def Faces (s : Step) (outer : Scope) (t : Tree Slot) : Prop :=
  ∃ frames, s.scope = outer.localize s.path frames ∧ frames.length = s.path.length ∧
    ∀ k < s.path.length, ∃ frame, frames[s.path.length - (k + 1)]? = some frame ∧
      ∀ q, frame.read q = .ok (t.read (s.path.take k ++ q))

variable {s : Step} {outer : Scope} {t : Tree Slot}

/-- The container of a reference that is anchored in the tree is there, and shows the tree. -/
theorem Faces.frame_inside (h : s.Faces outer t) {r : Reference} {target : Path}
    (hin : r.inside? outer.frames.length s.path = some target) :
    ∃ frame, s.scope.frame? r.anchor = some frame ∧ frame.read r.path = .ok (t.read target) := by
  obtain ⟨frames, hscope, hlen, hread⟩ := h
  obtain ⟨k, hk, rfl, hanchor⟩ := Reference.inside?_eq_some hin
  obtain ⟨frame, hframe, hread⟩ := hread k hk
  exact ⟨frame, by rw [hscope, hanchor outer frames rfl hlen, hframe], hread r.path⟩

/-- A reference that is anchored in the tree reads the tree. -/
theorem Faces.lookUp_inside (h : s.Faces outer t) {r : Reference} {target : Path}
    (hin : r.inside? outer.frames.length s.path = some target) :
    s.scope.lookUp r = .ok (t.read target) := by
  obtain ⟨frame, hframe, hread⟩ := h.frame_inside hin
  obtain ⟨anchor, path⟩ := r
  cases anchor with
  | root => simp [Reference.inside?] at hin
  | relative up => simp only [Scope.lookUp, hframe, hread]
  | level depth => simp only [Scope.lookUp, hframe, hread]

/-- A level reference that counts into the tree reads it. -/
theorem Faces.lookUp_level (h : s.Faces outer t) {depth : Nat} (hge : outer.frames.length ≤ depth)
    (hlt : depth < outer.frames.length + s.path.length) (path : Path) :
    s.scope.lookUp ⟨.level depth, path⟩ =
      .ok (t.read (s.path.take (depth - outer.frames.length) ++ path)) :=
  h.lookUp_inside (if_pos ⟨hge, hlt⟩)

/-- In the outermost tree a reference with a target reads it. -/
theorem Faces.lookUp_target (h : s.Faces outer t) (houter : outer.frames = []) {r : Reference}
    {target : Path} (ht : r.target? s.path = some target) :
    s.scope.lookUp r = .ok (t.read target) :=
  h.lookUp_inside (by rwa [houter, List.length_nil, Reference.inside?_zero])

end Step

namespace Pass

/-- The containers around the place of a terminal are there. -/
theorem Shows.exists_frames {p : Pass} {n : Node} {σ : Path → Slot} (h : p.Shows n σ) {site : Site}
    (hsite : site ∈ n.sites) {current : NodeId} (hroot : p.root = some current) :
    ∃ frames, framesAlong p.draft.store current site.path [] = some frames ∧
      frames.length = site.path.length := by
  obtain ⟨u, hu, hsound, htree⟩ := h
  obtain rfl : u.id = current := Option.some.inj (hu.symm.trans hroot)
  obtain ⟨i, slot, hv⟩ := Node.exists_leaf_site htree hsite
  obtain ⟨inner, hinner, hlen, -⟩ := framesAlong_of_holds hsound.holds hv []
  exact ⟨_, hinner, by rw [List.append_nil, hlen]⟩

/-- A step at the place of a terminal faces the form that the pass shows. -/
theorem Shows.faces {p : Pass} {n : Node} {σ : Path → Slot} (h : p.Shows n σ) {site : Site}
    (hsite : site ∈ n.sites) {current : Nat} (hroot : p.root = some current) {frames : List Frame}
    (hf : framesAlong p.draft.store current site.path [] = some frames) (scope : Scope)
    (r : Resolution) :
    Step.Faces ⟨site.path, scope.localize site.path frames, r⟩ scope (n.form σ) := by
  obtain ⟨u, hu, hsound, htree⟩ := h
  obtain rfl : u.id = current := Option.some.inj (hu.symm.trans hroot)
  obtain ⟨i, slot, hv⟩ := Node.exists_leaf_site htree hsite
  obtain ⟨inner, hinner, hlen, hk⟩ := framesAlong_of_holds hsound.holds hv []
  obtain rfl : inner = frames := by simpa using hinner.symm.trans hf
  refine ⟨inner, rfl, hlen, fun k hlt => ?_⟩
  obtain ⟨w, hw, hframe⟩ := hk k hlt
  refine ⟨_, hframe, fun q => ?_⟩
  have hwt : (n.form σ).at? (site.path.take k) = some w.tree := by
    rw [← htree, Unfolding.at?_tree, hw]
    rfl
  rw [Tree.read_append hwt]
  exact (hsound.holds.at? hw).follow q

/-- How a run that begins with `p₀` ends in `p`: the steps `kept` have filled their slots. These are
all steps, or all but one that stopped the run. -/
structure Ended (scope : Scope) (n : Node) (done kept steps : List Step) (p₀ p : Pass)
    (stopped : Bool) : Prop where
  shows : p.Shows n (Step.slots (done ++ kept))
  errors : p.errors = p₀.errors ++ Step.errors steps
  absent : p.absent = p₀.absent ++ Step.absent kept
  passed : ∀ s ∈ kept, s.resolution.stops scope = false
  rest : stopped = false ∧ steps = kept ∨
    stopped = true ∧ ∃ s, steps = kept ++ [s] ∧ s.resolution.stops scope = true

/-- What a run over terminals of the node gives, from the pass `p₀` after the steps `done`. -/
structure Traced (scope : Scope) (n : Node) (done : List Step) (ts : List (Path × Resolver))
    (steps : List Step) (p₀ p : Pass) (stopped : Bool) : Prop where
  paths : steps.map Step.path <+: ts.map Prod.fst
  all : stopped = false → steps.map Step.path = ts.map Prod.fst
  asked : stopped = true → scope.prefs.abortEarly = true
  outcome : ∀ s ∈ steps, ∃ resolve, (s.path, resolve) ∈ ts ∧ resolve s.scope = .ok s.resolution
  faces : ∀ before s behind, steps = before ++ s :: behind →
    s.Faces scope (n.form (Step.slots (done ++ before)))
  ending : ∃ kept, Ended scope n done kept steps p₀ p stopped

/-- A step that does not stop the run comes before what the rest of the run keeps. -/
theorem Ended.cons {scope : Scope} {n : Node} {done kept later : List Step} {s : Step}
    {p q p' : Pass} {current : NodeId} {stopped : Bool}
    (h : Ended scope n (done ++ [s]) kept later q p' stopped)
    (hq : (p.note s.path s.resolution).record current s.path s.resolution.value = .ok q)
    (hs : s.resolution.stops scope = false) :
    Ended scope n done (s :: kept) (s :: later) p p' stopped := by
  obtain ⟨herrors, habsent⟩ := record_eq_ok hq
  refine ⟨?_, ?_, ?_, List.forall_mem_cons.2 ⟨hs, h.passed⟩, ?_⟩
  · rw [List.append_cons]
    exact h.shows
  · rw [h.errors, herrors]
    exact List.append_assoc _ _ _
  · rw [h.absent, habsent, List.append_assoc]
    refine congrArg (p.absent ++ ·) ?_
    cases hv : s.resolution.value <;> simp [Step.absent, hv]
  · rcases h.rest with ⟨hst, rfl⟩ | ⟨hst, last, rfl, hlast⟩
    · exact Or.inl ⟨hst, rfl⟩
    · exact Or.inr ⟨hst, last, rfl, hlast⟩

/-- Every step of a run faces the form as the steps before it left it. -/
theorem traceAll_traced {scope : Scope} {n : Node} {ts : List (Path × Resolver)} {p p' : Pass}
    {done steps : List Step} {stopped : Bool} (h : traceAll scope ts p = .ok (steps, p', stopped))
    (hp : p.Shows n (Step.slots done)) (hsites : ∀ e ∈ ts, ∃ site ∈ n.sites, site.path = e.1)
    (hn : (done.map Step.path ++ ts.map Prod.fst).Nodup) :
    Traced scope n done ts steps p p' stopped := by
  induction ts generalizing p done steps with
  | nil =>
    simp only [traceAll_nil, Except.ok.injEq, Prod.mk.injEq] at h
    obtain ⟨rfl, rfl, rfl⟩ := h
    refine ⟨List.prefix_refl _, fun _ => rfl, by simp, by simp, by simp, [], ?_⟩
    exact ⟨by rwa [List.append_nil], (List.append_nil _).symm, (List.append_nil _).symm, by simp,
      Or.inl ⟨rfl, rfl⟩⟩
  | cons e rest ih =>
    obtain ⟨path, resolve⟩ := e
    obtain ⟨site, hsite, rfl⟩ := hsites _ List.mem_cons_self
    obtain ⟨u, hroot, -⟩ := id hp
    obtain ⟨frames, r, hframes, hr, hcase⟩ := traceAll_cons hroot h
    have hface := hp.faces hsite hroot hframes scope r
    rcases hcase with ⟨hstop, rfl, rfl, rfl⟩ | ⟨hstop, q, later, hq, hrun, rfl⟩
    · refine ⟨by simp, by simp, fun _ => ?_, ?_, ?_, [], ?_⟩
      · rw [Resolution.stops, Bool.and_eq_true] at hstop
        exact hstop.2
      · intro s hs
        obtain rfl := List.mem_singleton.1 hs
        exact ⟨resolve, List.mem_cons_self, hr⟩
      · intro before s behind heq
        cases before with
        | nil =>
          obtain ⟨rfl, -⟩ := List.cons.inj heq
          simpa using hface
        | cons first before => simp at heq
      · exact ⟨by rw [List.append_nil]; exact hp.note _ _, by simp [Pass.note, Step.errors],
          (List.append_nil _).symm, by simp, Or.inr ⟨rfl, _, rfl, hstop⟩⟩
    · have hfree : Step.slots done site.path = none := by
        refine Step.slots_of_notMem fun hmem => ?_
        exact (List.nodup_append.1 hn).2.2 _ hmem _ (by simp) rfl
      obtain ⟨q', hq', hshows⟩ := (hp.note site.path r).record hsite hfree hroot r.value
      obtain rfl : q' = q := Except.ok.inj (hq'.symm.trans hq)
      have hdone : Step.slots (done ++ [⟨site.path, scope.localize site.path frames, r⟩]) =
          Function.update (Step.slots done) site.path r.value := Step.slots_concat _ _
      have hshows : q'.Shows n
          (Step.slots (done ++ [⟨site.path, scope.localize site.path frames, r⟩])) :=
        hdone ▸ hshows
      have hlater := ih hrun hshows (fun e he => hsites e (List.mem_cons_of_mem _ he))
        (by simpa using hn)
      obtain ⟨kept, hend⟩ := hlater.ending
      refine ⟨?_, fun hs => ?_, hlater.asked, ?_, ?_, _, hend.cons hq hstop⟩
      · exact List.cons_prefix_cons.2 ⟨rfl, hlater.paths⟩
      · exact congrArg (List.cons _) (hlater.all hs)
      · intro s hs
        rcases List.mem_cons.1 hs with rfl | hs
        · exact ⟨resolve, List.mem_cons_self, hr⟩
        · obtain ⟨resolve', hmem, hres⟩ := hlater.outcome s hs
          exact ⟨resolve', List.mem_cons_of_mem _ hmem, hres⟩
      · intro before s behind heq
        cases before with
        | nil =>
          obtain ⟨rfl, -⟩ := List.cons.inj heq
          simpa using hface
        | cons first before =>
          obtain ⟨rfl, hrest⟩ := List.cons.inj heq
          have hf := hlater.faces before s behind hrest
          rwa [List.append_assoc] at hf

end Pass

end ValueResolution
