import ValueResolution.Proofs.EarlyStop.Stages
/-!
# Stopping early: passes

A pass only adds to its errors, and its end keeps them. So a pass that is ended at its first failure
has the first errors of one that goes on, and a pass without failures is the same in both
(`Pass.resolveAll_cuts`, `Pass.run_cuts`).
-/

set_option autoImplicit false

namespace ValueResolution

variable {one : Prop}

namespace Pass

variable {scope : Scope}

/-! ## The errors of a pass -/

theorem change_errors {p q : Pass} {current : NodeId} {path : Path} {update : Update Slot}
    (h : p.change current path update = .ok q) : q.errors = p.errors := by
  obtain ⟨root, -, h⟩ := bind_eq_ok_iff.1 h
  obtain rfl := Except.ok.inj h
  rfl

theorem record_errors {p q : Pass} {current : NodeId} {path : Path} {v : Option Value}
    (h : p.record current path v = .ok q) : q.errors = p.errors := by
  cases v with
  | none =>
    obtain rfl := Except.ok.inj h
    rfl
  | some v =>
    have hput : p.change current path (.put (.leaf (some v))) = .ok q := h
    exact change_errors hput

/-- A pass keeps the errors it has. -/
theorem errors_resolveAll {ts : List (Path × Resolver)} {p q : Pass} {stopped : Bool}
    (h : resolveAll scope ts p = .ok (q, stopped)) : p.errors <+: q.errors := by
  induction ts generalizing p with
  | nil =>
    obtain ⟨rfl, rfl⟩ := Prod.mk.inj (Except.ok.inj h)
    exact List.prefix_refl _
  | cons e rest ih =>
    obtain ⟨path, resolve⟩ := e
    cases hroot : p.root with
    | none =>
      rw [resolveAll, hroot] at h
      obtain ⟨rfl, rfl⟩ := Prod.mk.inj (Except.ok.inj h)
      exact List.prefix_refl _
    | some current =>
      rw [resolveAll_cons hroot] at h
      obtain ⟨r, -, h⟩ := bind_eq_ok_iff.1 h
      have hnote : p.errors <+: (p.note path r).errors := List.prefix_append _ _
      split at h
      · obtain ⟨rfl, rfl⟩ := Prod.mk.inj (Except.ok.inj h)
        exact hnote
      · obtain ⟨later, hlater, h⟩ := bind_eq_ok_iff.1 h
        exact (record_errors hlater ▸ hnote).trans (ih h)

theorem stripAll_errors {paths : List Path} {p q : Pass} (h : stripAll paths p = .ok q) :
    q.errors = p.errors := by
  induction paths generalizing p with
  | nil =>
    obtain rfl := Except.ok.inj h
    rfl
  | cons path rest ih =>
    cases hroot : p.root with
    | none =>
      rw [stripAll, hroot] at h
      obtain rfl := Except.ok.inj h
      rfl
    | some current =>
      rw [stripAll, hroot] at h
      obtain ⟨later, hlater, h⟩ := bind_eq_ok_iff.1 h
      exact (ih h).trans (change_errors hlater)

/-- The end of a pass keeps its errors. -/
theorem close_errors {p : Pass} {stopped : Bool} {r : Resolution} (h : p.close stopped = .ok r) :
    r.errors = p.errors := by
  cases stopped with
  | true =>
    obtain ⟨q, hq, h⟩ := bind_eq_ok_iff.1 h
    obtain rfl : p = q := Except.ok.inj hq
    obtain ⟨v, -, h⟩ := bind_eq_ok_iff.1 h
    obtain rfl := Except.ok.inj h
    rfl
  | false =>
    obtain ⟨q, hq, h⟩ := bind_eq_ok_iff.1 h
    obtain ⟨v, -, h⟩ := bind_eq_ok_iff.1 h
    obtain rfl := Except.ok.inj h
    exact stripAll_errors hq

theorem close_stopped {p : Pass} {v : Option Value} (h : p.snapshot = .ok v) :
    p.close true = .ok ⟨v, p.errors⟩ := by
  simp [close, h, bind, Except.bind, pure, Except.pure]

/-! ## Early and full passes -/

theorem resolveAt_agrees {resolve : Resolver} (h : Resolver.Agrees one resolve) (p : Pass)
    (current : NodeId) (path : Path) :
    Resolver.Agrees one fun scope => p.resolveAt scope current path resolve := by
  intro scope full hfull
  simp only [resolveAt_eq] at hfull ⊢
  cases hf : framesAlong p.draft.store current path [] with
  | none => simp [hf] at hfull
  | some frames =>
    simp only [hf, Scope.withAbort_localize] at hfull ⊢
    exact h _ full hfull

/-- A pass that collects all errors is not ended. -/
theorem not_stopped {ts : List (Path × Resolver)} {p q : Pass} {stopped : Bool}
    (h : resolveAll (scope.withAbort false) ts p = .ok (q, stopped)) : stopped = false := by
  induction ts generalizing p with
  | nil => exact (Prod.mk.inj (Except.ok.inj h)).2.symm
  | cons e rest ih =>
    obtain ⟨path, resolve⟩ := e
    cases hroot : p.root with
    | none =>
      rw [resolveAll, hroot] at h
      exact (Prod.mk.inj (Except.ok.inj h)).2.symm
    | some current =>
      rw [resolveAll_cons hroot] at h
      obtain ⟨r, -, h⟩ := bind_eq_ok_iff.1 h
      rw [stops_withAbort_false, if_neg Bool.false_ne_true] at h
      obtain ⟨later, -, h⟩ := bind_eq_ok_iff.1 h
      exact ih h

/-- A pass without errors so far either goes on to the same end as the one that collects all
errors, or ends early at the first terminal that fails. -/
theorem resolveAll_cuts {ts : List (Path × Resolver)} (h : ∀ e ∈ ts, Resolver.Agrees one e.2)
    {p full : Pass} (hp : p.errors = [])
    (hfull : resolveAll (scope.withAbort false) ts p = .ok (full, false)) :
    resolveAll (scope.withAbort true) ts p = .ok (full, false) ∧ full.errors = [] ∨
      ∃ early, resolveAll (scope.withAbort true) ts p = .ok (early, true) ∧
        early.errors ≠ [] ∧ early.errors <+: full.errors ∧ (one → early.errors.length ≤ 1) := by
  induction ts generalizing p with
  | nil =>
    obtain ⟨rfl, -⟩ := Prod.mk.inj (Except.ok.inj hfull)
    exact Or.inl ⟨rfl, hp⟩
  | cons e rest ih =>
    obtain ⟨path, resolve⟩ := e
    cases hroot : p.root with
    | none =>
      rw [resolveAll, hroot] at hfull ⊢
      obtain ⟨rfl, -⟩ := Prod.mk.inj (Except.ok.inj hfull)
      exact Or.inl ⟨rfl, hp⟩
    | some current =>
      rw [resolveAll_cons hroot] at hfull ⊢
      obtain ⟨r, hr, hfull⟩ := bind_eq_ok_iff.1 hfull
      rw [stops_withAbort_false, if_neg Bool.false_ne_true] at hfull
      obtain ⟨q, hq, hrest⟩ := bind_eq_ok_iff.1 hfull
      obtain ⟨early, hearly, hcuts⟩ :=
        resolveAt_agrees (h _ List.mem_cons_self) p current path scope r hr
      have herrors : ∀ r' : Resolution,
          (p.note path r').errors = r'.errors.map fun e => e.within path := by
        intro r'
        simp [note, hp]
      simp only [hearly, Except.bind, stops_withAbort_true, Resolution.isOk, Bool.not_eq_true',
        List.isEmpty_eq_false_iff]
      by_cases hnil : early.errors = []
      · -- both passes record the same, so that no error is there before the next terminal either
        obtain rfl := hcuts.clean hnil
        have hrecord : (p.note path early).record current path early.value = .ok q := hq
        simp only [hnil, ne_eq, not_true_eq_false, if_false, hrecord]
        refine ih (fun e he => h e (List.mem_cons_of_mem _ he)) ?_ hrest
        rw [record_errors hq, herrors, hnil, List.map_nil]
      · have hlater := errors_resolveAll hrest
        rw [record_errors hq, herrors] at hlater
        rw [if_pos hnil]
        refine Or.inr ⟨_, rfl, ?_, ?_, ?_⟩
        · rw [herrors]
          simpa using hnil
        · rw [herrors]
          exact (hcuts.start.map _).trans hlater
        · rw [herrors, List.length_map]
          exact hcuts.single

/-- A whole pass agrees when it has a value wherever it ends early. -/
theorem run_cuts {skeleton : Arena Slot} {root : NodeId} {ts : List (Path × Resolver)}
    (h : ∀ e ∈ ts, Resolver.Agrees one e.2)
    (hvalue : ∀ p, resolveAll (scope.withAbort true) ts (start skeleton root) = .ok (p, true) →
      ∃ v, p.snapshot = .ok v)
    {full : Resolution} (hfull : run skeleton root ts (scope.withAbort false) = .ok full) :
    ∃ early, run skeleton root ts (scope.withAbort true) = .ok early ∧ early.Cuts one full := by
  rw [run_eq] at hfull ⊢
  obtain ⟨⟨p, stopped⟩, hall, hclose⟩ := bind_eq_ok_iff.1 hfull
  obtain rfl := not_stopped hall
  rcases resolveAll_cuts h rfl hall with ⟨hsame, hnil⟩ | ⟨early, hearly, hne, hstart, hsingle⟩
  · rw [hsame]
    have hclean : full.errors = [] := (close_errors hclose).trans hnil
    exact ⟨full, hclose, .refl (by simp [hclean])⟩
  · rw [hearly]
    obtain ⟨v, hv⟩ := hvalue early hearly
    refine ⟨_, close_stopped hv, ?_, fun hnil => absurd hnil hne, hsingle⟩
    rw [close_errors hclose]
    exact hstart

end Pass

end ValueResolution
