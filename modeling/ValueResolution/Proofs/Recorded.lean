import ValueResolution.Pass
import ValueResolution.Proofs.Outcome
/-!
# Runs with a record

`Recorded ω` is the monad of computations that take notes of the type `ω`; what they noted is there
whether they fail or not. Resolvers are put together in it as in any monad, and its outcome is the
run without the notes: this is said of every stage and of a whole pass by one equation each
(`Pass.outcome_resolveAll`, `Pass.outcome_run`), whatever the notes are about.
-/

set_option autoImplicit false

namespace ValueResolution

/-- A computation, with the notes that it made. -/
structure Recorded (ω α : Type) where
  notes : List ω
  outcome : Except Error α

namespace Recorded

variable {ω α β : Type}

instance : Monad (Recorded ω) where
  pure a := ⟨[], .ok a⟩
  bind x f :=
    match x.outcome with
    | .ok a => ⟨x.notes ++ (f a).notes, (f a).outcome⟩
    | .error e => ⟨x.notes, .error e⟩

/-- A computation that makes no note. -/
def silent (x : Except Error α) : Recorded ω α := ⟨[], x⟩

instance : MonadLift (Except Error) (Recorded ω) where
  monadLift := silent

/-- The notes of the first of two computations do not reach the second. -/
theorem outcome_bind (x : Recorded ω α) (f : α → Recorded ω β) :
    (x >>= f).outcome = x.outcome >>= fun a => (f a).outcome := by
  obtain ⟨notes, outcome⟩ := x
  cases outcome <;> rfl

/-- The notes of two computations are those of the first and then those of the second. -/
theorem notes_bind {x : Recorded ω α} {a : α} (h : x.outcome = .ok a) (f : α → Recorded ω β) :
    (x >>= f).notes = x.notes ++ (f a).notes := by
  obtain ⟨notes, outcome⟩ := x
  obtain rfl : outcome = .ok a := h
  rfl

/-- A note of two computations in a row is one of either. -/
theorem mem_notes_bind {x : Recorded ω α} {f : α → Recorded ω β} {note : ω}
    (h : note ∈ (x >>= f).notes) :
    note ∈ x.notes ∨ ∃ a, x.outcome = .ok a ∧ note ∈ (f a).notes := by
  cases hx : x.outcome with
  | error e =>
    obtain ⟨notes, outcome⟩ := x
    obtain rfl : outcome = .error e := hx
    exact Or.inl h
  | ok a =>
    rw [notes_bind hx] at h
    exact (List.mem_append.1 h).imp_right fun h => ⟨a, rfl, h⟩

/-- The outcome, together with the notes. -/
def listen (x : Recorded ω α) : Except Error (List ω × α) := x.outcome.map fun a => (x.notes, a)

theorem map_snd_listen (x : Recorded ω α) : x.listen.map Prod.snd = x.outcome := by
  obtain ⟨notes, outcome⟩ := x
  cases outcome <;> rfl

/-- Listening to two computations is listening to one after the other. -/
theorem listen_bind (x : Recorded ω α) (f : α → Recorded ω β) :
    (x >>= f).listen = x.listen >>= fun before => (f before.2).listen.map fun out =>
      (before.1 ++ out.1, out.2) := by
  obtain ⟨notes, outcome⟩ := x
  cases outcome with
  | error e => rfl
  | ok a =>
    change Except.map _ (f a).outcome = Except.map _ (Except.map _ (f a).outcome)
    cases (f a).outcome <;> rfl

/-- Nothing is noted of what is lifted. -/
theorem listen_lift_bind (x : Except Error α) (f : α → Recorded ω β) :
    (liftM x >>= f).listen = x >>= fun a => (f a).listen := by
  cases x <;> rfl

end Recorded

/-- The resolver without its notes. -/
def ResolverIn.plain {ω : Type} (f : ResolverIn (Recorded ω)) : Resolver :=
  fun scope => (f scope).outcome

namespace Pass

variable {ω : Type}

/-- The terminals without their notes. -/
def plain (terminals : List (Path × ResolverIn (Recorded ω))) : List (Path × Resolver) :=
  terminals.map fun e => (e.1, e.2.plain)

/-- The scope of a terminal does not depend on what was noted. -/
theorem outcome_resolveAt (p : Pass) (scope : Scope) (current : NodeId) (path : Path)
    (f : ResolverIn (Recorded ω)) :
    (p.resolveAt scope current path f).outcome = p.resolveAt scope current path f.plain :=
  Recorded.outcome_bind _ _

/-- Without the notes, a run over terminals is the run over the terminals without theirs. -/
theorem outcome_resolveAll (scope : Scope) (terminals : List (Path × ResolverIn (Recorded ω)))
    (p : Pass) :
    (resolveAll scope terminals p).outcome = resolveAll scope (plain terminals) p := by
  induction terminals generalizing p with
  | nil => rfl
  | cons e rest ih =>
    obtain ⟨path, f⟩ := e
    cases hroot : p.root with
    | none =>
      rw [plain, List.map_cons, resolveAll, resolveAll, hroot]
      rfl
    | some current =>
      rw [plain, List.map_cons, resolveAll_step hroot, resolveAll_step hroot,
        Recorded.outcome_bind, outcome_resolveAt]
      refine congrArg _ (funext fun r => ?_)
      split
      · rfl
      · rw [Recorded.outcome_bind]
        exact congrArg _ (funext fun q => ih q)

/-- Without the notes, a whole pass is the pass over the terminals without theirs. -/
theorem outcome_run (skeleton : Arena Slot) (root : NodeId)
    (terminals : List (Path × ResolverIn (Recorded ω))) :
    (run skeleton root terminals).plain = run skeleton root (plain terminals) := by
  funext scope
  rw [run_eq, ← outcome_resolveAll]
  exact Recorded.outcome_bind _ _

end Pass

end ValueResolution
