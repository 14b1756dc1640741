import Mathlib.Tactic.Common
/-!
# Opening outcomes

What a computation in `Except` that ends well says of its steps, and what two computations have in
common that end in the same way (`Like`).
-/

set_option autoImplicit false

namespace ValueResolution

variable {ε α β : Type} {x : Except ε α}

theorem eq_ok_of_toOption {a : α} (h : x.toOption = some a) : x = .ok a := by
  cases x with
  | error e => simp [Except.toOption] at h
  | ok b => exact congrArg _ (Option.some.inj h)

/-- Two computations in a row succeed when both do. -/
theorem bind_eq_ok_iff {f : α → Except ε β} {b : β} :
    x >>= f = .ok b ↔ ∃ a, x = .ok a ∧ f a = .ok b := by
  cases x <;> simp [bind, Except.bind]

theorem bind_eq_error_iff {f : α → Except ε β} {e : ε} :
    x >>= f = .error e ↔ x = .error e ∨ ∃ a, x = .ok a ∧ f a = .error e := by
  cases x <;> simp [bind, Except.bind]

theorem map_eq_ok_iff {f : α → β} {b : β} : f <$> x = .ok b ↔ ∃ a, x = .ok a ∧ f a = b := by
  cases x <;> simp [Functor.map, Except.map]

theorem mapError_eq_ok_iff {ε' : Type} {f : ε → ε'} {a : α} :
    x.mapError f = .ok a ↔ x = .ok a := by
  cases x <;> simp [Except.mapError]

/-- What succeeds for every element succeeds for the list. -/
theorem mapM_eq_ok {f : α → Except ε β} {g : α → β} {l : List α} (h : ∀ a ∈ l, f a = .ok (g a)) :
    l.mapM f = .ok (l.map g) := by
  induction l with
  | nil => rfl
  | cons a rest ih =>
    rw [List.mapM_cons, h a List.mem_cons_self, ih fun b hb => h b (List.mem_cons_of_mem _ hb)]
    rfl

theorem mapM_congr {f g : α → Except ε β} {l : List α} (h : ∀ a ∈ l, f a = g a) :
    l.mapM f = l.mapM g := by
  induction l with
  | nil => rfl
  | cons a rest ih =>
    obtain ⟨ha, hrest⟩ := List.forall_mem_cons.1 h
    rw [List.mapM_cons, List.mapM_cons, ha, ih hrest]

/-- A list of computations fails with what one of them fails with. -/
theorem exists_of_mapM_eq_error {f : α → Except ε β} {l : List α} {e : ε}
    (h : l.mapM f = .error e) : ∃ a ∈ l, f a = .error e := by
  induction l with
  | nil => cases h
  | cons a rest ih =>
    cases ha : f a with
    | error e' =>
      rw [List.mapM_cons, ha] at h
      obtain rfl := Except.error.inj h
      exact ⟨a, List.mem_cons_self, ha⟩
    | ok b =>
      cases hrest : rest.mapM f with
      | error e' =>
        rw [List.mapM_cons, ha, hrest] at h
        obtain rfl := Except.error.inj h
        obtain ⟨a', ha', hf⟩ := ih hrest
        exact ⟨a', List.mem_cons_of_mem _ ha', hf⟩
      | ok bs =>
        rw [List.mapM_cons, ha, hrest] at h
        cases h

/-! ## Computations that end alike -/

/-- Both computations succeed, with related results, or both fail with the same error. -/
inductive Like {α β : Type} (S : α → β → Prop) : Except ε α → Except ε β → Prop where
  | ok {a : α} {b : β} (h : S a b) : Like S (.ok a) (.ok b)
  | error (e : ε) : Like S (.error e) (.error e)

namespace Like

variable {γ δ : Type} {S : α → β → Prop} {T : γ → δ → Prop} {y : Except ε β}

theorem bind (h : Like S x y) {f : α → Except ε γ} {g : β → Except ε δ}
    (hfg : ∀ a b, S a b → Like T (f a) (g b)) : Like T (x >>= f) (y >>= g) := by
  cases h with
  | ok h => exact hfg _ _ h
  | error e => exact .error e

/-- Where one of the two succeeds, so does the other. -/
theorem exists_ok (h : Like S x y) {a : α} (hx : x = .ok a) : ∃ b, y = .ok b ∧ S a b := by
  subst hx
  cases h with
  | ok h => exact ⟨_, rfl, h⟩

end Like

end ValueResolution
