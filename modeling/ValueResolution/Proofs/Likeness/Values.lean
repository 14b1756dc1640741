import Mathlib.Data.List.Forall2
import ValueResolution.Proofs.Node.Layout
import ValueResolution.Proofs.Stripping
import ValueResolution.Resolver
/-!
# Values that resolving cannot tell apart

A relation between values is a `Congruence` when everything that a resolution does with values
respects it: following a path, comparing two values, checking a constraint, and reading the form of
a node whose literals are related to themselves and whose slots hold related values. Equality is
one (`congruence_eq`). Two resolutions are `Alike` when their values are related and their errors
are the same.
-/

set_option autoImplicit false

namespace ValueResolution

/-- Equality of values that may be missing, as a relation between them. -/
theorem rel_eq_iff {α : Type} {a b : Option α} : Option.Rel Eq a b ↔ a = b := by
  constructor
  · rintro (h | -)
    · exact congrArg some h
    · rfl
  · rintro rfl
    cases a with
    | none => exact .none
    | some a => exact .some rfl

theorem isNone_eq_of_rel {α β : Type} {R : α → β → Prop} {a : Option α} {b : Option β}
    (h : Option.Rel R a b) : a.isNone = b.isNone := by
  cases h <;> rfl

/-- What is made alike of related values is related. -/
theorem rel_bind {α β γ δ : Type} {R : α → β → Prop} {S : γ → δ → Prop} {a : Option α}
    {b : Option β} (h : Option.Rel R a b) {f : α → Option γ} {g : β → Option δ}
    (hfg : ∀ x y, R x y → Option.Rel S (f x) (g y)) : Option.Rel S (a.bind f) (b.bind g) := by
  cases h with
  | none => exact .none
  | some h => exact hfg _ _ h

/-- The value stands in the node as a literal. -/
def Node.HasLiteral (n : Node) (v : Value) : Prop :=
  ∃ path, (n.form Node.noSlots).HasLeaf (some v) path

/-- A relation that is respected by all that resolving does with values. -/
structure Congruence (R : Value → Value → Prop) : Prop where
  reach : ∀ {v w : Value}, R v w → ∀ path, Option.Rel R (v.reach path) (w.reach path)
  same : ∀ {v v' w w' : Value}, R v v' → R w w' → v.same w = v'.same w'
  accept : ∀ {v w : Value}, R v w → ∀ (c : Constraint) (convert : Bool),
    Option.Rel R (c.accept? convert v) (c.accept? convert w)
  form : ∀ {n : Node} {σ τ : Path → Slot}, (∀ v, n.HasLiteral v → R v v) →
    (∀ site ∈ n.sites, Option.Rel R (σ site.path) (τ site.path)) →
    ∀ path, Option.Rel R ((n.form σ).read path) ((n.form τ).read path)

/-- Equality is such a relation. -/
theorem congruence_eq : Congruence Eq where
  reach h path := rel_eq_iff.2 (h ▸ rfl)
  same h h' := by rw [h, h']
  accept h c convert := rel_eq_iff.2 (h ▸ rfl)
  form _ h path := rel_eq_iff.2 (by rw [Node.form_congr fun site hs => rel_eq_iff.1 (h site hs)])

/-- Comparing does not tell related values apart, defined or not. -/
theorem Congruence.sameOption {R : Value → Value → Prop} (hR : Congruence R)
    {v v' w w' : Option Value} (hv : Option.Rel R v v') (hw : Option.Rel R w w') :
    Value.sameOption v w = Value.sameOption v' w' := by
  cases hv with
  | none => cases hw <;> rfl
  | some hv =>
    cases hw with
    | none => rfl
    | some hw => exact hR.same hv hw

/-- The values are related and the errors are the same. -/
structure Resolution.Alike (R : Value → Value → Prop) (r r' : Resolution) : Prop where
  value : Option.Rel R r.value r'.value
  errors : r.errors = r'.errors

namespace Resolution.Alike

variable {R : Value → Value → Prop} {r r' : Resolution}

theorem isOk_eq (h : r.Alike R r') : r.isOk = r'.isOk := by rw [isOk, isOk, h.errors]

/-- Alike resolutions end a call in the same cases. -/
theorem stops_eq (h : r.Alike R r') {scope scope' : Scope} (hp : scope.prefs = scope'.prefs) :
    r.stops scope = r'.stops scope' := by
  rw [stops, stops, h.isOk_eq, hp]

end Resolution.Alike

/-- A check has the same outcome for related values. -/
theorem Constraint.check_alike {R : Value → Value → Prop} (hR : Congruence R) (c : Constraint)
    (convert : Bool) {v w : Option Value} (h : Option.Rel R v w) :
    (c.check convert v).Alike R (c.check convert w) := by
  cases h with
  | none => exact ⟨.none, rfl⟩
  | @some v w h =>
    have ha := hR.accept h c convert
    simp only [check]
    generalize c.accept? convert v = accepted, c.accept? convert w = accepted' at ha
    cases ha with
    | none => exact ⟨.some h, rfl⟩
    | some ha => exact ⟨.some ha, rfl⟩

end ValueResolution
