import ValueResolution.Key
/-!
# The order of paths

The order of paths is the lexicographic one on the order of keys (`Path.order_eq`), so both are
total orders. Sorting therefore puts paths in order (`Path.pairwise_sort`), and paths of which no
two are equal come out strictly descending when the sorted list is reversed
(`Path.pairwise_reverse_sort`).
-/

set_option autoImplicit false

namespace ValueResolution

namespace Key

instance : Std.TransCmp order where
  eq_swap {a b} := by
    cases a with
    | field a =>
      cases b with
      | field b => exact Std.OrientedOrd.eq_swap
      | index j => rfl
    | index i =>
      cases b with
      | field b => rfl
      | index j => exact Std.OrientedOrd.eq_swap
  isLE_trans {a b c} hab hbc := by
    cases a with
    | field a =>
      cases c with
      | index k => rfl
      | field c =>
        cases b with
        | index j => simp [order] at hbc
        | field b => exact Std.TransOrd.isLE_trans hab hbc
    | index i =>
      cases b with
      | field b => simp [order] at hab
      | index j =>
        cases c with
        | field c => simp [order] at hbc
        | index k => exact Std.TransOrd.isLE_trans hab hbc

instance : Std.LawfulEqCmp order where
  compare_self {a} := by
    cases a with
    | field a => exact Std.ReflOrd.compare_self
    | index i => exact Std.ReflOrd.compare_self
  eq_of_compare {a b} h := by
    cases a with
    | field a =>
      cases b with
      | field b => exact congrArg field (Std.LawfulEqOrd.eq_of_compare h)
      | index j => simp [order] at h
    | index i =>
      cases b with
      | field b => simp [order] at h
      | index j => exact congrArg index (Std.LawfulEqOrd.eq_of_compare h)

theorem order_self (a : Key) : order a a = .eq := Std.ReflCmp.compare_self

end Key

namespace Path

/-- Paths are compared key by key, and a beginning comes before what it begins. -/
theorem order_eq (p q : Path) : order p q = List.compareLex Key.order p q := by
  induction p generalizing q with
  | nil => cases q <;> rfl
  | cons a p ih =>
    cases q with
    | nil => rfl
    | cons b q => rw [order, ih, List.compareLex_cons_cons]

theorem order_funext : order = List.compareLex Key.order :=
  funext fun p => funext fun q => order_eq p q

instance : Std.TransCmp order := order_funext ▸ inferInstance

instance : Std.LawfulEqCmp order := order_funext ▸ inferInstance

/-- Nothing comes before the empty path. -/
theorem ne_nil_of_lt {p q : Path} (h : order p q = .lt) : q ≠ [] := by
  rintro rfl
  cases p <;> simp [order] at h

/-- Sorted paths stand in order: none comes strictly before one in front of it. -/
theorem pairwise_sort (paths : List Path) :
    (sort paths).Pairwise fun p q => (order p q).isLE = true := by
  refine List.pairwise_mergeSort (fun _ _ _ => Std.TransCmp.isLE_trans) (fun p q => ?_) paths
  have hswap : order q p = (order p q).swap := Std.OrientedCmp.eq_swap
  rw [hswap]
  cases order p q <;> rfl

/-- Sorting keeps every path, as often as it is there. -/
theorem sort_perm (paths : List Path) : (sort paths).Perm paths := List.mergeSort_perm paths _

/-- From the last path to the first, each one is strictly before those in front of it. -/
theorem pairwise_reverse_sort {paths : List Path} (h : paths.Nodup) :
    (sort paths).reverse.Pairwise fun p q => order q p = .lt := by
  rw [List.pairwise_reverse]
  have hn : (sort paths).Nodup := (sort_perm paths).nodup_iff.2 h
  refine ((pairwise_sort paths).and hn).imp fun {p q} hpq => ?_
  obtain ⟨hle, hne⟩ := hpq
  cases horder : order p q with
  | lt => rfl
  | eq => exact absurd (Std.LawfulEqCmp.eq_of_compare horder) hne
  | gt => simp [horder] at hle

end Path

end ValueResolution
