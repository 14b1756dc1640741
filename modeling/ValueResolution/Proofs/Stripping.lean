import ValueResolution.Proofs.Fields
import ValueResolution.Proofs.PathOrder
import ValueResolution.Proofs.Tree
/-!
# Taking leaves out of a tree

`Tree.strip` takes what is at a path out of its container; a sequence closes the gap, so positions
behind it move. Of two places the later one can be stripped without moving the earlier one
(`Tree.HasLeaf.strip_of_lt`): where both paths go through one sequence, the later one goes on at a
position that is not smaller, and a leaf has nothing inside.

A leaf without a value does not show in the value of the tree, and taking it out does not change
that value (`Tree.HasLeaf.value_strip`).
-/

set_option autoImplicit false

namespace ValueResolution

namespace Tree

variable {α : Type}

/-- The container without what is under the key. -/
def without (t : Tree α) (key : Key) : Tree α :=
  match t with
  | leaf a => leaf a
  | map children => map (Fields.remove children key.text)
  | seq items =>
    match key.index? with
    | some i => seq (items.eraseIdx i)
    | none => seq items

/-- Takes what is at a path out of its container. The root is in none. -/
def strip : Path → Tree α → Tree α
  | [], t => t
  | [last], t => t.without last
  | key :: next :: rest, t =>
    match t.child? key with
    | some child => t.withChild key (strip (next :: rest) child)
    | none => t

/-- A path that goes on is stripped inside the child that it goes through. -/
theorem strip_cons {t child : Tree α} {key : Key} {rest : Path} (hc : t.child? key = some child)
    (hrest : rest ≠ []) : strip (key :: rest) t = t.withChild key (strip rest child) := by
  obtain ⟨next, rest, rfl⟩ := List.exists_cons_of_ne_nil hrest
  rw [strip, hc]

/-! ## Places of leaves -/

/-- A leaf stands at a place: the keys of the place are fields in mappings and positions in
sequences. -/
inductive HasLeaf (a : α) : Tree α → Path → Prop where
  | here : HasLeaf a (leaf a) []
  | field {children : List (String × Tree α)} {name : String} {child : Tree α} {rest : Path}
      (hc : Fields.at? children name = some child) (h : HasLeaf a child rest) :
      HasLeaf a (map children) (.field name :: rest)
  | item {items : List (Tree α)} {i : Nat} {child : Tree α} {rest : Path}
      (hc : items[i]? = some child) (h : HasLeaf a child rest) :
      HasLeaf a (seq items) (.index i :: rest)

namespace HasLeaf

variable {a b : α} {t : Tree α} {p q : Path}

theorem eq_leaf (h : HasLeaf a t []) : t = leaf a := by
  cases h
  rfl

/-- Stripping a place does not move the places before it. -/
theorem strip_of_lt (hp : HasLeaf a t p) (hq : HasLeaf b t q) (h : Path.order q p = .lt) :
    HasLeaf b (strip p t) q := by
  induction hp generalizing q with
  | here => exact absurd rfl (Path.ne_nil_of_lt h)
  | @field children name child rest hc _ ih =>
    have hchild : (map children).child? (.field name) = some child := hc
    obtain ⟨other, child', rest', hc', hq', rfl⟩ : ∃ other child' rest',
        Fields.at? children other = some child' ∧ HasLeaf b child' rest' ∧
        q = .field other :: rest' := by
      cases hq with
      | field hc' hq' => exact ⟨_, _, _, hc', hq', rfl⟩
    by_cases hname : other = name
    · -- both are in one child, so neither ends there
      subst hname
      obtain rfl : child = child' := Option.some.inj (hc.symm.trans hc')
      have hlt : Path.order rest' rest = .lt := by
        simpa [Path.order, Key.order_self] using h
      rw [strip_cons hchild (Path.ne_nil_of_lt hlt)]
      exact .field ((Fields.at?_put _ _ _ _).trans (if_pos rfl)) (ih hq' hlt)
    · by_cases hrest : rest = []
      · subst hrest
        exact .field ((Fields.at?_remove_of_ne _ (Ne.symm hname)).trans hc') hq'
      · rw [strip_cons hchild hrest]
        refine .field ?_ hq'
        exact (Fields.at?_put _ _ _ _).trans ((if_neg (Ne.symm hname)).trans hc')
  | @item items i child rest hc _ ih =>
    have hchild : (seq items).child? (.index i) = some child := hc
    obtain ⟨j, child', rest', hc', hq', rfl⟩ : ∃ j child' rest',
        items[j]? = some child' ∧ HasLeaf b child' rest' ∧ q = .index j :: rest' := by
      cases hq with
      | item hc' hq' => exact ⟨_, _, _, hc', hq', rfl⟩
    by_cases hij : j = i
    · subst hij
      obtain rfl : child = child' := Option.some.inj (hc.symm.trans hc')
      have hlt : Path.order rest' rest = .lt := by
        simpa [Path.order, Key.order_self] using h
      rw [strip_cons hchild (Path.ne_nil_of_lt hlt)]
      refine .item ?_ (ih hq' hlt)
      exact List.getElem?_set_self (List.getElem?_eq_some_iff.1 hc).1
    · have hji : j < i := by
        have hthen : (compare j i).then (Path.order rest' rest) = .lt := h
        rcases Ordering.then_eq_lt.1 hthen with hlt | ⟨heq, -⟩
        · exact Nat.compare_eq_lt.1 hlt
        · exact absurd (Nat.compare_eq_eq.1 heq) hij
      by_cases hrest : rest = []
      · subst hrest
        exact .item ((List.getElem?_eraseIdx_of_lt hji).trans hc') hq'
      · rw [strip_cons hchild hrest]
        exact .item ((List.getElem?_set_ne (Nat.ne_of_gt hji)).trans hc') hq'

/-- Taking out a leaf without a value keeps the value of the tree. -/
theorem value_strip {valueOf : α → Option Value} (h : HasLeaf a t p) (ha : valueOf a = none) :
    (strip p t).value valueOf = t.value valueOf := by
  induction h with
  | here => rfl
  | @field children name child rest hc hleaf ih =>
    have hchild : (map children).child? (.field name) = some child := hc
    obtain ⟨before, behind, rfl, hno⟩ := Fields.at?_eq_some_iff.1 hc
    by_cases hrest : rest = []
    · subst hrest
      obtain rfl := hleaf.eq_leaf
      simp [strip, without, Key.text, Fields.remove_append _ hno, value, fields_eq, ha]
    · rw [strip_cons hchild hrest]
      simp [withChild, Key.text, Fields.put_append _ _ hno, value, fields_eq, ih,
        List.filterMap_cons]
  | @item items i child rest hc hleaf ih =>
    have hchild : (seq items).child? (.index i) = some child := hc
    obtain ⟨before, behind, rfl, rfl⟩ : ∃ before behind,
        items = before ++ child :: behind ∧ i = before.length := by
      obtain ⟨hlt, rfl⟩ := List.getElem?_eq_some_iff.1 hc
      refine ⟨items.take i, items.drop (i + 1), ?_,
        (List.length_take_of_le (Nat.le_of_lt hlt)).symm⟩
      rw [← List.drop_eq_getElem_cons hlt, List.take_append_drop]
    by_cases hrest : rest = []
    · subst hrest
      obtain rfl := hleaf.eq_leaf
      simp [strip, without, Key.index?, value, values_eq, ha, List.eraseIdx_append_of_length_le]
    · rw [strip_cons hchild hrest]
      simp [withChild, Key.index?, value, values_eq, ih, List.filterMap_cons]

end HasLeaf

end Tree

end ValueResolution
