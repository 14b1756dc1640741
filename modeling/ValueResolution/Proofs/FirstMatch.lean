import ValueResolution.Mapping
import ValueResolution.Proofs.Cases
/-!
# What a table gives

A table selects one node for a value (`Mapping.Selects`): that of the first entry whose key
applies, else that of the last marker, else that of the last fallback text. Its conditional keeps
the entries that can apply as cases, and of the others only the node that holds otherwise.

The pattern of such a case is a literal, which has its value in every scope
(`ValueTree.compile_literal`), so the case is decided by equality alone (`select_cons`).
Entries that do not apply are passed by one after the other (`select_append`), and what holds
otherwise is the last of each kind (`otherwise_of_selects`).
-/

set_option autoImplicit false

namespace ValueResolution

/-- The key is a value, not the text of the fallback, and equals the given value. -/
def MapKey.Applies (value : Option Value) (key : MapKey) : Prop :=
  ∃ v, key = .value v ∧ v ≠ .string Mapping.defaultKey ∧ Value.sameOption (some v) value = true

namespace Mapping

/-- The node stands in the first entry with such a key. -/
def First (P : MapKey → Prop) (m : Mapping) (node : Node) : Prop :=
  ∃ before key behind, m = before ++ (key, node) :: behind ∧ P key ∧ ∀ e ∈ before, ¬ P e.1

/-- The node stands in the last entry with such a key. -/
def Last (P : MapKey → Prop) (m : Mapping) (node : Node) : Prop :=
  ∃ before key behind, m = before ++ (key, node) :: behind ∧ P key ∧ ∀ e ∈ behind, ¬ P e.1

/-- What the table selects for a value: a node, or nothing. -/
inductive Selects (m : Mapping) (value : Option Value) : Option Node → Prop where
  | entry {node : Node} (h : m.First (MapKey.Applies value) node) : Selects m value (some node)
  | marker {node : Node} (hentry : ∀ e ∈ m, ¬ e.1.Applies value)
      (h : m.Last (fun key => key = .fallback) node) : Selects m value (some node)
  | text {node : Node} (hentry : ∀ e ∈ m, ¬ e.1.Applies value)
      (hmarker : ∀ e ∈ m, e.1 ≠ .fallback)
      (h : m.Last (fun key => key = .value (.string defaultKey)) node) : Selects m value (some node)
  | nothing (hentry : ∀ e ∈ m, ¬ e.1.Applies value) (hmarker : ∀ e ∈ m, e.1 ≠ .fallback)
      (htext : ∀ e ∈ m, e.1 ≠ .value (.string defaultKey)) : Selects m value none

/-! ## The entry that is selected -/

/-- There is a first entry with such a key, or none. -/
theorem first_or_forall_not (P : MapKey → Prop) (m : Mapping) :
    (∃ node, m.First P node) ∨ ∀ e ∈ m, ¬ P e.1 := by
  induction m with
  | nil => exact .inr fun _ he => nomatch he
  | cons e rest ih =>
    by_cases he : P e.1
    · exact .inl ⟨e.2, [], e.1, rest, rfl, he, fun _ h => nomatch h⟩
    · obtain ⟨node, before, key, behind, rfl, hkey, hbefore⟩ | hrest := ih
      · exact .inl ⟨node, e :: before, key, behind, rfl, hkey,
          List.forall_mem_cons.2 ⟨he, hbefore⟩⟩
      · exact .inr (List.forall_mem_cons.2 ⟨he, hrest⟩)

/-- There is a last entry with such a key, or none. -/
theorem last_or_forall_not (P : MapKey → Prop) (m : Mapping) :
    (∃ node, m.Last P node) ∨ ∀ e ∈ m, ¬ P e.1 := by
  obtain ⟨node, before, key, behind, h, hkey, hbefore⟩ | hnone := first_or_forall_not P m.reverse
  · refine .inl ⟨node, behind.reverse, key, before.reverse, ?_, hkey,
      fun e he => hbefore e (List.mem_reverse.1 he)⟩
    rw [← m.reverse_reverse, h]
    simp
  · exact .inr fun e he => hnone e (List.mem_reverse.2 he)

/-- Every table selects something for every value. -/
theorem exists_selects (m : Mapping) (value : Option Value) : ∃ choice, m.Selects value choice := by
  obtain ⟨node, h⟩ | hentry := first_or_forall_not (MapKey.Applies value) m
  · exact ⟨_, .entry h⟩
  obtain ⟨node, h⟩ | hmarker := last_or_forall_not (fun key => key = .fallback) m
  · exact ⟨_, .marker hentry h⟩
  obtain ⟨node, h⟩ | htext := last_or_forall_not (fun key => key = .value (.string defaultKey)) m
  · exact ⟨_, .text hentry hmarker h⟩
  · exact ⟨_, .nothing hentry hmarker htext⟩

/-- Neither an undefined value nor the text of the fallback has an entry of its own. -/
theorem not_applies {value : Option Value}
    (h : value = none ∨ value = some (.string defaultKey)) (key : MapKey) :
    ¬ key.Applies value := by
  rintro ⟨v, -, hv, hsame⟩
  obtain rfl | rfl := h
  · simp [Value.sameOption] at hsame
  · cases v <;> simp_all [Value.sameOption, Value.same]

/-! ## Entries as cases -/

theorem isDefaultKey_iff {key : MapKey} :
    isDefaultKey key = true ↔ key = .value (.string defaultKey) := by
  obtain v | _ := key
  · cases v <;> simp [isDefaultKey]
  · simp [isDefaultKey]

/-- An entry with a value of its own makes a case that compares with it. -/
theorem case?_value {v : Value} (hv : v ≠ .string defaultKey) (node : Node) :
    case? (.value v, node) = some { matcher := .equals (.literal v), outcome := some node } := by
  have h : ¬ isDefaultKey (.value v) = true := fun h => hv (MapKey.value.inj (isDefaultKey_iff.1 h))
  simp only [case?, if_neg h]

end Mapping

/-- A literal compiles to a tree that has its value in every scope. -/
theorem ValueTree.compile_literal (v : Value) : ∃ t, ValueTree.compile (.literal v) = .ok t ∧
    ∀ scope, t.resolver scope = .ok (.ofValue v) :=
  ⟨ofOrder (.literal v) [], rfl, resolver_literal v⟩

namespace Mapping

/-- The case of a value compares with a tree that has this value, and compiles if its node does. -/
theorem compile_case (v : Value) (node : Node) : ∃ p : ValueTree,
    (∀ scope, p.resolver scope = .ok (.ofValue v)) ∧
      Case.compile { matcher := .equals (.literal v), outcome := some node } =
        (fun t => { pattern := .equals p, outcome := some t }) <$> ValueTree.compile node := by
  obtain ⟨p, hp, hval⟩ := ValueTree.compile_literal v
  refine ⟨p, hval, ?_⟩
  rw [Case.compile, Matcher.compile, ValueTree.compile?, hp]
  cases ValueTree.compile node <;> rfl

/-- A case in front decides by equality with its value whether its node counts or the cases behind
it. -/
theorem select_cons {v : Value} {p : ValueTree} (hp : ∀ scope, p.resolver scope = .ok (.ofValue v))
    (t : ValueTree) (rest : List Branch) (otherwise : Option Resolver) (value : Option Value)
    (scope : Scope) :
    Choice.select otherwise value value scope (choicesOf (⟨.equals p, some t⟩ :: rest)) =
      if Value.sameOption (some v) value then t.resolver scope
      else Choice.select otherwise value value scope (choicesOf rest) := by
  cases hsame : Value.sameOption (some v) value with
  | true =>
    have haccepts : (Pattern.equals p).Accepts value scope := .equals (hp scope) rfl hsame
    exact Conditional.select_accepting haccepts
  | false =>
    have hrejects : ∀ b ∈ [(⟨.equals p, some t⟩ : Branch)], b.pattern.Rejects value scope := by
      intro b hb
      obtain rfl := List.mem_singleton.1 hb
      exact .equals (hp scope) rfl hsame
    exact Conditional.select_rejecting hrejects

/-- The cases of a table, compiled. -/
def branches (m : Mapping) : Except Error (List Branch) := (m.filterMap case?).mapM Case.compile

/-- An entry makes no case unless its key is a value of its own. -/
theorem case?_eq_none_or (e : MapKey × Node) :
    case? e = none ∨ ∃ v, e.1 = .value v ∧ v ≠ .string defaultKey := by
  obtain ⟨v | _, node⟩ := e
  · by_cases hv : v = .string defaultKey
    · exact .inl (by simp [hv, case?, isDefaultKey])
    · exact .inr ⟨v, rfl, hv⟩
  · exact .inl rfl

theorem branches_cons_of_none {e : MapKey × Node} (he : case? e = none) (m : Mapping) :
    branches (e :: m) = branches m := by
  rw [branches, List.filterMap_cons_none he, branches]

/-- An entry with a value of its own puts its case in front. -/
theorem branches_cons {v : Value} (hv : v ≠ .string defaultKey) (node : Node) (m : Mapping) :
    ∃ p : ValueTree, (∀ scope, p.resolver scope = .ok (.ofValue v)) ∧
      ∀ bs, branches ((.value v, node) :: m) = .ok bs ↔ ∃ t rest, ValueTree.compile node = .ok t ∧
        branches m = .ok rest ∧ bs = ⟨.equals p, some t⟩ :: rest := by
  obtain ⟨p, hval, hp⟩ := compile_case v node
  refine ⟨p, hval, fun bs => ?_⟩
  rw [branches, List.filterMap_cons_some (case?_value hv node), List.mapM_cons, hp, branches]
  simp only [bind_eq_ok_iff, map_eq_ok_iff, pure, Except.pure, Except.ok.injEq]
  constructor
  · rintro ⟨_, ⟨t, ht, rfl⟩, rest, hrest, rfl⟩
    exact ⟨t, rest, ht, hrest, rfl⟩
  · rintro ⟨t, rest, ht, hrest, rfl⟩
    exact ⟨_, ⟨t, ht, rfl⟩, rest, hrest, rfl⟩

/-- The cases of a table compile if its nodes do. -/
theorem exists_branches {m : Mapping} (h : ∀ e ∈ m, ∃ t, ValueTree.compile e.2 = .ok t) :
    ∃ bs, branches m = .ok bs := by
  induction m with
  | nil => exact ⟨[], rfl⟩
  | cons e m ih =>
    obtain ⟨⟨t, ht⟩, hm⟩ := List.forall_mem_cons.1 h
    obtain ⟨rest, hrest⟩ := ih hm
    obtain hnone | ⟨v, hkey, hv⟩ := case?_eq_none_or e
    · exact ⟨rest, by rw [branches_cons_of_none hnone, hrest]⟩
    · obtain ⟨p, -, hp⟩ := branches_cons hv e.2 m
      rw [← hkey] at hp
      exact ⟨_, (hp _).2 ⟨t, rest, ht, hrest, rfl⟩⟩

/-! ## The case that is selected -/

section Select

variable {m : Mapping} {value : Option Value} {bs : List Branch}

/-- An entry in front whose key applies is selected. -/
theorem select_of_applies {key : MapKey} {node : Node} (hkey : key.Applies value)
    (h : branches ((key, node) :: m) = .ok bs) : ∃ t, ValueTree.compile node = .ok t ∧
      ∀ otherwise scope,
        Choice.select otherwise value value scope (choicesOf bs) = t.resolver scope := by
  obtain ⟨v, rfl, hv, hsame⟩ := hkey
  obtain ⟨p, hval, hp⟩ := branches_cons hv node m
  obtain ⟨t, rest, ht, -, rfl⟩ := (hp bs).1 h
  exact ⟨t, ht, fun otherwise scope => by rw [select_cons hval, if_pos hsame]⟩

/-- An entry that does not apply is passed by. -/
theorem select_of_not_applies {e : MapKey × Node} (he : ¬ e.1.Applies value)
    (h : branches (e :: m) = .ok bs) : ∃ rest, branches m = .ok rest ∧
      ∀ otherwise scope, Choice.select otherwise value value scope (choicesOf bs) =
        Choice.select otherwise value value scope (choicesOf rest) := by
  obtain hnone | ⟨v, hkey, hv⟩ := case?_eq_none_or e
  · exact ⟨bs, by rw [← branches_cons_of_none hnone, h], fun _ _ => rfl⟩
  · obtain ⟨p, hval, hp⟩ := branches_cons hv e.2 m
    rw [← hkey] at hp
    obtain ⟨t, rest, -, hrest, rfl⟩ := (hp bs).1 h
    have hsame : ¬ Value.sameOption (some v) value = true := fun hsame => he ⟨v, hkey, hv, hsame⟩
    exact ⟨rest, hrest, fun otherwise scope => by rw [select_cons hval, if_neg hsame]⟩

/-- Entries that do not apply make no difference to what is selected. -/
theorem select_append {before : Mapping} (hbefore : ∀ e ∈ before, ¬ e.1.Applies value)
    (h : branches (before ++ m) = .ok bs) : ∃ rest, branches m = .ok rest ∧
      ∀ otherwise scope, Choice.select otherwise value value scope (choicesOf bs) =
        Choice.select otherwise value value scope (choicesOf rest) := by
  induction before generalizing bs with
  | nil => exact ⟨bs, h, fun _ _ => rfl⟩
  | cons e before ih =>
    obtain ⟨he, hbefore⟩ := List.forall_mem_cons.1 hbefore
    obtain ⟨mid, hmid, hstep⟩ := select_of_not_applies he h
    obtain ⟨rest, hrest, hrun⟩ := ih hbefore hmid
    exact ⟨rest, hrest, fun otherwise scope => (hstep otherwise scope).trans (hrun otherwise scope)⟩

/-- The first entry whose key applies is selected. -/
theorem select_of_first {node : Node} (hfirst : m.First (MapKey.Applies value) node)
    (h : branches m = .ok bs) : ∃ t, ValueTree.compile node = .ok t ∧
      ∀ otherwise scope,
        Choice.select otherwise value value scope (choicesOf bs) = t.resolver scope := by
  obtain ⟨before, key, behind, rfl, hkey, hbefore⟩ := hfirst
  obtain ⟨rest, hrest, hrun⟩ := select_append hbefore h
  obtain ⟨t, ht, hselect⟩ := select_of_applies hkey hrest
  exact ⟨t, ht, fun otherwise scope => (hrun otherwise scope).trans (hselect otherwise scope)⟩

/-- If no key applies, what holds otherwise is selected. -/
theorem select_of_forall_not (hentry : ∀ e ∈ m, ¬ e.1.Applies value) (h : branches m = .ok bs)
    (otherwise : Option Resolver) (scope : Scope) :
    Choice.select otherwise value value scope (choicesOf bs) =
      Resolver.orUndefined otherwise scope := by
  rw [← m.append_nil] at h
  obtain ⟨rest, hrest, hrun⟩ := select_append hentry h
  obtain rfl := Except.ok.inj hrest
  rw [hrun]
  rfl

end Select

/-! ## What holds otherwise -/

section Otherwise

variable {m : Mapping} {P : MapKey → Prop} {pick : MapKey × Node → Option Node}

/-- Among the nodes that are picked by their keys, that of the last such entry comes last. -/
theorem getLast?_of_last (hpick : ∀ e, P e.1 → pick e = some e.2)
    (hskip : ∀ e, ¬ P e.1 → pick e = none) {node : Node} (h : m.Last P node) :
    (m.filterMap pick).getLast? = some node := by
  obtain ⟨before, key, behind, rfl, hkey, hbehind⟩ := h
  have hnil : behind.filterMap pick = [] :=
    List.filterMap_eq_nil_iff.2 fun e he => hskip e (hbehind e he)
  rw [List.filterMap_append, List.filterMap_cons_some (hpick (key, node) hkey), hnil]
  exact List.getLast?_concat

theorem getLast?_of_forall_not (hskip : ∀ e, ¬ P e.1 → pick e = none)
    (h : ∀ e ∈ m, ¬ P e.1) : (m.filterMap pick).getLast? = none := by
  rw [List.filterMap_eq_nil_iff.2 fun e he => hskip e (h e he)]
  rfl

/-- The last marker names the node that holds otherwise. -/
theorem marked?_of_last {node : Node} (h : m.Last (fun key => key = .fallback) node) :
    marked? m = some node := by
  refine getLast?_of_last (fun e he => ?_) (fun e he => ?_) h
  · obtain ⟨key, node⟩ := e
    obtain rfl : key = .fallback := he
    rfl
  · obtain ⟨v | _, node⟩ := e
    · rfl
    · exact absurd rfl he

theorem marked?_eq_none (h : ∀ e ∈ m, e.1 ≠ .fallback) : marked? m = none := by
  refine getLast?_of_forall_not (P := fun key => key = .fallback) (fun e he => ?_) h
  obtain ⟨v | _, node⟩ := e
  · rfl
  · exact absurd rfl he

theorem named?_of_last {node : Node}
    (h : m.Last (fun key => key = .value (.string defaultKey)) node) : named? m = some node :=
  getLast?_of_last (fun _ he => if_pos (isDefaultKey_iff.2 he))
    (fun _ he => if_neg fun h => he (isDefaultKey_iff.1 h)) h

theorem named?_eq_none (h : ∀ e ∈ m, e.1 ≠ .value (.string defaultKey)) : named? m = none :=
  getLast?_of_forall_not (P := fun key => key = .value (.string defaultKey))
    (fun _ he => if_neg fun h => he (isDefaultKey_iff.1 h)) h

/-- Where no entry applies, what holds otherwise is what is selected. -/
theorem otherwise_of_selects {value : Option Value} {choice : Option Node}
    (hentry : ∀ e ∈ m, ¬ e.1.Applies value) (h : m.Selects value choice) :
    m.toWhen.otherwise = choice := by
  have hor : m.toWhen.otherwise = (marked? m).or (named? m) := rfl
  rw [hor]
  cases h with
  | @entry node h =>
    obtain ⟨before, key, behind, rfl, hkey, -⟩ := h
    exact absurd hkey (hentry (key, node) (by simp))
  | marker _ h => rw [marked?_of_last h, Option.some_or]
  | text _ hmarker h => rw [marked?_eq_none hmarker, named?_of_last h, Option.none_or]
  | nothing _ hmarker htext => rw [marked?_eq_none hmarker, named?_eq_none htext, Option.none_or]

end Otherwise

theorem exists_mem_of_selects {m : Mapping} {value : Option Value} {node : Node}
    (h : m.Selects value (some node)) : ∃ e ∈ m, e.2 = node := by
  cases h with
  | entry h | marker _ h | text _ _ h =>
    obtain ⟨before, key, behind, rfl, -⟩ := h
    exact ⟨(key, node), by simp, rfl⟩

/-! ## The table as a whole -/

/-- The conditional of a table consists of its cases and the node that holds otherwise, each
compiled. -/
theorem compile_toWhen_iff {m : Mapping} {c : Conditional} : m.toWhen.compile = .ok c ↔
    ∃ bs, branches m = .ok bs ∧
      ∃ o, ValueTree.compile? m.toWhen.otherwise = .ok o ∧ c = ⟨none, bs, o⟩ := by
  simp only [When.compile, bind_eq_ok_iff, pure, Except.pure, Except.ok.injEq, eq_comm (a := c)]
  rfl

/-- The conditional of a table compiles if its nodes do. -/
theorem exists_compile_toWhen {m : Mapping} (h : ∀ e ∈ m, ∃ t, ValueTree.compile e.2 = .ok t) :
    ∃ c, m.toWhen.compile = .ok c := by
  obtain ⟨bs, hbs⟩ := exists_branches h
  -- an undefined value has no entry, so what is selected for it is what holds otherwise
  obtain ⟨choice, hchoice⟩ := exists_selects m none
  have hotherwise := otherwise_of_selects (fun e _ => not_applies (.inl rfl) e.1) hchoice
  have hcompile : ∃ o, ValueTree.compile? m.toWhen.otherwise = .ok o := by
    rw [hotherwise]
    cases choice with
    | none => exact ⟨none, rfl⟩
    | some node =>
      obtain ⟨e, he, rfl⟩ := exists_mem_of_selects hchoice
      obtain ⟨t, ht⟩ := h e he
      exact ⟨some t, by rw [ValueTree.compile?, ht]; rfl⟩
  obtain ⟨o, ho⟩ := hcompile
  exact ⟨_, compile_toWhen_iff.2 ⟨bs, hbs, o, ho, rfl⟩⟩

/-- The conditional of a table turns a value into what is selected for it. -/
theorem mapping_of_selects {m : Mapping} {c : Conditional} (hc : m.toWhen.compile = .ok c)
    {value : Option Value} {choice : Option Node} (h : m.Selects value choice) :
    ∃ o, ValueTree.compile? choice = .ok o ∧
      ∀ scope, c.mapping value scope = Resolver.orUndefined (resolverOfTree? o) scope := by
  obtain ⟨bs, hbs, o, ho, rfl⟩ := compile_toWhen_iff.1 hc
  have hmapping (scope : Scope) : Conditional.mapping ⟨none, bs, o⟩ value scope =
      Choice.select (resolverOfTree? o) value value scope (choicesOf bs) := rfl
  by_cases hentry : ∀ e ∈ m, ¬ e.1.Applies value
  · rw [otherwise_of_selects hentry h] at ho
    exact ⟨o, ho, fun scope => (hmapping scope).trans (select_of_forall_not hentry hbs _ scope)⟩
  · cases h with
    | entry hfirst =>
      obtain ⟨t, ht, hselect⟩ := select_of_first hfirst hbs
      refine ⟨some t, by rw [ValueTree.compile?, ht]; rfl, fun scope => ?_⟩
      exact (hmapping scope).trans (hselect _ scope)
    | marker hnone | text hnone | nothing hnone => exact absurd hnone hentry

/-- A table whose nodes compile is a conditional, and this gives for every value, in every scope,
the resolution of the node that the table selects: that of the first entry whose key is a value and
equals it, else that of the last marker, else that of the last fallback text, and nothing where the
table has none of these. An undefined value and the fallback text have no entry that applies. -/
theorem toWhen_selects (m : Mapping) :
    ((∀ e ∈ m, ∃ t, ValueTree.compile e.2 = .ok t) → ∃ c, m.toWhen.compile = .ok c) ∧
      ∀ c, m.toWhen.compile = .ok c → ∀ value : Option Value,
        (∃ choice, m.Selects value choice) ∧
        (∀ node, m.Selects value (some node) → ∃ t, ValueTree.compile node = .ok t ∧
          ∀ scope, c.mapping value scope = t.resolver scope) ∧
        (m.Selects value none → ∀ scope, c.mapping value scope = .ok .undefined) ∧
        (value = none ∨ value = some (.string defaultKey) → ∀ e ∈ m, ¬ e.1.Applies value) := by
  refine ⟨exists_compile_toWhen, fun c hc value => ⟨exists_selects m value, fun node h => ?_,
    fun h => ?_, fun hvalue e _ => not_applies hvalue e.1⟩⟩
  · obtain ⟨o, ho, hscope⟩ := mapping_of_selects hc h
    obtain ⟨t, ht, rfl⟩ := map_eq_ok_iff.1 ho
    exact ⟨t, ht, hscope⟩
  · obtain ⟨o, ho, hscope⟩ := mapping_of_selects hc h
    obtain rfl := Except.ok.inj ho
    exact hscope

/-- A table in which keys, markers and fallback texts take turns. -/
def interleaved : Mapping :=
  [(.value (.string defaultKey), .literal (.string "text")),
    (.value (.whole 1), .literal (.string "one")),
    (.fallback, .literal (.string "marker")),
    (.value (.whole 1), .literal (.string "again")),
    (.value (.string defaultKey), .literal (.string "last text")),
    (.fallback, .literal (.string "last marker"))]

theorem interleaved_compiles :
    ∀ e ∈ interleaved, ∃ t, ValueTree.compile e.2 = .ok t := by
  simp only [interleaved, List.forall_mem_cons]
  exact ⟨⟨_, rfl⟩, ⟨_, rfl⟩, ⟨_, rfl⟩, ⟨_, rfl⟩, ⟨_, rfl⟩, ⟨_, rfl⟩, fun _ h => nomatch h⟩

theorem interleaved_first :
    interleaved.Selects (some (.whole 1)) (some (.literal (.string "one"))) := by
  refine .entry ⟨interleaved.take 1, .value (.whole 1), interleaved.drop 2, rfl,
    ⟨.whole 1, rfl, nofun, rfl⟩, fun e he => ?_⟩
  obtain rfl : e = _ := List.mem_singleton.1 he
  rintro ⟨v, hkey, hv, -⟩
  exact hv (MapKey.value.inj hkey).symm

theorem interleaved_marker :
    interleaved.Selects (some (.string defaultKey)) (some (.literal (.string "last marker"))) :=
  .marker (fun e _ => not_applies (.inr rfl) e.1)
    ⟨interleaved.take 5, .fallback, [], rfl, rfl, fun _ h => nomatch h⟩

/-- A value, a fallback text and an empty table. -/
theorem toWhen_selects_interleaved :
    (∃ c, interleaved.toWhen.compile = .ok c ∧ ∀ scope,
      c.mapping (some (.whole 1)) scope = .ok (.ofValue (.string "one")) ∧
      c.mapping (some (.string defaultKey)) scope = .ok (.ofValue (.string "last marker"))) ∧
    ∃ c, (toWhen []).compile = .ok c ∧ ∀ scope, c.mapping none scope = .ok .undefined := by
  have hliteral {v : Value} {t : ValueTree} (h : ValueTree.compile (.literal v) = .ok t)
      (scope : Scope) : t.resolver scope = .ok (.ofValue v) := by
    obtain ⟨p, hp, hval⟩ := ValueTree.compile_literal v
    obtain rfl := Except.ok.inj (hp.symm.trans h)
    exact hval scope
  constructor
  · obtain ⟨c, hc⟩ := (toWhen_selects interleaved).1 interleaved_compiles
    obtain ⟨-, hone, -⟩ := (toWhen_selects interleaved).2 c hc (some (.whole 1))
    obtain ⟨-, htext, -⟩ := (toWhen_selects interleaved).2 c hc (some (.string defaultKey))
    obtain ⟨one, hcone, hone⟩ := hone _ interleaved_first
    obtain ⟨marker, hcmarker, hmarker⟩ := htext _ interleaved_marker
    exact ⟨c, hc, fun scope => ⟨(hone scope).trans (hliteral hcone scope),
      (hmarker scope).trans (hliteral hcmarker scope)⟩⟩
  · obtain ⟨c, hc⟩ := (toWhen_selects []).1 fun _ h => nomatch h
    obtain ⟨-, -, hnothing, -⟩ := (toWhen_selects []).2 c hc none
    exact ⟨c, hc, hnothing (.nothing (fun _ h => nomatch h) (fun _ h => nomatch h)
      fun _ h => nomatch h)⟩

end Mapping

end ValueResolution
