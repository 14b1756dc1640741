import ValueResolution.Proofs.Likeness.Values
/-!
# Equality without regard to the order of fields

`Value.Alike` relates well-formed values that are equal, objects by their names. It is an
equivalence on well-formed values, where it says the same as `Value.same` (`Value.alike_iff`).
Following a path leads from alike values to alike ones (`Value.Alike.reach`), and a constraint lets
them through alike (`Value.Alike.accept?`).
-/

set_option autoImplicit false

namespace ValueResolution

universe u v

/-! ## Look-ups that are related -/

/-- Lists of one length are related when what they have at each position is. -/
theorem forall₂_of_getElem? {α : Type u} {β : Type v} {S : α → β → Prop} {l : List α} {l' : List β}
    (hlen : l.length = l'.length)
    (h : ∀ (i : Nat) a b, l[i]? = some a → l'[i]? = some b → S a b) : List.Forall₂ S l l' :=
  List.forall₂_iff_get.2 ⟨hlen, fun i hi hi' =>
    h i _ _ (List.getElem?_eq_getElem hi) (List.getElem?_eq_getElem hi')⟩

/-- Lists of one length are related place by place. -/
theorem rel_getElem? {α : Type u} {β : Type v} {S : α → β → Prop} {l : List α} {l' : List β}
    (hlen : l.length = l'.length)
    (h : ∀ (i : Nat) a b, l[i]? = some a → l'[i]? = some b → S a b) (i : Nat) :
    Option.Rel S l[i]? l'[i]? := by
  by_cases hi : i < l.length
  · have hi' : i < l'.length := hlen ▸ hi
    rw [List.getElem?_eq_getElem hi, List.getElem?_eq_getElem hi']
    exact .some (h i _ _ (List.getElem?_eq_getElem hi) (List.getElem?_eq_getElem hi'))
  · rw [List.getElem?_eq_none (Nat.not_lt.1 hi), List.getElem?_eq_none (by omega)]
    exact .none

namespace Fields

variable {α : Type u} {β : Type v} {S : α → β → Prop} {fs : Fields α} {fs' : Fields β}

theorem mem_names_iff {name : String} : name ∈ fs.names ↔ ∃ a, fs.at? name = some a := by
  rw [← not_iff_not, ← at?_eq_none_iff]
  cases fs.at? name <;> simp

/-- Fields of the same names are looked up alike. -/
theorem rel_at? (hn : ∀ name, name ∈ fs.names ↔ name ∈ fs'.names)
    (h : ∀ name a b, fs.at? name = some a → fs'.at? name = some b → S a b) (name : String) :
    Option.Rel S (fs.at? name) (fs'.at? name) := by
  cases ha : fs.at? name with
  | none =>
    have hno := mt (hn name).2 ((at?_eq_none_iff fs name).1 ha)
    rw [(at?_eq_none_iff fs' name).2 hno]
    exact .none
  | some a =>
    obtain ⟨b, hb⟩ := mem_names_iff.1 ((hn name).1 (mem_names_iff.2 ⟨a, ha⟩))
    rw [hb]
    exact .some (h name a b ha hb)

/-- Fields that are looked up alike have the same names. -/
theorem mem_names_of_rel (h : ∀ name, Option.Rel S (fs.at? name) (fs'.at? name)) (name : String) :
    name ∈ fs.names ↔ name ∈ fs'.names := by
  have hrel := h name
  rw [← not_iff_not, ← at?_eq_none_iff, ← at?_eq_none_iff]
  generalize fs.at? name = a, fs'.at? name = b at hrel
  cases hrel <;> simp

theorem of_rel_at? (h : ∀ name, Option.Rel S (fs.at? name) (fs'.at? name)) (name : String) (a : α)
    (b : β) (ha : fs.at? name = some a) (hb : fs'.at? name = some b) : S a b := by
  have hrel := h name
  rw [ha, hb] at hrel
  cases hrel with
  | some h => exact h

/-- Objects with the same names have equally many fields. -/
theorem length_eq_of_names (hd : fs.Distinct) (hd' : fs'.Distinct)
    (hn : ∀ name, name ∈ fs.names ↔ name ∈ fs'.names) : fs.length = fs'.length := by
  have hp := (List.perm_ext_iff_of_nodup hd hd').2 hn
  simpa [names] using hp.length_eq

end Fields

/-! ## Floating numbers -/

namespace Binary64

variable {x y z : Binary64}

/-- Floating-point numbers are equal if neither is NaN, and they have the same bits or are both
zero. -/
theorem same_iff : x.same y = true ↔ x.isNaN = false ∧ y.isNaN = false ∧
    (x.bits = y.bits ∨ x.magnitude = 0 ∧ y.magnitude = 0) := by
  simp [same, and_assoc]

theorem same_symm (h : x.same y = true) : y.same x = true := by
  obtain ⟨hx, hy, hxy⟩ := same_iff.1 h
  exact same_iff.2 ⟨hy, hx, hxy.imp Eq.symm And.symm⟩

theorem same_trans (h : x.same y = true) (h' : y.same z = true) : x.same z = true := by
  obtain ⟨hx, -, hxy⟩ := same_iff.1 h
  obtain ⟨-, hz, hyz⟩ := same_iff.1 h'
  refine same_iff.2 ⟨hx, hz, ?_⟩
  rcases hxy with hxy | ⟨hx0, hy0⟩
  · rcases hyz with hyz | ⟨hy0, hz0⟩
    · exact Or.inl (hxy.trans hyz)
    · exact Or.inr ⟨by rw [magnitude, hxy]; exact hy0, hz0⟩
  · rcases hyz with hyz | ⟨-, hz0⟩
    · exact Or.inr ⟨hx0, by rw [magnitude, ← hyz]; exact hy0⟩
    · exact Or.inr ⟨hx0, hz0⟩

theorem same_self (h : x.isNaN = false) : x.same x = true :=
  same_iff.2 ⟨h, h, Or.inl rfl⟩

theorem isNaN_of_isFinite (h : x.isFinite = true) : x.isNaN = false := by
  simp only [isFinite, decide_eq_true_eq] at h
  simp only [isNaN, decide_eq_false_iff_not]
  exact Nat.lt_asymm h

end Binary64

/-- A text is not read as an infinite number, nor as one that is none. -/
theorem isFinite_of_numberOfText? {text : String} {x : Binary64}
    (h : numberOfText? text = some (.float x)) : x.isFinite = true := by
  simp only [numberOfText?] at h
  cases hs : Text.signed? (Text.trim text.toList) with
  | some n => simp [hs] at h
  | none =>
    simp only [hs, Option.map_eq_some_iff, Option.filter_eq_some_iff, Number.float.injEq] at h
    obtain ⟨_, ⟨-, hx⟩, rfl⟩ := h
    exact hx

/-! ## Values -/

namespace Value

/-- The value is well-formed: no object has a field twice, and every floating number is one. -/
inductive Proper : Value → Prop where
  | null : Proper null
  | bool (b : Bool) : Proper (bool b)
  | whole (n : Int) : Proper (number (.whole n))
  | float {x : Binary64} (h : x.isNaN = false) : Proper (number (.float x))
  | string (s : String) : Proper (string s)
  | array {items : List Value} (h : ∀ v ∈ items, Proper v) : Proper (array items)
  | object {fields : List (String × Value)} (hd : Fields.Distinct fields)
      (h : ∀ e ∈ fields, Proper e.2) : Proper (object fields)

/-- The values are well-formed and equal, objects without regard to the order of fields. -/
inductive Alike : Value → Value → Prop where
  | null : Alike null null
  | bool (b : Bool) : Alike (bool b) (bool b)
  | whole (n : Int) : Alike (number (.whole n)) (number (.whole n))
  | float {x y : Binary64} (h : x.same y = true) : Alike (number (.float x)) (number (.float y))
  | string (s : String) : Alike (string s) (string s)
  | array {items items' : List Value} (hlen : items.length = items'.length)
      (h : ∀ (i : Nat) v v', items[i]? = some v → items'[i]? = some v' → Alike v v') :
      Alike (array items) (array items')
  | object {fields fields' : List (String × Value)} (hd : Fields.Distinct fields)
      (hd' : Fields.Distinct fields')
      (names : ∀ name, name ∈ Fields.names fields ↔ name ∈ Fields.names fields')
      (h : ∀ name v v', Fields.at? fields name = some v → Fields.at? fields' name = some v' →
        Alike v v') :
      Alike (object fields) (object fields')

/-- A well-formed value is like itself. -/
theorem alike_self {v : Value} (h : v.Proper) : v.Alike v := by
  induction h with
  | null => exact .null
  | bool b => exact .bool b
  | whole n => exact .whole n
  | float h => exact .float (Binary64.same_self h)
  | string s => exact .string s
  | array _ ih =>
    refine .array rfl fun i v v' hv hv' => ?_
    obtain rfl : v = v' := Option.some.inj (hv.symm.trans hv')
    exact ih v (List.mem_of_getElem? hv)
  | object hd _ ih =>
    refine .object hd hd (fun _ => Iff.rfl) fun name v v' hv hv' => ?_
    obtain rfl : v = v' := Option.some.inj (hv.symm.trans hv')
    exact ih (name, v) (Fields.mem_of_at? hv)

namespace Alike

variable {v w x : Value}

theorem symm (h : v.Alike w) : w.Alike v := by
  induction h with
  | null => exact .null
  | bool b => exact .bool b
  | whole n => exact .whole n
  | float h => exact .float (Binary64.same_symm h)
  | string s => exact .string s
  | array hlen _ ih => exact .array hlen.symm fun i v v' hv hv' => ih i v' v hv' hv
  | object hd hd' names _ ih =>
    exact .object hd' hd (fun name => (names name).symm)
      fun name v v' hv hv' => ih name v' v hv' hv

theorem trans (h : v.Alike w) (h' : w.Alike x) : v.Alike x := by
  induction h generalizing x with
  | null => exact h'
  | bool b => exact h'
  | whole n => exact h'
  | string s => exact h'
  | float h =>
    cases h' with
    | float h' => exact .float (Binary64.same_trans h h')
  | array hlen _ ih =>
    cases h' with
    | array hlen' h' =>
      refine .array (hlen.trans hlen') fun i v y hv hy => ?_
      obtain ⟨hi, -⟩ := List.getElem?_eq_some_iff.1 hv
      have hw := List.getElem?_eq_getElem (hlen ▸ hi)
      exact ih i v _ hv hw (h' i _ y hw hy)
  | object hd _ names _ ih =>
    cases h' with
    | object _ hd' names' h' =>
      refine .object hd hd' (fun name => (names name).trans (names' name))
        fun name v y hv hy => ?_
      obtain ⟨w, hw⟩ := Fields.mem_names_iff.1 ((names' name).2 (Fields.mem_names_iff.2 ⟨y, hy⟩))
      exact ih name v w hv hw (h' name w y hw hy)

end Alike

/-! ### Alike values are the same -/

/-- Arrays are compared item by item. -/
theorem sameItems_iff {vs ws : List Value} :
    sameItems vs ws = true ↔ List.Forall₂ (fun v w => v.same w = true) vs ws := by
  induction vs generalizing ws with
  | nil => cases ws <;> simp [sameItems]
  | cons v vs ih => cases ws <;> simp [sameItems, ih]

/-- Objects are compared by name: each field of one has an equal one in the other. -/
theorem sameFields_iff {fs gs : Fields Value} : sameFields fs gs = true ↔
    ∀ e ∈ fs, ∃ w, gs.at? e.1 = some w ∧ e.2.same w = true := by
  induction fs with
  | nil => simp [sameFields]
  | cons e fs ih =>
    obtain ⟨name, v⟩ := e
    rw [sameFields, Bool.and_eq_true, ih, List.forall_mem_cons]
    refine and_congr_left fun _ => ?_
    cases gs.at? name <;> simp

/-- Alike values are the same. -/
theorem Alike.same {v w : Value} (h : v.Alike w) : v.same w = true := by
  induction h with
  | null => rfl
  | bool b => exact beq_self_eq_true b
  | whole n => exact beq_self_eq_true n
  | float h => exact h
  | string s => exact beq_self_eq_true s
  | array hlen _ ih => exact sameItems_iff.2 (forall₂_of_getElem? hlen ih)
  | object hd hd' names _ ih =>
    rw [Value.same, Bool.and_eq_true, beq_iff_eq, sameFields_iff]
    refine ⟨Fields.length_eq_of_names hd hd' names, fun e he => ?_⟩
    have hv := Fields.at?_of_mem hd he
    obtain ⟨w, hw⟩ := Fields.mem_names_iff.1 ((names e.1).1 (Fields.mem_names_iff.2 ⟨_, hv⟩))
    exact ⟨w, hw, ih e.1 e.2 w hv hw⟩

/-- Well-formed values that are the same are alike. -/
theorem alike_of_same {v w : Value} (hv : v.Proper) (hw : w.Proper) (h : v.same w = true) :
    v.Alike w := by
  induction hv generalizing w with
  | null =>
    cases hw with
    | null => exact .null
    | _ => simp [Value.same] at h
  | bool b =>
    cases hw with
    | bool b' =>
      obtain rfl : b = b' := beq_iff_eq.1 h
      exact .bool b
    | _ => simp [Value.same] at h
  | whole n =>
    cases hw with
    | whole n' =>
      obtain rfl : n = n' := beq_iff_eq.1 h
      exact .whole n
    | _ => simp [Value.same, Number.same] at h
  | float _ =>
    cases hw with
    | float _ => exact .float h
    | _ => simp [Value.same, Number.same] at h
  | string s =>
    cases hw with
    | string s' =>
      obtain rfl : s = s' := beq_iff_eq.1 h
      exact .string s
    | _ => simp [Value.same] at h
  | array _ ih =>
    cases hw with
    | array hitems =>
      have hsame := sameItems_iff.1 h
      refine .array hsame.length_eq fun i v v' hv hv' => ?_
      obtain ⟨hi, rfl⟩ := List.getElem?_eq_some_iff.1 hv
      obtain ⟨hi', rfl⟩ := List.getElem?_eq_some_iff.1 hv'
      exact ih _ (List.getElem_mem hi) (hitems _ (List.getElem_mem hi'))
        ((List.forall₂_iff_get.1 hsame).2 i hi hi')
    | _ => simp [Value.same] at h
  | @object fields hd _ ih =>
    cases hw with
    | @object fields' hd' hfields =>
      rw [Value.same, Bool.and_eq_true, beq_iff_eq, sameFields_iff] at h
      obtain ⟨hlen, hfound⟩ := h
      have hsub : Fields.names fields ⊆ Fields.names fields' := by
        intro name hname
        obtain ⟨e, he, rfl⟩ := List.mem_map.1 hname
        obtain ⟨w, hw, -⟩ := hfound e he
        exact Fields.mem_names_iff.2 ⟨w, hw⟩
      have hp : (Fields.names fields).Perm (Fields.names fields') :=
        (hd.subperm hsub).perm_of_length_le (by simp [Fields.names, hlen])
      refine .object hd hd' (fun name => hp.mem_iff) fun name v v' hv hv' => ?_
      have he := Fields.mem_of_at? hv
      obtain ⟨w, hw, hsame⟩ := hfound _ he
      obtain rfl : w = v' := Option.some.inj (hw.symm.trans hv')
      exact ih _ he (hfields _ (Fields.mem_of_at? hv')) hsame
    | _ => simp [Value.same] at h

/-- The first of two alike values is well-formed. -/
theorem Alike.proper {v w : Value} (h : v.Alike w) : v.Proper := by
  induction h with
  | null => exact .null
  | bool b => exact .bool b
  | whole n => exact .whole n
  | float h => exact .float (Binary64.same_iff.1 h).1
  | string s => exact .string s
  | array hlen _ ih =>
    refine .array fun v hv => ?_
    obtain ⟨i, hi, rfl⟩ := List.getElem_of_mem hv
    exact ih i _ _ (List.getElem?_eq_getElem hi) (List.getElem?_eq_getElem (hlen ▸ hi))
  | object hd _ names _ ih =>
    refine .object hd fun e he => ?_
    have hv := Fields.at?_of_mem hd he
    obtain ⟨w, hw⟩ := Fields.mem_names_iff.1 ((names e.1).1 (Fields.mem_names_iff.2 ⟨_, hv⟩))
    exact ih e.1 e.2 w hv hw

/-- On well-formed values, alike is what is compared as equal. -/
theorem alike_iff {v w : Value} : v.Alike w ↔ v.Proper ∧ w.Proper ∧ v.same w = true :=
  ⟨fun h => ⟨h.proper, h.symm.proper, h.same⟩, fun h => alike_of_same h.1 h.2.1 h.2.2⟩

theorem sameOption_of_rel {v w : Option Value} (h : Option.Rel Alike v w) :
    sameOption v w = true := by
  cases h with
  | none => rfl
  | some h => exact h.same

/-- Comparing does not tell alike values apart. -/
theorem same_congr {v v' w w' : Value} (hv : v.Alike v') (hw : w.Alike w') :
    v.same w = v'.same w' := by
  rw [Bool.eq_iff_iff]
  constructor
  · intro h
    exact (hv.symm.trans ((alike_of_same hv.proper hw.proper h).trans hw)).same
  · intro h
    exact (hv.trans ((alike_of_same hv.symm.proper hw.symm.proper h).trans hw.symm)).same

/-! ### Following a path and checking -/

/-- What a text is converted to is well-formed. -/
theorem proper_of_accept?_string {c : Constraint} {convert : Bool} {s : String} {v : Value}
    (h : c.accept? convert (string s) = some v) : v.Proper := by
  cases c with
  | any | string =>
    obtain rfl := Option.some.inj h
    exact .string s
  | array | object => simp [Constraint.accept?] at h
  | number =>
    simp only [Constraint.accept?, Option.ite_none_right_eq_some, Option.map_eq_some_iff] at h
    obtain ⟨-, n, hn, rfl⟩ := h
    cases n with
    | whole n => exact .whole n
    | float x =>
      exact .float (Binary64.isNaN_of_isFinite (isFinite_of_numberOfText? hn))
  | boolean =>
    simp only [Constraint.accept?, Option.ite_none_right_eq_some, Option.map_eq_some_iff] at h
    obtain ⟨-, b, -, rfl⟩ := h
    exact .bool b

namespace Alike

variable {v w : Value}

theorem child? (h : v.Alike w) (key : Key) : Option.Rel Alike (v.child? key) (w.child? key) := by
  cases h with
  | array hlen h =>
    simp only [Value.child?]
    cases key.index? with
    | none => exact .none
    | some i => exact rel_getElem? hlen h i
  | object _ _ names h => exact Fields.rel_at? names h key.text
  | _ => exact .none

/-- A path leads to alike values, or in both nowhere. -/
theorem reach (h : v.Alike w) (path : Path) :
    Option.Rel Alike (v.reach path) (w.reach path) := by
  induction path generalizing v w with
  | nil => exact .some h
  | cons key rest ih => exact rel_bind (h.child? key) fun _ _ hc => ih hc

/-- A constraint lets alike values through alike. -/
theorem accept? (h : v.Alike w) (c : Constraint) (convert : Bool) :
    Option.Rel Alike (c.accept? convert v) (c.accept? convert w) := by
  have hw := h
  cases h with
  | string s =>
    cases ha : c.accept? convert (.string s) with
    | none => exact .none
    | some a => exact .some (alike_self (proper_of_accept?_string ha))
  | _ =>
    cases c <;> constructor
    all_goals exact hw

end Alike

end Value

end ValueResolution
