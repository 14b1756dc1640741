import Mathlib.Data.List.Basic
import Mathlib.Data.List.Induction
import Mathlib.Data.List.Perm.Subperm
import ValueResolution.Fields
/-!
# Laws of ordered fields

How a look-up splits the fields (`at?_eq_some_iff`), and that looking up, writing and collecting
entries go along with a change of all entries (`at?_mapNamed`, `put_mapNamed`,
`ofEntries_mapNamed`). Writing a name that is present replaces its entry in place (`put_append`,
`put_map_of_distinct`); removing it closes the gap (`remove_append`) and leaves out the field of
this name only (`remove_eq_filter`). The fields collected from entries are some of these entries,
each at most once (`ofEntries_subperm`); entries with distinct names are collected as they are
(`ofEntries_of_distinct`). In general a name takes its last entry (`mem_ofEntries`) and stands where
it was first (`names_ofEntries_pairwise`).
-/

set_option autoImplicit false

namespace ValueResolution.Fields

universe u v

variable {α : Type u} {β : Type v}

/-- The fields with a function applied to every entry. -/
def mapEntries (f : α → β) (fs : Fields α) : Fields β := fs.map fun e => (e.1, f e.2)

theorem at?_mapNamed (f : String → α → β) (fs : Fields α) (name : String) :
    at? (fs.map fun e => (e.1, f e.1 e.2)) name = (fs.at? name).map (f name) := by
  induction fs with
  | nil => rfl
  | cons e rest ih =>
    obtain ⟨other, a⟩ := e
    by_cases h : other = name
    · subst h
      simp [at?]
    · simpa [at?, h] using ih

theorem at?_mapEntries (f : α → β) (fs : Fields α) (name : String) :
    (fs.mapEntries f).at? name = (fs.at? name).map f :=
  at?_mapNamed (fun _ => f) fs name

theorem at?_of_mapEntries (f : α → β) {fs : Fields α} {name : String} {a : α}
    (h : fs.at? name = some a) : (fs.mapEntries f).at? name = some (f a) := by
  rw [at?_mapEntries, h]
  rfl

theorem put_mapNamed (f : String → α → β) (fs : Fields α) (name : String) (a : α) :
    put (fs.map fun e => (e.1, f e.1 e.2)) name (f name a) =
      (fs.put name a).map fun e => (e.1, f e.1 e.2) := by
  induction fs with
  | nil => rfl
  | cons e rest ih =>
    obtain ⟨other, b⟩ := e
    by_cases h : other = name
    · subst h
      simp [put]
    · simpa [put, h] using ih

theorem put_mapEntries (f : α → β) (fs : Fields α) (name : String) (a : α) :
    (fs.mapEntries f).put name (f a) = (fs.put name a).mapEntries f :=
  put_mapNamed (fun _ => f) fs name a

/-- Collecting goes along with a change of every entry by its name. -/
theorem ofEntries_mapNamed (f : String → α → β) (entries : List (String × α)) :
    ofEntries (entries.map fun e => (e.1, f e.1 e.2)) =
      (ofEntries entries).map fun e => (e.1, f e.1 e.2) := by
  suffices ∀ fs : Fields α, (entries.map fun e => (e.1, f e.1 e.2)).foldl
      (fun fs e => put fs e.1 e.2) (fs.map fun e => (e.1, f e.1 e.2)) =
        (entries.foldl (fun fs e => fs.put e.1 e.2) fs).map fun e => (e.1, f e.1 e.2) by
    exact this []
  induction entries with
  | nil => exact fun _ => rfl
  | cons e rest ih =>
    intro fs
    have h := ih (fs.put e.1 e.2)
    rw [← put_mapNamed] at h
    exact h

theorem ofEntries_mapEntries (f : α → β) (entries : List (String × α)) :
    ofEntries (mapEntries f entries) = (ofEntries entries).mapEntries f :=
  ofEntries_mapNamed (fun _ => f) entries

/-- The first field of a name stands behind fields of other names. -/
theorem at?_eq_some_iff {fs : Fields α} {name : String} {a : α} : fs.at? name = some a ↔
    ∃ before behind, fs = before ++ (name, a) :: behind ∧ name ∉ before.names := by
  constructor
  · intro h
    induction fs with
    | nil => simp [at?] at h
    | cons e rest ih =>
      obtain ⟨other, b⟩ := e
      by_cases hk : other = name
      · subst hk
        obtain rfl : b = a := by simpa [at?] using h
        exact ⟨[], rest, rfl, by simp [names]⟩
      · obtain ⟨before, behind, rfl, hno⟩ := ih (by simpa [at?, hk] using h)
        refine ⟨(other, b) :: before, behind, rfl, ?_⟩
        simpa [names, Ne.symm hk] using hno
  · rintro ⟨before, behind, rfl, hno⟩
    induction before with
    | nil => simp [at?]
    | cons e before ih =>
      obtain ⟨hne, hno⟩ : name ≠ e.1 ∧ name ∉ names before := by simpa [names] using hno
      simpa [at?, hne.symm] using ih hno

theorem mem_of_at? {fs : Fields α} {name : String} {a : α} (h : fs.at? name = some a) :
    (name, a) ∈ fs := by
  obtain ⟨before, behind, rfl, -⟩ := at?_eq_some_iff.1 h
  simp

theorem at?_of_mem {fs : Fields α} (hd : fs.Distinct) {name : String} {a : α}
    (h : (name, a) ∈ fs) : fs.at? name = some a := by
  obtain ⟨before, behind, rfl⟩ := List.append_of_mem h
  refine at?_eq_some_iff.2 ⟨before, behind, rfl, fun hn => ?_⟩
  have hd' : (names before ++ name :: names behind).Nodup := by simpa [Distinct, names] using hd
  exact (List.nodup_append.1 hd').2.2 name hn name (by simp) rfl

/-- Writing a name that is present replaces its entry in place. -/
theorem put_append {before behind : Fields α} {name : String} (a b : α)
    (h : name ∉ before.names) :
    put (before ++ (name, a) :: behind) name b = before ++ (name, b) :: behind := by
  induction before with
  | nil => simp [put]
  | cons e before ih =>
    obtain ⟨hne, hno⟩ : name ≠ e.1 ∧ name ∉ names before := by simpa [names] using h
    simpa [put, hne.symm] using ih hno

/-- Two changes of all entries that differ at one name are one write apart. -/
theorem put_map_of_distinct {fs : Fields α} (hd : fs.Distinct) {name : String} {a : α}
    (ha : fs.at? name = some a) {f g : String → α → β}
    (h : ∀ e ∈ fs, e.1 ≠ name → f e.1 e.2 = g e.1 e.2) :
    put (fs.map fun e => (e.1, f e.1 e.2)) name (g name a) = fs.map fun e => (e.1, g e.1 e.2) := by
  induction fs with
  | nil => simp [at?] at ha
  | cons e rest ih =>
    obtain ⟨other, b⟩ := e
    obtain ⟨hno, hd⟩ := List.nodup_cons.1 hd
    have hrest := fun e he => h e (List.mem_cons_of_mem _ he)
    by_cases hname : other = name
    · subst hname
      obtain rfl : b = a := by simpa [at?] using ha
      have hsame : (rest.map fun e => (e.1, f e.1 e.2)) = rest.map fun e => (e.1, g e.1 e.2) :=
        List.map_congr_left fun e he => by
          rw [hrest e he (ne_of_mem_of_not_mem (List.mem_map_of_mem he) hno)]
      simp [put, hsame]
    · have hfirst : f other b = g other b := h _ List.mem_cons_self hname
      simp [put, hname, hfirst, ih hd (by simpa [at?, hname] using ha) hrest]

theorem remove_mapEntries (f : α → β) (fs : Fields α) (name : String) :
    (fs.mapEntries f).remove name = (fs.remove name).mapEntries f := by
  induction fs with
  | nil => rfl
  | cons e rest ih =>
    obtain ⟨other, b⟩ := e
    by_cases h : other = name
    · simp [mapEntries, remove, h]
    · simpa [mapEntries, remove, h] using ih

/-- Removing a name that is present closes the gap. -/
theorem remove_append {before behind : Fields α} {name : String} (a : α)
    (h : name ∉ before.names) :
    remove (before ++ (name, a) :: behind) name = before ++ behind := by
  induction before with
  | nil => simp [remove]
  | cons e before ih =>
    obtain ⟨hne, hno⟩ : name ≠ e.1 ∧ name ∉ names before := by simpa [names] using h
    simpa [remove, hne.symm] using ih hno

/-- Removing a name that is missing changes nothing. -/
theorem remove_of_notMem {fs : Fields α} {name : String} (h : name ∉ fs.names) :
    fs.remove name = fs := by
  induction fs with
  | nil => rfl
  | cons e rest ih =>
    obtain ⟨hne, hno⟩ : name ≠ e.1 ∧ name ∉ names rest := by simpa [names] using h
    simpa [remove, hne.symm] using ih hno

/-- Without repeated names, removing one leaves out the field of this name and no other. -/
theorem remove_eq_filter {fs : Fields α} (hd : fs.Distinct) (name : String) :
    fs.remove name = fs.filter fun e => e.1 ≠ name := by
  induction fs with
  | nil => rfl
  | cons e rest ih =>
    obtain ⟨other, a⟩ := e
    obtain ⟨hno, hrest⟩ := List.nodup_cons.1 hd
    by_cases hname : other = name
    · subst hname
      have hkeep : (rest.filter fun e => e.1 ≠ other) = rest := List.filter_eq_self.2 fun e he =>
        decide_eq_true (ne_of_mem_of_not_mem (List.mem_map_of_mem he) hno)
      rw [remove, if_pos rfl, List.filter_cons_of_neg (by simp), hkeep]
    · simp [remove, hname, ih hrest]

theorem Distinct.remove {fs : Fields α} (hd : fs.Distinct) (name : String) :
    (fs.remove name).Distinct := by
  rw [remove_eq_filter hd]
  exact hd.sublist (List.filter_sublist.map Prod.fst)

theorem at?_remove_self {fs : Fields α} (hd : fs.Distinct) (name : String) :
    (fs.remove name).at? name = none := by
  rw [at?_eq_none_iff, remove_eq_filter hd, names]
  simp

theorem put_subperm (fs : Fields α) (name : String) (a : α) :
    (fs.put name a).Subperm (fs ++ [(name, a)]) := by
  induction fs with
  | nil => exact List.Subperm.refl _
  | cons e rest ih =>
    obtain ⟨other, b⟩ := e
    by_cases h : other = name
    · subst h
      have hsub : ((other, a) :: rest).Sublist ((other, a) :: (other, b) :: rest) :=
        (List.sublist_cons_self _ _).cons_cons _
      have hperm : ((other, a) :: (other, b) :: rest).Perm ((other, b) :: rest ++ [(other, a)]) :=
        (List.perm_append_singleton _ _).symm
      simpa [put] using hsub.subperm.trans hperm.subperm
    · simpa [put, h] using (List.subperm_cons (other, b)).2 ih

/-- The fields collected from entries are some of the entries. -/
theorem ofEntries_subperm (entries : List (String × α)) :
    (ofEntries entries).Subperm entries := by
  suffices ∀ fs : Fields α,
      (entries.foldl (fun fs e => fs.put e.1 e.2) fs).Subperm (fs ++ entries) by
    exact this []
  induction entries with
  | nil => exact fun fs => by simp [List.Subperm.refl]
  | cons e rest ih =>
    intro fs
    have h := (put_subperm fs e.1 e.2).append (List.Subperm.refl rest)
    exact (ih _).trans (by simpa using h)

/-- A new name goes to the end. -/
theorem put_of_notMem {fs : Fields α} {name : String} (h : name ∉ fs.names) (a : α) :
    fs.put name a = fs ++ [(name, a)] := by
  induction fs with
  | nil => rfl
  | cons e rest ih =>
    obtain ⟨hne, hno⟩ : name ≠ e.1 ∧ name ∉ names rest := by simpa [names] using h
    simpa [put, hne.symm] using ih hno

/-- Entries with distinct names are collected as they are. -/
theorem ofEntries_of_distinct {entries : List (String × α)} (h : Distinct entries) :
    ofEntries entries = entries := by
  suffices ∀ fs : Fields α, Distinct (fs ++ entries) →
      entries.foldl (fun fs e => fs.put e.1 e.2) fs = fs ++ entries by
    exact this [] h
  clear h
  induction entries with
  | nil => exact fun fs _ => (List.append_nil fs).symm
  | cons e rest ih =>
    intro fs hd
    have hno : e.1 ∉ fs.names := by
      have hd' : (names fs ++ e.1 :: names rest).Nodup := by simpa [Distinct, names] using hd
      exact fun hmem => (List.nodup_append.1 hd').2.2 _ hmem _ List.mem_cons_self rfl
    rw [List.foldl_cons, put_of_notMem hno]
    have happend : fs ++ e :: rest = (fs ++ [e]) ++ rest := by simp
    rw [happend] at hd ⊢
    exact ih _ hd

theorem ofEntries_snoc (entries : List (String × α)) (e : String × α) :
    ofEntries (entries ++ [e]) = (ofEntries entries).put e.1 e.2 := by
  rw [ofEntries, List.foldl_append]
  rfl

/-- A name that is written again takes the last entry. -/
theorem at?_ofEntries (entries : List (String × α)) (name : String) :
    (ofEntries entries).at? name = at? entries.reverse name := by
  induction entries using List.reverseRecOn with
  | nil => rfl
  | append_singleton entries e ih =>
    rw [ofEntries_snoc, at?_put, ih, List.reverse_append]
    rfl

/-- The fields collected from entries are the entries behind which their name is not written
again. -/
theorem mem_ofEntries {entries : List (String × α)} {name : String} {a : α} :
    (name, a) ∈ ofEntries entries ↔
      ∃ before behind, entries = before ++ (name, a) :: behind ∧ name ∉ names behind := by
  have hat : (name, a) ∈ ofEntries entries ↔ at? entries.reverse name = some a := by
    rw [← at?_ofEntries]
    exact ⟨at?_of_mem (distinct_ofEntries entries), mem_of_at?⟩
  rw [hat, at?_eq_some_iff]
  constructor
  · rintro ⟨before, behind, heq, hno⟩
    refine ⟨behind.reverse, before.reverse, ?_, by simpa [names] using hno⟩
    simpa using congrArg List.reverse heq
  · rintro ⟨before, behind, rfl, hno⟩
    exact ⟨behind.reverse, before.reverse, by simp, by simpa [names] using hno⟩

theorem mem_names_ofEntries {entries : List (String × α)} {name : String} :
    name ∈ (ofEntries entries).names ↔ name ∈ names entries := by
  rw [← not_iff_not, ← at?_eq_none_iff, at?_ofEntries, at?_eq_none_iff]
  simp [names]

/-- A name stands where it is written first. -/
theorem names_ofEntries_pairwise (entries : List (String × α)) :
    (ofEntries entries).names.Pairwise fun a b =>
      (names entries).idxOf a < (names entries).idxOf b := by
  induction entries using List.reverseRecOn with
  | nil => exact .nil
  | append_singleton entries e ih =>
    have hnames : names (entries ++ [e]) = names entries ++ [e.1] := List.map_append
    have hold : ∀ name ∈ (ofEntries entries).names,
        (names entries ++ [e.1]).idxOf name = (names entries).idxOf name := fun name hname =>
      List.idxOf_append_of_mem (mem_names_ofEntries.1 hname)
    have ih : (ofEntries entries).names.Pairwise fun a b =>
        (names entries ++ [e.1]).idxOf a < (names entries ++ [e.1]).idxOf b :=
      ih.imp_of_mem fun ha hb hlt => by rwa [hold _ ha, hold _ hb]
    rw [ofEntries_snoc, names_put, hnames]
    split
    · exact ih
    · rename_i hnew
      refine List.pairwise_append.2 ⟨ih, List.pairwise_singleton _ _, fun a ha b hb => ?_⟩
      obtain rfl := List.mem_singleton.1 hb
      rw [hold a ha, List.idxOf_append_of_notMem (mt mem_names_ofEntries.2 hnew)]
      exact Nat.lt_of_lt_of_le (List.idxOf_lt_length_of_mem (mem_names_ofEntries.1 ha))
        (Nat.le_add_right _ _)

end ValueResolution.Fields
