import Mathlib.Data.List.Induction
import ValueResolution.Proofs.Outcome
import ValueResolution.Proofs.Settings.Merging
import ValueResolution.Settings.Sources
/-!
# The last mention of a switch

A layer mentions a key of the top level if its path begins with the key, or if it is a document that
has an entry of this key (`Settings.Layer.Mentions`). What stands under a key in the end is decided
by the last layer that mentions it: it is a boolean exactly if this layer puts the boolean directly
there (`Settings.LastMention.at?_eq_boolean_iff`), and without any mention nothing stands there.

So preferences can be loaded exactly if no layer mentions a key that is no switch and the last
mention of each switch is a boolean (`Preferences.load_lastMention`). What was merged before plays
no part, of whatever kind it was, and neither does the way in which the documents of files are read.
-/

set_option autoImplicit false

namespace ValueResolution

namespace Settings

open Toml (Table)

/-! ## What a layer says of a key -/

/-- The path of the layer begins with the key, or the layer is a document with an entry of it. -/
def Layer.Mentions (l : Layer) (key : String) : Prop :=
  l.path.head? = some key ∨
    l.path = [] ∧ ∃ entries, l.value = .table entries ∧ key ∈ Fields.names entries

/-- The layer puts a boolean directly under the key. Should the keys of a document repeat, the last
entry of the key is meant. -/
def Layer.Assigns (l : Layer) (key : String) (b : Bool) : Prop :=
  l.path = [key] ∧ l.value = .boolean b ∨
    l.path = [] ∧ ∃ entries, l.value = .table entries ∧
      Fields.at? (Table.ofEntries entries) key = some (.boolean b)

/-- Of several layers this one is the last to mention the key. -/
def LastMention (layers : List Layer) (key : String) (l : Layer) : Prop :=
  ∃ before behind, layers = before ++ l :: behind ∧ l.Mentions key ∧
    ∀ m ∈ behind, ¬ m.Mentions key

/-- The value of a switch by its last mention, and the default if there is none. -/
def Decides (layers : List Layer) (key : String) (default b : Bool) : Prop :=
  (∃ l, LastMention layers key l ∧ l.Assigns key b) ∨
    (∀ l ∈ layers, ¬ l.Mentions key) ∧ b = default

/-! ## Merging one layer -/

/-- Only a boolean replaces what was there by a boolean. -/
theorem overlay_eq_boolean_iff {below : Option Toml} {v : Toml} {b : Bool} :
    overlay below v = .boolean b ↔ v = .boolean b := by
  cases v with
  | table entries =>
    -- A table stays one, whether it is merged into another or not.
    rcases below with _ | (_ | _ | _ | _ | _ | _ | base) <;> simp [overlay]
  | _ => rfl

theorem nest_eq_boolean_iff {rest : List String} {v : Toml} {b : Bool} :
    nest rest v = .boolean b ↔ rest = [] ∧ v = .boolean b := by
  cases rest <;> simp [nest]

theorem at?_mergeTable_of_notMem {entries : List (String × Toml)} {key : String}
    (h : key ∉ Fields.names entries) (base : Table) :
    Fields.at? (mergeTable base entries) key = Fields.at? base key := by
  induction entries generalizing base with
  | nil => rfl
  | cons e rest ih =>
    obtain ⟨hne, hno⟩ : key ≠ e.1 ∧ key ∉ Fields.names rest := by simpa [Fields.names] using h
    rw [mergeTable, ih hno, Table.at?_insert, if_neg hne.symm]

/-- Where a document has an entry, something stands after merging it, and it is a boolean if the
document has the boolean there. -/
theorem at?_mergeTable_of_mem {entries : List (String × Toml)} {key : String}
    (h : key ∈ Fields.names entries) (base : Table) :
    ∃ v, Fields.at? (mergeTable base entries) key = some v ∧ ∀ b, v = .boolean b ↔
      Fields.at? (Table.ofEntries entries) key = some (.boolean b) := by
  induction entries using List.reverseRecOn with
  | nil => cases h
  | append_singleton entries e ih =>
    obtain ⟨last, w⟩ := e
    rw [mergeTable_snoc, mergeTable_singleton, Table.ofEntries_snoc]
    simp only [Table.at?_insert]
    by_cases hlast : last = key
    · simp [hlast, overlay_eq_boolean_iff]
    · simp only [if_neg hlast]
      exact ih (by simpa [Fields.names, Ne.symm hlast] using h)

variable {l : Layer} {layers : List Layer} {key : String}

/-- A layer leaves alone what it does not mention. -/
theorem at?_mergeAt_of_not_mentions (h : ¬ l.Mentions key) (t : Table) :
    Fields.at? (mergeAt t l.path l.value) key = Fields.at? t key := by
  obtain ⟨path, v⟩ := l
  cases path with
  | cons first rest =>
    have hne : first ≠ key := fun heq => h (.inl (congrArg some heq))
    rw [mergeAt_cons, Table.at?_insert, if_neg hne]
  | nil =>
    cases v with
    | table entries => exact at?_mergeTable_of_notMem (fun hmem => h (.inr ⟨rfl, _, rfl, hmem⟩)) t
    | _ => rfl

/-- Where a layer mentions a key, something stands after merging it, and it is a boolean if the
layer assigns the boolean directly. -/
theorem Layer.Mentions.at?_mergeAt (h : l.Mentions key) (t : Table) :
    ∃ v, Fields.at? (mergeAt t l.path l.value) key = some v ∧ ∀ b, v = .boolean b ↔
      l.Assigns key b := by
  obtain ⟨path, v⟩ := l
  rcases h with hhead | ⟨hpath, entries, hv, hmem⟩
  · obtain ⟨rest, rfl⟩ := List.head?_eq_some_iff.1 hhead
    refine ⟨overlay (Fields.at? t key) (nest rest v), ?_, fun b => ?_⟩
    · rw [mergeAt_cons, Table.at?_insert, if_pos rfl]
    · rw [overlay_eq_boolean_iff, nest_eq_boolean_iff]
      simp [Layer.Assigns]
  · obtain rfl : path = [] := hpath
    obtain rfl : v = .table entries := hv
    obtain ⟨w, hw, hbool⟩ := at?_mergeTable_of_mem hmem t
    refine ⟨w, hw, fun b => ?_⟩
    rw [hbool]
    simp [Layer.Assigns]

/-! ## Merging many -/

theorem mergeLayers_append (t : Table) (layers layers' : List Layer) :
    mergeLayers t (layers ++ layers') = mergeLayers (mergeLayers t layers) layers' :=
  List.foldl_append

theorem at?_mergeLayers_of_not_mentions (h : ∀ l ∈ layers, ¬ l.Mentions key) (t : Table) :
    Fields.at? (mergeLayers t layers) key = Fields.at? t key := by
  induction layers generalizing t with
  | nil => rfl
  | cons l rest ih =>
    obtain ⟨hl, hrest⟩ := List.forall_mem_cons.1 h
    exact (ih hrest _).trans (at?_mergeAt_of_not_mentions hl t)

/-- What stands under a key in the end is what its last mention has left there. -/
theorem LastMention.at?_mergeLayers (h : LastMention layers key l) (t : Table) :
    ∃ v, Fields.at? (mergeLayers t layers) key = some v ∧ ∀ b, v = .boolean b ↔
      l.Assigns key b := by
  obtain ⟨before, behind, rfl, hl, hbehind⟩ := h
  obtain ⟨v, hv, hbool⟩ := hl.at?_mergeAt (mergeLayers t before)
  refine ⟨v, ?_, hbool⟩
  rw [mergeLayers_append]
  exact (at?_mergeLayers_of_not_mentions hbehind _).trans hv

theorem LastMention.at?_eq_boolean_iff (h : LastMention layers key l) (t : Table) (b : Bool) :
    Fields.at? (mergeLayers t layers) key = some (.boolean b) ↔ l.Assigns key b := by
  obtain ⟨v, hv, hbool⟩ := h.at?_mergeLayers t
  rw [hv, Option.some.injEq, hbool]

theorem lastMention_or_forall_not (layers : List Layer) (key : String) :
    (∃ l, LastMention layers key l) ∨ ∀ l ∈ layers, ¬ l.Mentions key := by
  induction layers with
  | nil => exact .inr (by simp)
  | cons first rest ih =>
    rcases ih with ⟨l, before, behind, rfl, hl, hbehind⟩ | hrest
    · exact .inl ⟨l, first :: before, behind, rfl, hl, hbehind⟩
    · by_cases hfirst : first.Mentions key
      · exact .inl ⟨first, [], rest, rfl, hfirst, hrest⟩
      · exact .inr (List.forall_mem_cons.2 ⟨hfirst, hrest⟩)

/-- The keys of the merged table are those that are mentioned. -/
theorem mem_names_mergeLayers :
    key ∈ Fields.names (mergeLayers [] layers) ↔ ∃ l ∈ layers, l.Mentions key := by
  rw [← not_iff_not, ← Fields.at?_eq_none_iff]
  rcases lastMention_or_forall_not layers key with ⟨l, h⟩ | hno
  · obtain ⟨v, hv, -⟩ := h.at?_mergeLayers []
    obtain ⟨before, behind, rfl, hl, -⟩ := h
    simp only [hv, reduceCtorEq, false_iff, not_not]
    exact ⟨l, by simp, hl⟩
  · rw [at?_mergeLayers_of_not_mentions hno]
    simpa [Fields.at?] using hno

/-- The sources are merged as one list of layers. -/
theorem merge_eq {read : DocumentReader} {environment : Environment} {origins : List Origin}
    {loaded : List (List Layer)} (h : origins.mapM (Origin.load read environment) = .ok loaded)
    (t : Table) : merge read environment t origins = .ok (mergeLayers t loaded.flatten) := by
  induction origins generalizing loaded t with
  | nil =>
    obtain rfl := Except.ok.inj h
    rfl
  | cons o rest ih =>
    rw [List.mapM_cons] at h
    obtain ⟨layers, ho, h⟩ := bind_eq_ok_iff.1 h
    obtain ⟨others, hrest, h⟩ := bind_eq_ok_iff.1 h
    obtain rfl := Except.ok.inj h
    rw [merge, ho, List.flatten_cons, mergeLayers_append]
    exact ih hrest _

/-- The reader of the document without a character, which sets nothing; it refuses any other. -/
def DocumentReader.blank : DocumentReader := fun text => if text.isEmpty then some [] else none

end Settings

namespace Preferences

open Settings

variable {t : Toml.Table} {key : String} {default b : Bool} {layers : List Layer}
  {prefs : Preferences}

/-! ## Reading the switches -/

theorem switch?_eq_some_iff : switch? t key default = some b ↔
    Fields.at? t key = some (.boolean b) ∨ Fields.at? t key = none ∧ b = default := by
  rw [switch?]
  cases Fields.at? t key with
  | none => simp [eq_comm]
  | some v => cases v <;> simp

/-- The keys of the two switches. -/
def switchKeys : List String := [abortEarlyKey, convertKey]

/-- A table is read as preferences if it has no other keys and both switches can be read. -/
theorem ofTable?_eq_some_iff : ofTable? t = some prefs ↔
    (∀ name ∈ t.names, name ∈ switchKeys) ∧
      switch? t abortEarlyKey ({} : Preferences).abortEarly = some prefs.abortEarly ∧
      switch? t convertKey ({} : Preferences).convert = some prefs.convert := by
  obtain ⟨abortEarly, convert⟩ := prefs
  have hkeys : (t.names.all fun name => name = abortEarlyKey || name = convertKey) = true ↔
      ∀ name ∈ t.names, name ∈ switchKeys := by
    simp [switchKeys]
  rw [← hkeys, ofTable?]
  cases switch? t abortEarlyKey ({} : Preferences).abortEarly with
  | none => simp
  | some a =>
    cases switch? t convertKey ({} : Preferences).convert with
    | none => simp
    | some c => simp

/-- The switch that is read from the merged layers. -/
theorem switch?_mergeLayers :
    switch? (mergeLayers [] layers) key default = some b ↔ Decides layers key default b := by
  rw [switch?_eq_some_iff, Decides, Fields.at?_eq_none_iff, mem_names_mergeLayers, not_exists]
  simp only [not_and]
  refine or_congr_left ⟨fun h => ?_, fun ⟨l, hl, hb⟩ => (hl.at?_eq_boolean_iff [] b).2 hb⟩
  rcases lastMention_or_forall_not layers key with ⟨l, hl⟩ | hno
  · exact ⟨l, hl, (hl.at?_eq_boolean_iff [] b).1 h⟩
  · rw [at?_mergeLayers_of_not_mentions hno] at h
    cases h

/-- Something is decided exactly if the last mention is no other value. -/
theorem exists_decides_iff : (∃ b, Decides layers key default b) ↔
    ∀ l, LastMention layers key l → ∃ b, l.Assigns key b := by
  constructor
  · rintro ⟨b, ⟨l, hl, hb⟩ | ⟨hno, -⟩⟩ m hm
    · exact ⟨b, (hm.at?_eq_boolean_iff [] b).1 ((hl.at?_eq_boolean_iff [] b).2 hb)⟩
    · obtain ⟨before, behind, rfl, hmention, -⟩ := hm
      exact absurd hmention (hno m (by simp))
  · intro h
    rcases lastMention_or_forall_not layers key with ⟨l, hl⟩ | hno
    · obtain ⟨b, hb⟩ := h l hl
      exact ⟨b, .inl ⟨l, hl, hb⟩⟩
    · exact ⟨default, .inr ⟨hno, rfl⟩⟩

/-! ## Loading -/

variable {read : DocumentReader} {environment : Environment} {origins : List Origin}
  {loaded : List (List Layer)}

/-- Sources load as what the table of all their layers is read as. -/
theorem load_eq (h : origins.mapM (Origin.load read environment) = .ok loaded) :
    loadWith read environment origins = match ofTable? (mergeLayers [] loaded.flatten) with
      | some prefs => .ok prefs
      | none => .error .unsuitable := by
  rw [loadWith, merge_eq h]
  rfl

theorem load_eq_ok_iff (h : origins.mapM (Origin.load read environment) = .ok loaded) :
    loadWith read environment origins = .ok prefs ↔
      (∀ l ∈ loaded.flatten, ∀ key, l.Mentions key → key ∈ switchKeys) ∧
      Decides loaded.flatten abortEarlyKey ({} : Preferences).abortEarly prefs.abortEarly ∧
      Decides loaded.flatten convertKey ({} : Preferences).convert prefs.convert := by
  have hkeys : (∀ l ∈ loaded.flatten, ∀ key, l.Mentions key → key ∈ switchKeys) ↔
      ∀ name ∈ Fields.names (mergeLayers [] loaded.flatten), name ∈ switchKeys := by
    simp only [mem_names_mergeLayers]
    exact ⟨fun h key ⟨l, hl, hkey⟩ => h l hl key hkey, fun h l hl key hkey => h key ⟨l, hl, hkey⟩⟩
  rw [hkeys, ← switch?_mergeLayers, ← switch?_mergeLayers, ← ofTable?_eq_some_iff, load_eq h]
  cases ofTable? (mergeLayers [] loaded.flatten) <;> simp

/-- Sources whose layers can all be had load exactly if no layer mentions a key that is no switch
and the last layer to mention a switch, if there is one, assigns it a boolean. Each switch is then
this boolean, and a switch that no layer mentions has its default. Otherwise the settings are
refused as unsuitable. -/
theorem load_lastMention (h : origins.mapM (Origin.load read environment) = .ok loaded) :
    let layers := loaded.flatten
    ((∃ prefs, loadWith read environment origins = .ok prefs) ↔
      (∀ l ∈ layers, ∀ key, l.Mentions key → key ∈ switchKeys) ∧
        ∀ key ∈ switchKeys, ∀ l, LastMention layers key l → ∃ b, l.Assigns key b) ∧
    (∀ prefs, loadWith read environment origins = .ok prefs →
      Decides layers abortEarlyKey ({} : Preferences).abortEarly prefs.abortEarly ∧
        Decides layers convertKey ({} : Preferences).convert prefs.convert) ∧
    ∀ e, loadWith read environment origins = .error e → e = .unsuitable := by
  intro layers
  refine ⟨?_, fun prefs hprefs => ((load_eq_ok_iff h).1 hprefs).2, fun e he => ?_⟩
  · simp only [load_eq_ok_iff h, exists_and_left]
    refine and_congr_right fun _ => ?_
    constructor
    · rintro ⟨prefs, habort, hconvert⟩
      exact List.forall_mem_cons.2 ⟨exists_decides_iff.1 ⟨_, habort⟩,
        List.forall_mem_singleton.2 (exists_decides_iff.1 ⟨_, hconvert⟩)⟩
    · intro hlast
      obtain ⟨a, habort⟩ := exists_decides_iff.2 (hlast abortEarlyKey (by simp [switchKeys]))
      obtain ⟨c, hconvert⟩ := exists_decides_iff.2 (hlast convertKey (by simp [switchKeys]))
      exact ⟨⟨a, c⟩, habort, hconvert⟩
  · rw [load_eq h] at he
    cases hread : ofTable? (mergeLayers [] loaded.flatten) with
    | none => rw [hread] at he; exact (Except.error.inj he).symm
    | some prefs => rw [hread] at he; cases he

/-- A text and a table that are overridden, a missing file, a variable and a document. -/
def overridden : List Origin :=
  [.layers [⟨[convertKey], .string "often"⟩, ⟨[abortEarlyKey, "x"], .integer 1⟩],
    .file ⟨"absent", false, .missing⟩, .environment ⟨"P", "_"⟩,
    .layers [⟨[], .table [(abortEarlyKey, .boolean true)]⟩]]

/-- The settings of the sources, and what they come to. -/
theorem load_lastMention_overridden :
    let read : DocumentReader := .blank
    let environment : Environment := [("P_CONVERT", "FALSE"), ("Q_X", "1")]
    ∃ loaded, overridden.mapM (Origin.load read environment) = .ok loaded ∧
      loadWith read environment overridden = .ok ⟨true, false⟩ ∧
      Decides loaded.flatten abortEarlyKey false true ∧
      Decides loaded.flatten convertKey true false := by
  intro read environment
  have hcarried : (Variables.mk "P" "_").path? "P_CONVERT" = some [convertKey] := by decide +kernel
  have hother : (Variables.mk "P" "_").path? "Q_X" = none := by decide +kernel
  have hvariables : Origin.load read environment (.environment ⟨"P", "_"⟩) =
      .ok [⟨[convertKey], .boolean false⟩] := by
    have hvalue : valueOfText "FALSE" = .boolean false := by simp [valueOfText]
    simp [Origin.load, Variables.layers, environment, hcarried, hother, hvalue]
  have hloaded : overridden.mapM (Origin.load read environment) = .ok
      [[⟨[convertKey], .string "often"⟩, ⟨[abortEarlyKey, "x"], .integer 1⟩], [],
        [⟨[convertKey], .boolean false⟩], [⟨[], .table [(abortEarlyKey, .boolean true)]⟩]] := by
    simp only [overridden, List.mapM_cons, hvariables]
    rfl
  have hload : loadWith read environment overridden = .ok ⟨true, false⟩ := by
    rw [load_eq hloaded]
    rfl
  exact ⟨_, hloaded, hload, (load_lastMention hloaded).2.1 _ hload⟩

end Preferences

end ValueResolution
