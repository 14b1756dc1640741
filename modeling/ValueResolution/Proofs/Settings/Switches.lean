import ValueResolution.Proofs.Settings.Mentions
import ValueResolution.Proofs.Settings.Variables
/-!
# Switches in the environment

A switch of preferences is set by the variable that is called by the name and the separator of an
environment source and the key of the switch in upper case. If this is the only variable of the
source and its text spells a boolean, preferences are loaded with the switch set, exactly if the
separator does not occur in the key (`Preferences.load_variable`).

A key without the separator is one piece, and its lower case is the key of the switch
(`Settings.cutFrom_of_not_infix`). A key with the separator is cut at its first occurrence
(`Settings.exists_cutFrom_of_infix`), and what stands in front of it is no key of a switch, so the
setting is refused.
-/

set_option autoImplicit false

namespace ValueResolution

namespace Settings

/-! ## Cutting at a separator -/

variable {separator text : List Char}

theorem cutFrom_ne_nil (piece : List Char) (skip : Nat) :
    cutFrom separator piece skip text ≠ [] := by
  induction text generalizing piece skip with
  | nil => simp [cutFrom]
  | cons c rest ih =>
    cases skip with
    | succ skip => exact ih piece skip
    | zero =>
      rw [cutFrom]
      split
      · simp
      · exact ih _ 0

/-- A text in which the separator does not occur is one piece. -/
theorem cutFrom_of_not_infix (h : ¬ separator <:+: text) (piece : List Char) :
    cutFrom separator piece 0 text = [piece.reverse ++ text] := by
  induction text generalizing piece with
  | nil => simp [cutFrom]
  | cons c rest ih =>
    rw [List.infix_cons_iff, not_or] at h
    rw [cutFrom, if_neg (by simpa using h.1), ih h.2]
    simp

/-- A text in which the separator occurs has several pieces. The first is what stands in front of
the separator. -/
theorem exists_cutFrom_of_infix (hne : separator ≠ []) (h : separator <:+: text)
    (piece : List Char) : ∃ n second others, n < text.length ∧
      cutFrom separator piece 0 text = (piece.reverse ++ text.take n) :: second :: others := by
  induction text generalizing piece with
  | nil => exact absurd (List.infix_nil.1 h) hne
  | cons c rest ih =>
    rw [cutFrom]
    by_cases hhere : separator <+: c :: rest
    · have hrest : cutFrom separator [] (separator.length - 1) rest ≠ [] := cutFrom_ne_nil [] _
      obtain ⟨second, others, heq⟩ := List.exists_cons_of_ne_nil hrest
      refine ⟨0, second, others, Nat.zero_lt_succ _, ?_⟩
      rw [if_pos (by simpa using hhere), heq, List.take_zero, List.append_nil]
    · obtain ⟨n, second, others, hn, heq⟩ :=
        ih ((List.infix_cons_iff.1 h).resolve_left hhere) (c :: piece)
      refine ⟨n + 1, second, others, Nat.succ_lt_succ hn, ?_⟩
      rw [if_neg (by simpa using hhere), heq]
      simp

/-! ## The only variable of a source -/

/-- The text is `true` or `false` in some letter case. -/
def Spells (text : String) (b : Bool) : Prop :=
  String.ofList (text.toList.map Char.toLower) = if b then "true" else "false"

theorem Spells.valueOfText {text : String} {b : Bool} (h : Spells text b) :
    valueOfText text = .boolean b := by
  cases b <;> simp_all [Spells, Settings.valueOfText]

namespace Variables

variable (v : Variables) {environment : Environment} {name text : String} {path : List String}

/-- The beginning of the names of the variables that belong to the source. -/
def start : List Char := v.name.toList ++ v.separator.toList

/-- There is one variable of this name, with this text, and no other one belongs to the source. -/
def Only (environment : Environment) (name text : String) : Prop :=
  ∃ before behind, environment = before ++ (name, text) :: behind ∧
    ∀ e ∈ before ++ behind, ¬ v.start <+: e.1.toList

variable {v}

theorem path?_eq_none (h : ¬ v.start <+: name.toList) : v.path? name = none := by
  rw [path?, ← start, if_neg (by simpa using h)]

/-- The path of a setting is the rest of the name, cut at the separators and in lower case. -/
theorem path?_append {rest : String} (h : rest ≠ "") :
    v.path? (v.name ++ v.separator ++ rest) = some ((cut v.separator.toList rest.toList).map
      fun piece => Text.lowercase (String.ofList piece)) := by
  have hlist : (v.name ++ v.separator ++ rest).toList =
      v.start ++ rest.toList := by
    rw [String.toList_append, String.toList_append, start]
  have hne : rest.toList ≠ [] := by simpa using h
  rw [path?, ← start, hlist, if_pos (by simp), List.drop_left]
  cases hrest : rest.toList with
  | nil => exact absurd hrest hne
  | cons c cs => rfl

theorem Only.layers (h : v.Only environment name text) (hsep : v.separator ≠ "")
    (hpath : v.path? name = some path) :
    v.layers environment = .ok [⟨path, valueOfText text⟩] := by
  obtain ⟨before, behind, rfl, hother⟩ := h
  have hnone : ∀ e ∈ before ++ behind, v.layer? e = none := fun e he => by
    rw [layer?, path?_eq_none (hother e he), Option.map_none]
  have hone : v.layer? (name, text) = some ⟨path, valueOfText text⟩ := by
    rw [layer?, hpath, Option.map_some]
  rw [layers_eq v hsep, List.filterMap_append, List.filterMap_cons_some hone,
    List.filterMap_eq_nil_iff.2 fun e he => hnone e (List.mem_append_left _ he),
    List.filterMap_eq_nil_iff.2 fun e he => hnone e (List.mem_append_right _ he)]
  rfl

end Variables

end Settings

namespace Preferences

open Settings

/-- The switches. -/
inductive Switch where
  | abortEarly
  | convert

namespace Switch

def key : Switch → String
  | abortEarly => abortEarlyKey
  | convert => convertKey

/-- The key as it stands in the name of a variable. -/
def upperKey (w : Switch) : String := String.ofList (w.key.toList.map Char.toUpper)

/-- The preferences in which this switch is set and the other one has its default. -/
def set : Switch → Bool → Preferences
  | abortEarly, b => { abortEarly := b }
  | convert, b => { convert := b }

theorem upperKey_ne_empty (w : Switch) : w.upperKey ≠ "" := by cases w <;> decide

theorem lowercase_upperKey (w : Switch) : Text.lowercase w.upperKey = w.key := by
  cases w <;> decide +kernel

/-- The beginning of a key is no key. -/
theorem lowercase_take_notMem (w : Switch) {n : Nat} (hn : n < w.upperKey.toList.length) :
    Text.lowercase (String.ofList (w.upperKey.toList.take n)) ∉ switchKeys := by
  revert n
  cases w <;> decide +kernel

end Switch

variable {read : DocumentReader} {environment : Environment} {origins : List Origin}
  {loaded : List (List Layer)} {l : Layer} {key : String}

/-- A layer that mentions something else makes the settings unsuitable. -/
theorem load_of_mentions_other (h : origins.mapM (Origin.load read environment) = .ok loaded)
    (hl : l ∈ loaded.flatten) (hkey : l.Mentions key) (hother : key ∉ switchKeys) :
    loadWith read environment origins = .error .unsuitable := by
  cases hread : ofTable? (mergeLayers [] loaded.flatten) with
  | none => rw [load_eq h, hread]
  | some prefs =>
    have hok : loadWith read environment origins = .ok prefs := by rw [load_eq h, hread]
    exact absurd (((load_eq_ok_iff h).1 hok).1 l hl key hkey) hother

variable {v : Variables} {w : Switch} {text : String} {b : Bool}

theorem mapM_load_environment {layers : List Layer} (h : v.layers environment = .ok layers) :
    [Origin.environment v].mapM (Origin.load read environment) = .ok [layers] := by
  rw [List.mapM_cons, Origin.load, h]
  rfl

/-- A key without the separator is found under its own name. -/
theorem load_uncut (hsep : v.separator ≠ "")
    (honly : v.Only environment (v.name ++ v.separator ++ w.upperKey) text) (htext : Spells text b)
    (h : ¬ v.separator.toList <:+: w.upperKey.toList) :
    loadWith read environment [.environment v] = .ok (w.set b) := by
  have hpath : v.path? (v.name ++ v.separator ++ w.upperKey) = some [w.key] := by
    rw [Variables.path?_append w.upperKey_ne_empty, cut, cutFrom_of_not_infix h]
    simp [w.lowercase_upperKey]
  rw [load_eq (mapM_load_environment (honly.layers hsep hpath)), htext.valueOfText]
  cases w <;> rfl

/-- A key with the separator is cut, and what is left of it in front means nothing. -/
theorem load_cut (hsep : v.separator ≠ "")
    (honly : v.Only environment (v.name ++ v.separator ++ w.upperKey) text)
    (h : v.separator.toList <:+: w.upperKey.toList) :
    loadWith read environment [.environment v] = .error .unsuitable := by
  obtain ⟨n, second, others, hn, hcut⟩ := exists_cutFrom_of_infix (by simpa using hsep) h []
  have hpath := Variables.path?_append (v := v) w.upperKey_ne_empty
  rw [cut, hcut, List.map_cons] at hpath
  exact load_of_mentions_other (mapM_load_environment (honly.layers hsep hpath))
    (List.mem_singleton_self _) (.inl rfl) (w.lowercase_take_notMem hn)

/-- A variable that is called by the key of a switch and spells a boolean, the only one that begins
with the name and the separator, sets the switch and leaves the other one at its default, if and
only if the separator does not occur in the key in upper case. Where it does, the settings are
refused. -/
theorem load_variable (hsep : v.separator ≠ "")
    (honly : v.Only environment (v.name ++ v.separator ++ w.upperKey) text)
    (htext : Spells text b) :
    (loadWith read environment [.environment v] = .ok (w.set b) ↔
      ¬ v.separator.toList <:+: w.upperKey.toList) ∧
    (v.separator.toList <:+: w.upperKey.toList →
      loadWith read environment [.environment v] = .error .unsuitable) := by
  refine ⟨⟨fun hok hcut => ?_, load_uncut hsep honly htext⟩, load_cut hsep honly⟩
  rw [load_cut hsep honly hcut] at hok
  cases hok

/-- Two underscores do not occur in a key, and with one the variable is not one of the source. -/
theorem load_variable_underscores :
    let read : DocumentReader := .blank
    let v : Variables := ⟨"V", "__"⟩
    let environment : Environment :=
      [("HOME", "/"), ("V__ABORT_EARLY", "tRUE"), ("V_CONVERT", "no")]
    v.separator ≠ "" ∧
      v.Only environment (v.name ++ v.separator ++ Switch.abortEarly.upperKey) "tRUE" ∧
      Spells "tRUE" true ∧ loadWith read environment [.environment v] = .ok ⟨true, true⟩ := by
  intro read v environment
  have hsep : v.separator ≠ "" := by decide
  have honly : v.Only environment (v.name ++ v.separator ++ Switch.abortEarly.upperKey) "tRUE" :=
    ⟨[("HOME", "/")], [("V_CONVERT", "no")], by decide +kernel, by decide +kernel⟩
  have htext : Spells "tRUE" true := by unfold Spells; decide
  exact ⟨hsep, honly, htext, (load_variable hsep honly htext).1.2 (by decide +kernel)⟩

/-- One underscore occurs in the key of the other switch, which then cannot be set. -/
theorem not_load_variable_underscore :
    let read : DocumentReader := .blank
    let v : Variables := ⟨"V", "_"⟩
    let environment : Environment := [("V_ABORT_EARLY", "true")]
    v.separator ≠ "" ∧
      v.Only environment (v.name ++ v.separator ++ Switch.abortEarly.upperKey) "true" ∧
      Spells "true" true ∧ loadWith read environment [.environment v] = .error .unsuitable ∧
      loadWith read environment [.environment v] ≠ .ok (Switch.abortEarly.set true) := by
  intro read v environment
  have honly : v.Only environment (v.name ++ v.separator ++ Switch.abortEarly.upperKey) "true" :=
    ⟨[], [], by decide +kernel, by decide +kernel⟩
  have hload : loadWith read environment [.environment v] = .error .unsuitable :=
    load_cut (by decide) honly (by decide +kernel)
  refine ⟨by decide, honly, by unfold Spells; decide, hload, fun hok => ?_⟩
  rw [hload] at hok
  cases hok

end Preferences

end ValueResolution
