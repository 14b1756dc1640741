import Mathlib.Data.List.Basic
import ValueResolution.Proofs.Settings.Merging
import ValueResolution.Settings.Environment
/-!
# The order of the environment

An environment comes in no particular order. Where two variables carry settings of which one would
stand at or below the other, the later one decides; where no two do, the settings add up to the same
table in every order (`Settings.Variables.layers_perm`), whatever the table held before.
-/

set_option autoImplicit false

namespace ValueResolution.Settings

open Toml (Table)

namespace Variables

variable (v : Variables) {environment environment' : Environment}

/-- The paths of the settings that an environment carries. -/
def paths (environment : Environment) : List (List String) :=
  environment.filterMap fun e => v.path? e.1

/-- The layer of a variable, if it carries a setting. -/
def layer? (e : String × String) : Option Layer :=
  (v.path? e.1).map fun path => { path := path, value := valueOfText e.2 }

/-- With a separator every variable is read by itself. -/
theorem layers_eq (h : v.separator ≠ "") (environment : Environment) :
    v.layers environment = .ok (environment.filterMap v.layer?) := by
  rw [layers, if_neg (by simpa using h)]
  rfl

theorem map_path_layers (environment : Environment) :
    (environment.filterMap v.layer?).map Layer.path = v.paths environment := by
  rw [List.map_filterMap, paths]
  exact List.filterMap_congr fun e _ => by rw [layer?, Option.map_map]; exact Option.map_id'

/-- The settings of an environment do not depend on its order, as long as their paths lead apart. -/
theorem layers_perm (h : v.separator ≠ "") (hperm : environment.Perm environment')
    (hapart : (v.paths environment).Pairwise Apart) (t : Table) :
    ∃ layers layers', v.layers environment = .ok layers ∧ v.layers environment' = .ok layers' ∧
      mergeLayers t layers = mergeLayers t layers' := by
  refine ⟨_, _, v.layers_eq h environment, v.layers_eq h environment', ?_⟩
  rw [← v.map_path_layers] at hapart
  exact mergeLayers_perm (hperm.filterMap _) hapart t

/-- Two settings of one table, one beside it, and a variable that carries none. -/
def shuffled : Environment := [("P_A_B", "false"), ("Q_A", "x"), ("P_C", "1"), ("P_a_D", "no")]

/-- The settings forwards and backwards, over a value that is in the way of their table. -/
theorem layers_perm_shuffled :
    let v : Variables := ⟨"P", "_"⟩
    let t : Table := [("a", .string "scalar")]
    (v.paths shuffled).Pairwise Apart ∧
      ∃ layers layers', v.layers shuffled = .ok layers ∧
        v.layers shuffled.reverse = .ok layers' ∧ mergeLayers t layers = mergeLayers t layers' ∧
        mergeLayers t layers' =
          [("a", .table [("b", .boolean false), ("d", .string "no")]), ("c", .integer 1)] := by
  intro v t
  have hab : v.path? "P_A_B" = some ["a", "b"] := by decide +kernel
  have hq : v.path? "Q_A" = none := by decide +kernel
  have hc : v.path? "P_C" = some ["c"] := by decide +kernel
  have had : v.path? "P_a_D" = some ["a", "d"] := by decide +kernel
  have hpaths : v.paths shuffled = [["a", "b"], ["c"], ["a", "d"]] := by
    simp [paths, shuffled, hab, hq, hc, had]
  have hapart : (v.paths shuffled).Pairwise Apart := by
    rw [hpaths]
    unfold Apart
    decide
  have hback : v.layers shuffled.reverse =
      .ok [⟨["a", "d"], .string "no"⟩, ⟨["c"], .integer 1⟩, ⟨["a", "b"], .boolean false⟩] := by
    rw [v.layers_eq (by decide)]
    simp only [shuffled, List.reverse_cons, List.reverse_nil, List.nil_append, List.cons_append,
      List.filterMap_cons, List.filterMap_nil, layer?, hab, hq, hc, had, Option.map_some,
      Option.map_none]
    rfl
  obtain ⟨layers, layers', hlayers, hlayers', hsame⟩ :=
    v.layers_perm (by decide) (List.reverse_perm _).symm hapart t
  obtain rfl := Except.ok.inj (hback.symm.trans hlayers')
  exact ⟨hapart, layers, _, hlayers, hback, hsame, rfl⟩

end Variables

end ValueResolution.Settings
