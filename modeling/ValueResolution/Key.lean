import ValueResolution.Text.Numeral
/-!
# Keys and paths

A key is one step into nested data: a field of a mapping or a position in a sequence. Every key
has a text (`Key.text`), and a field whose text is a numeral also names a position (`Key.index?`),
so either kind of key can address either kind of container. Two keys name the same slot
(`Key.sameSlot`) when their texts agree.

A path lists keys from the outside in. Its dotted text joins the texts of its keys
(`Path.text`); a dotted text is read into fields only (`Path.ofText`), the empty text into the
empty path. Two paths overlap (`Path.overlaps`) when one leads through the other.

Keys are ordered with all fields, by their characters, before all positions; paths by their first
difference, a path before the longer ones that begin with it (`Path.order`).
-/

set_option autoImplicit false

namespace ValueResolution

/-- A step into a mapping or a sequence. -/
inductive Key where
  | field (name : String)
  | index (position : Nat)
deriving DecidableEq

/-- A place inside nested data, outermost key first. -/
abbrev Path := List Key

namespace Key

/-- The name under which the key addresses a mapping. -/
def text : Key → String
  | field name => name
  | index position => position.repr

/-- The position at which the key addresses a sequence, if it names one. -/
def index? : Key → Option Nat
  | field name => Text.index? name.toList
  | index position => some position

/-- Whether two keys name the same slot of a container. -/
def sameSlot (a b : Key) : Bool := a.text == b.text

/-- Fields before positions, fields by their characters, positions by size. -/
def order : Key → Key → Ordering
  | field a, field b => compare a b
  | field _, index _ => .lt
  | index _, field _ => .gt
  | index a, index b => compare a b

theorem index?_index (position : Nat) : (index position).index? = some position := rfl

theorem sameSlot_iff {a b : Key} : a.sameSlot b = true ↔ a.text = b.text := beq_iff_eq

theorem sameSlot_self (a : Key) : a.sameSlot a = true := sameSlot_iff.mpr rfl

end Key

namespace Path

/-- Reads a dotted text; every segment is a field. -/
def ofText (text : String) : Path :=
  if text.isEmpty then []
  else (text.toList.splitOn '.').map fun segment => .field (String.ofList segment)

/-- The dotted text of a path. -/
def text (path : Path) : String := String.intercalate "." (path.map Key.text)

/-- Whether one of two paths leads through the other, slot by slot. -/
def overlaps : Path → Path → Bool
  | a :: p, b :: q => a.sameSlot b && overlaps p q
  | [], _ => true
  | _, [] => true

/-- The order of paths: by the first key that differs, a beginning before what it begins. -/
def order : Path → Path → Ordering
  | [], [] => .eq
  | [], _ :: _ => .lt
  | _ :: _, [] => .gt
  | a :: p, b :: q => (a.order b).then (order p q)

theorem overlaps_self (p : Path) : overlaps p p = true := by
  induction p with
  | nil => rfl
  | cons k p ih => simp [overlaps, Key.sameSlot_self, ih]

theorem overlaps_comm (p q : Path) : overlaps p q = overlaps q p := by
  induction p generalizing q with
  | nil => cases q <;> rfl
  | cons a p ih =>
    cases q with
    | nil => rfl
    | cons b q =>
      have : a.sameSlot b = b.sameSlot a := BEq.comm
      simp [overlaps, ih q, this]

/-- The paths in order. -/
def sort (paths : List Path) : List Path := paths.mergeSort fun p q => (order p q).isLE

end Path

end ValueResolution
