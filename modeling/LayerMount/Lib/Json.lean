import Mathlib.Tactic.Common

/-!
# JSON values

The values of a JSON document as a program reads them.  A string is the bytes of its
UTF-8 text.  A number is what a read as an unsigned 64-bit integer gives.  An object
keeps its fields in the order of their keys and has at most one field for each key:
`setField` inserts or replaces.

`value` reads a field with a default.  A value that is not an object, and a field
whose value has another type, is an error (`none`).
-/

namespace LayerMount.Lib

abbrev Utf8String := List UInt8

inductive Json where
  | null
  | bool (b : Bool)
  | number (n : UInt64)
  | string (s : Utf8String)
  | array (items : List Json)
  | object (fields : List (Utf8String × Json))

namespace Json

/-- Sets the field of a key in an object's fields. -/
def setField (key : Utf8String) (v : Json) : List (Utf8String × Json) → List (Utf8String × Json)
  | [] => [(key, v)]
  | (k, w) :: rest =>
    if key = k then (key, v) :: rest
    else if key < k then (key, v) :: (k, w) :: rest
    else (k, w) :: setField key v rest

/-- The value of a field. -/
def find (key : Utf8String) : List (Utf8String × Json) → Option Json
  | [] => none
  | (k, w) :: rest => if key = k then some w else find key rest

def getBool : Json → Option Bool
  | bool b => some b
  | _ => none

def getUInt64 : Json → Option UInt64
  | number n => some n
  | _ => none

def getString : Json → Option Utf8String
  | string s => some s
  | _ => none

/-- Reads the field `key` of an object with `read`, or the default where it has none. -/
def value {α : Type} (read : Json → Option α) (j : Json) (key : Utf8String) (default : α) :
    Option α :=
  match j with
  | object fields =>
    match find key fields with
    | none => some default
    | some v => read v
  | _ => none

@[simp] theorem find_setField_self (key : Utf8String) (v : Json)
    (fields : List (Utf8String × Json)) : find key (setField key v fields) = some v := by
  induction fields with
  | nil => simp [setField, find]
  | cons f rest ih =>
    obtain ⟨k, w⟩ := f
    unfold setField
    split
    · simp [find]
    · rename_i hne
      split
      · simp [find]
      · simpa [find, hne] using ih

theorem find_setField_ne {key key' : Utf8String} (h : key' ≠ key) (v : Json)
    (fields : List (Utf8String × Json)) :
    find key' (setField key v fields) = find key' fields := by
  induction fields with
  | nil => simp [setField, find, h]
  | cons f rest ih =>
    obtain ⟨k, w⟩ := f
    unfold setField
    split
    · rename_i heq
      subst heq
      simp [find, h]
    · split
      · simp [find, h]
      · simp only [find, ih]

/-! ## What a typed read finds -/

/-- An object whose field, where it has one, is of a type that `read` takes. -/
def Takes {α : Type} (read : Json → Option α) (j : Json) (key : Utf8String) : Prop :=
  ∃ fields, j = object fields ∧ ∀ v, find key fields = some v → (read v).isSome

/-- An object gives `x` for a field: it has the field with that value, or it has no such
field and `x` is the default. -/
def Gives {α : Type} (read : Json → Option α) (j : Json) (key : Utf8String) (default x : α) :
    Prop :=
  ∃ fields, j = object fields ∧
    ((∃ v, find key fields = some v ∧ read v = some x) ∨ find key fields = none ∧ x = default)

theorem value_eq_some_iff {α : Type} {read : Json → Option α} {j : Json} {key : Utf8String}
    {default x : α} : j.value read key default = some x ↔ j.Gives read key default x := by
  unfold value Gives
  cases j with
  | object fields => cases hfind : find key fields <;> simp [hfind, eq_comm]
  | null | bool | number | string | array => simp

theorem value_isSome_iff {α : Type} {read : Json → Option α} {j : Json} {key : Utf8String}
    {default : α} : (j.value read key default).isSome ↔ j.Takes read key := by
  unfold value Takes
  cases j with
  | object fields => cases hfind : find key fields <;> simp [hfind]
  | null | bool | number | string | array => simp

theorem Takes.value {α : Type} {read : Json → Option α} {j : Json} {key : Utf8String}
    (h : j.Takes read key) (default : α) : ∃ x, j.value read key default = some x :=
  Option.isSome_iff_exists.mp (value_isSome_iff.mpr h)

theorem Gives.takes {α : Type} {read : Json → Option α} {j : Json} {key : Utf8String}
    {default x : α} (h : j.Gives read key default x) : j.Takes read key := by
  rw [← value_eq_some_iff] at h
  apply value_isSome_iff.mp
  rw [h]
  rfl

end Json

end LayerMount.Lib
