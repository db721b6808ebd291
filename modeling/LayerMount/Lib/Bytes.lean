import Mathlib.Algebra.Group.Nat.Defs
import Mathlib.Tactic.Common

/-!
# Packed little-endian records

A record is a sequence of fields, each a natural number in a fixed number of bytes with
the least byte first.  `field` reads the bytes of one field at its offset.  A field that
was written into its width reads back (`field_leBytes`).
-/

namespace LayerMount.Lib

/-- The number in `width` bytes, the least byte first. -/
def leBytes : Nat → Nat → List UInt8
  | 0, _ => []
  | width + 1, n => UInt8.ofNat n :: leBytes width (n / 256)

def leNat : List UInt8 → Nat
  | [] => 0
  | b :: rest => b.toNat + 256 * leNat rest

/-- The number in the `width` bytes at `offset`. -/
def field (bytes : List UInt8) (offset width : Nat) : Nat := leNat ((bytes.drop offset).take width)

@[simp] theorem length_leBytes (width n : Nat) : (leBytes width n).length = width := by
  induction width generalizing n with
  | zero => rfl
  | succ width ih => rw [leBytes, List.length_cons, ih]

theorem leNat_leBytes {width n : Nat} (h : n < 256 ^ width) : leNat (leBytes width n) = n := by
  induction width generalizing n with
  | zero =>
    rw [Nat.pow_zero] at h
    simp only [leBytes, leNat]
    omega
  | succ width ih =>
    rw [Nat.pow_succ] at h
    rw [leBytes, leNat, ih (by omega), UInt8.toNat_ofNat']
    omega

theorem leNat_lt (bytes : List UInt8) : leNat bytes < 256 ^ bytes.length := by
  induction bytes with
  | nil => simp [leNat]
  | cons b rest ih =>
    have hb := b.toNat_lt
    rw [leNat, List.length_cons, Nat.pow_succ]
    omega

/-- A field reads back after any bytes of the right number before it. -/
theorem field_leBytes (before : List UInt8) {offset width n : Nat} (hoffset : before.length = offset)
    (h : n < 256 ^ width) (after : List UInt8) :
    field (before ++ (leBytes width n ++ after)) offset width = n := by
  rw [field, List.drop_left' hoffset, List.take_left' (length_leBytes width n), leNat_leBytes h]

end LayerMount.Lib
