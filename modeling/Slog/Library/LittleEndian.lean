/-
Fixed-width little-endian bytes of natural numbers and the value of a run of bytes.
-/

import Mathlib

namespace LittleEndian

/-- The `width` low bytes of a value, lowest first. -/
def leBytes : Nat → Nat → List UInt8
  | 0, _ => []
  | width + 1, value => UInt8.ofNat (value % 256) :: leBytes width (value / 256)

/-- The value of bytes read lowest first. -/
def leValue : List UInt8 → Nat
  | [] => 0
  | byte :: rest => byte.toNat + 256 * leValue rest

@[simp] theorem length_leBytes (width value : Nat) : (leBytes width value).length = width := by
  induction width generalizing value with
  | zero => rfl
  | succ width ih => simp [leBytes, ih]

@[simp] theorem leValue_nil : leValue [] = 0 := rfl

@[simp] theorem leValue_cons (byte : UInt8) (rest : List UInt8) :
    leValue (byte :: rest) = byte.toNat + 256 * leValue rest := rfl

/-- Bytes keep their value up to the width. -/
@[simp] theorem leValue_leBytes (width value : Nat) : leValue (leBytes width value) = value % 256 ^ width := by
  induction width generalizing value with
  | zero => simp [leBytes, Nat.mod_one]
  | succ width ih =>
      rw [leBytes, leValue_cons, ih, pow_succ', Nat.mod_mul]
      simp [Nat.mod_mod_of_dvd]

/-- Bytes are recovered from their value. -/
@[simp] theorem leBytes_leValue (bytes : List UInt8) : leBytes bytes.length (leValue bytes) = bytes := by
  induction bytes with
  | nil => rfl
  | cons byte rest ih =>
      have below := byte.toNat_lt
      have low : (byte.toNat + 256 * leValue rest) % 256 = byte.toNat := by omega
      have high : (byte.toNat + 256 * leValue rest) / 256 = leValue rest := by omega
      rw [List.length_cons, leBytes, leValue_cons, low, high, ih, UInt8.ofNat_toNat]

end LittleEndian
