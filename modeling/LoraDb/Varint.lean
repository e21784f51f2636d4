import LoraDb.ByteCodec
import Mathlib.Data.Nat.Bitwise

/-!
# Varints

Numbers as bytes of seven bits each, low bits first, with the high bit set on every byte
but the last. A reader needs no bound and no length: it stops at the first byte without
the high bit.

## Main results

* `read_push`: in front of any bytes, a number is read back and they are left.
* `length_push`: a number takes `len` bytes.
-/

namespace Varint

open ByteCodec

variable {value : ℕ}

/-- Bytes `value` takes: a byte for every seven bits, and one for zero. -/
def len (value : ℕ) : ℕ := ((value ||| 1).log2 + 1 + 6) / 7

/-- The bytes of `value`. -/
def push (value : ℕ) : Bytes :=
  if value < 0x80 then [UInt8.ofNat value]
  else (UInt8.ofNat value ||| 0x80) :: push (value / 128)
termination_by value
decreasing_by omega

/-- The number at the front, and the bytes after it; nothing when the bytes end first. -/
def read : Bytes → Option (ℕ × Bytes)
  | [] => none
  | byte :: rest =>
    if byte < 0x80 then some (byte.toNat, rest)
    else (read rest).map fun out => ((byte &&& 0x7f).toNat + 128 * out.1, out.2)

/-! ### Reading back -/

theorem push_of_lt (h : value < 0x80) : push value = [UInt8.ofNat value] := by
  rw [push, if_pos h]

theorem push_of_le (h : 0x80 ≤ value) :
    push value = (UInt8.ofNat value ||| 0x80) :: push (value / 128) := by
  rw [push, if_neg (by omega)]

/-- A byte with more to come is recognised, and keeps its seven bits. -/
theorem continued_byte (value : ℕ) : ¬ (UInt8.ofNat value ||| 0x80) < 0x80 ∧
      ((UInt8.ofNat value ||| 0x80) &&& 0x7f).toNat = value % 128 := by
  have hlow : (0x80 : UInt8).toNat = 2 ^ 7 := rfl
  have hmask : (0x7f : UInt8).toNat = 2 ^ 7 - 1 := rfl
  constructor
  · rw [UInt8.lt_iff_toNat_lt, UInt8.toNat_or, hlow, not_lt]
    exact Nat.right_le_or
  · rw [UInt8.toNat_and, UInt8.toNat_or, hlow, hmask, Nat.and_two_pow_sub_one_eq_mod,
      Nat.or_mod_two_pow, Nat.mod_self, Nat.or_zero, UInt8.toNat_ofNat']
    omega

/-- A number is read back from in front of any bytes. -/
@[simp] theorem read_push (value : ℕ) (rest : Bytes) :
    read (push value ++ rest) = some (value, rest) := by
  induction value using Nat.strongRecOn with
  | ind value ih =>
    by_cases h : value < 0x80
    · have hbyte : (UInt8.ofNat value).toNat = value := by
        rw [UInt8.toNat_ofNat']
        omega
      have hlast : UInt8.ofNat value < 0x80 := by
        rw [UInt8.lt_iff_toNat_lt, hbyte]
        exact h
      rw [push_of_lt h, List.singleton_append, read, if_pos hlast, hbyte]
    · have hle : 0x80 ≤ value := by omega
      obtain ⟨hmore, hbits⟩ := continued_byte value
      rw [push_of_le hle, List.cons_append, read, if_neg hmore, hbits,
        ih (value / 128) (by omega), Option.map_some]
      have hsplit : value % 128 + 128 * (value / 128) = value := by omega
      rw [hsplit]

/-! ### Length -/

theorem log2_or_one (h : value ≠ 0) : (value ||| 1).log2 = value.log2 := by
  have hle : 2 ^ value.log2 ≤ value ||| 1 := (Nat.log2_self_le h).trans Nat.left_le_or
  have hlt : value ||| 1 < 2 ^ (value.log2 + 1) := by
    refine Nat.or_lt_two_pow Nat.lt_log2_self ?_
    exact Nat.one_lt_two_pow (Nat.succ_ne_zero _)
  have hne : value ||| 1 ≠ 0 := by
    have hone : 1 ≤ value ||| 1 := Nat.right_le_or
    omega
  exact (Nat.log2_eq_iff hne).mpr ⟨hle, hlt⟩

theorem len_of_lt (h : value < 0x80) : len value = 1 := by
  have hlog : (value ||| 1).log2 < 7 := by
    rw [Nat.log2_lt]
    · exact Nat.or_lt_two_pow (by omega) (by omega)
    · have hone : 1 ≤ value ||| 1 := Nat.right_le_or
      omega
  rw [len]
  omega

theorem len_of_le (h : 0x80 ≤ value) : len value = len (value / 128) + 1 := by
  have hlog : value.log2 = (value / 128).log2 + 7 := by
    have hne : value / 128 ≠ 0 := by omega
    have hlow := Nat.log2_self_le hne
    have hhigh := @Nat.lt_log2_self (value / 128)
    rw [Nat.log2_eq_iff (by omega), pow_add, pow_add, pow_add]
    rw [pow_add] at hhigh
    constructor
    · omega
    · omega
  rw [len, len, log2_or_one (by omega), log2_or_one (by omega), hlog]
  omega

/-- A number takes as many bytes as announced. -/
@[simp] theorem length_push (value : ℕ) : (push value).length = len value := by
  induction value using Nat.strongRecOn with
  | ind value ih =>
    by_cases h : value < 0x80
    · rw [push_of_lt h, len_of_lt h, List.length_singleton]
    · have hle : 0x80 ≤ value := by omega
      rw [push_of_le hle, len_of_le hle, List.length_cons, ih _ (by omega)]

theorem len_pos : 0 < len value := by
  rw [len]
  omega

/-- Three bytes hold sixteen bits, and more. -/
theorem len_le_three (h : value < 2 ^ 21) : len value ≤ 3 := by
  have hlog : (value ||| 1).log2 < 21 := by
    rw [Nat.log2_lt]
    · exact Nat.or_lt_two_pow h (by omega)
    · have hone : 1 ≤ value ||| 1 := Nat.right_le_or
      omega
  rw [len]
  omega

end Varint
