import Osx64.Lib.Bytes

/-!
# Bitmaps

Bit `i` of a bitmap is bit `i % 8` of byte `i / 8`.
-/

namespace Osx64.Buf

open Nat

/-- `bitmap[i / 8] & (1 << (i % 8))` -/
def bit (b : Buf) (i : Nat) : Bool := (b (i / 8)).toNat.testBit (i % 8)

/-- `bitmap[i / 8] |= 1 << (i % 8)` -/
def setBit (b : Buf) (i : Nat) : Buf :=
  put8 b (i / 8) ((b (i / 8)).toNat ||| 2 ^ (i % 8))

/-- `bitmap[i / 8] &= ~(1 << (i % 8))` -/
def clearBit (b : Buf) (i : Nat) : Buf :=
  put8 b (i / 8) ((b (i / 8)).toNat &&& (255 ^^^ 2 ^ (i % 8)))

theorem bit_congr {b c : Buf} {i : Nat} (h : b (i / 8) = c (i / 8)) : bit b i = bit c i := by
  rw [bit, bit, h]

private theorem bit_put8 (b : Buf) (i j v : Nat) :
    bit (put8 b (i / 8) v) j = if j / 8 = i / 8 then v.testBit (j % 8) else bit b j := by
  split
  · next h =>
      rw [bit, h, put8_self, UInt8.toNat_ofNat', testBit_mod_two_pow]
      simp [mod_lt j (by decide : 0 < 8)]
  · next h => exact bit_congr (put8_of_ne h)

theorem bit_setBit (b : Buf) (i j : Nat) : bit (setBit b i) j = (j == i || bit b j) := by
  rw [setBit, bit_put8]
  split
  · next h =>
      have hiff : i % 8 = j % 8 ↔ j = i := by omega
      rw [testBit_or, testBit_two_pow, ← h, Bool.or_comm]
      simp only [hiff]
      rfl
  · next h =>
      have hne : j ≠ i := fun heq => h (by rw [heq])
      simp [hne]

theorem bit_clearBit (b : Buf) (i j : Nat) : bit (clearBit b i) j = (j != i && bit b j) := by
  rw [clearBit, bit_put8]
  split
  · next h =>
      have hiff : i % 8 = j % 8 ↔ j = i := by omega
      have hlow : (255 : Nat).testBit (j % 8) = true := by
        rw [show (255 : Nat) = 2 ^ 8 - 1 from rfl, testBit_two_pow_sub_one]
        simp [mod_lt j (by decide : 0 < 8)]
      rw [testBit_and, testBit_xor, hlow, testBit_two_pow, ← h, Bool.and_comm,
        Bool.true_xor]
      simp only [hiff, bit, bne, Bool.beq_eq_decide_eq]
  · next h =>
      have hne : j ≠ i := fun heq => h (by rw [heq])
      simp [hne]

end Osx64.Buf
