import Osx64.Lib.Bytes

/-!
# Hexadecimal digits

A byte is written as two digits.  The writer uses lower case, the reader takes both cases, so
reading and writing again gives the text in lower case.
-/

namespace Osx64

open Nat

/-- `hex[n]` for the table `"0123456789abcdef"` -/
def hexChar (n : Nat) : UInt8 :=
  [48, 49, 50, 51, 52, 53, 54, 55, 56, 57, 97, 98, 99, 100, 101, 102].getD n 0

/-- The value of a digit of either case. -/
def hexVal (c : UInt8) : Option Nat :=
  if 48 ≤ c ∧ c ≤ 57 then some (c.toNat - 48)
  else if 97 ≤ c ∧ c ≤ 102 then some (c.toNat - 97 + 10)
  else if 65 ≤ c ∧ c ≤ 70 then some (c.toNat - 65 + 10)
  else none

/-- `(high << 4) | low` -/
def hexByte (high low : Nat) : UInt8 := UInt8.ofNat (high <<< 4 ||| low)

/-- A letter in lower case. -/
def lowerCase (c : UInt8) : UInt8 := if 65 ≤ c ∧ c ≤ 90 then c + 32 else c

theorem hexVal_hexChar {n : Nat} (hn : n < 16) : hexVal (hexChar n) = some n := by
  have hall : ∀ n < 16, hexVal (hexChar n) = some n := by decide
  exact hall n hn

theorem lowerCase_hexChar {n : Nat} (hn : n < 16) : lowerCase (hexChar n) = hexChar n := by
  have hall : ∀ n < 16, lowerCase (hexChar n) = hexChar n := by decide
  exact hall n hn

/-- A digit is written back in lower case. -/
theorem hexChar_hexVal {c : UInt8} {v : Nat} (hc : hexVal c = some v) :
    v < 16 ∧ hexChar v = lowerCase c := by
  have hall : ∀ n < 256, ∀ v ∈ hexVal (UInt8.ofNat n),
      v < 16 ∧ hexChar v = lowerCase (UInt8.ofNat n) := by
    decide +kernel
  have h := hall c.toNat c.toNat_lt v
  rw [UInt8.ofNat_toNat] at h
  exact h hc

theorem hexByte_eq {high low : Nat} (hlow : low < 16) :
    hexByte high low = UInt8.ofNat (16 * high + low) := by
  rw [hexByte, shiftLeft_eq, ← shiftLeft_eq, ← shiftLeft_add_eq_or_of_lt hlow,
    shiftLeft_eq, Nat.mul_comm]

/-- The two digits of a byte give the byte back. -/
theorem hexByte_nibbles (b : UInt8) : hexByte (b.toNat >>> 4) (b.toNat &&& 15) = b := by
  have hlow : b.toNat &&& 15 = b.toNat % 16 := and_two_pow_sub_one_eq_mod b.toNat 4
  have hhigh : b.toNat >>> 4 = b.toNat / 16 := shiftRight_eq_div_pow b.toNat 4
  rw [hexByte_eq (by omega), hlow, hhigh, div_add_mod, UInt8.ofNat_toNat]

theorem nibbles_lt (b : UInt8) : b.toNat >>> 4 < 16 ∧ b.toNat &&& 15 < 16 := by
  have hb := b.toNat_lt
  have hlow : b.toNat &&& 15 = b.toNat % 16 := and_two_pow_sub_one_eq_mod b.toNat 4
  omega

/-- The digits of a byte that has been read from two digits. -/
theorem nibbles_hexByte {high low : Nat} (hhigh : high < 16) (hlow : low < 16) :
    (hexByte high low).toNat >>> 4 = high ∧ (hexByte high low).toNat &&& 15 = low := by
  have hval : (hexByte high low).toNat = 16 * high + low := by
    rw [hexByte_eq hlow, UInt8.toNat_ofNat']
    omega
  have hand : (16 * high + low) &&& 15 = (16 * high + low) % 16 :=
    and_two_pow_sub_one_eq_mod _ 4
  have hshift : (16 * high + low) >>> 4 = (16 * high + low) / 16 :=
    shiftRight_eq_div_pow _ 4
  rw [hval, hand, hshift]
  omega

end Osx64
