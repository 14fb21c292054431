import Mathlib.Algebra.Ring.Nat
import Mathlib.Tactic.Common

/-!
# Machine words and byte buffers

The kernel reads and writes packed little-endian records through pointers into
byte buffers.  A buffer is a total function from offsets to bytes here; how much
of it exists is known to whoever owns it.  For every access there are two kinds of
lemmas: what a read finds where the last write went, and that writes elsewhere are
invisible to it.
-/

namespace Osx64

open Nat

/-- Reduction to a `uint16_t`. -/
def u16 (x : Nat) : Nat := x % 2 ^ 16

/-- Reduction to a `uint32_t`. -/
def u32 (x : Nat) : Nat := x % 2 ^ 32

/-- Reduction to a `uint64_t`. -/
def u64 (x : Nat) : Nat := x % 2 ^ 64

/-- The difference of two `uint32_t`. -/
def sub32 (x y : Nat) : Nat := if y ≤ x then x - y else x + 2 ^ 32 - y

theorem sub32_of_le {x y : Nat} (h : y ≤ x) : sub32 x y = x - y := if_pos h

theorem u16_of_lt {x : Nat} (hx : x < 2 ^ 16) : u16 x = x := mod_eq_of_lt hx

theorem u32_of_lt {x : Nat} (hx : x < 2 ^ 32) : u32 x = x := mod_eq_of_lt hx

theorem u64_of_lt {x : Nat} (hx : x < 2 ^ 64) : u64 x = x := mod_eq_of_lt hx

theorem u32_lt (x : Nat) : u32 x < 2 ^ 32 := mod_lt _ (by decide)

/-- A byte buffer, as a function of the offset. -/
abbrev Buf := Nat → UInt8

namespace Buf

/-- The buffer `memset(buf, 0, size)` leaves. -/
def zero : Buf := fun _ => 0

/-- `*(uint16_t *)(buf + i)` -/
def get16 (b : Buf) (i : Nat) : Nat :=
  (b i).toNat + 2 ^ 8 * (b (i + 1)).toNat

/-- `*(uint32_t *)(buf + i)` -/
def get32 (b : Buf) (i : Nat) : Nat :=
  (b i).toNat + 2 ^ 8 * (b (i + 1)).toNat + 2 ^ 16 * (b (i + 2)).toNat
    + 2 ^ 24 * (b (i + 3)).toNat

/-- `*(uint8_t *)(buf + i) = v` -/
def put8 (b : Buf) (i v : Nat) : Buf := fun j =>
  if j = i then UInt8.ofNat v else b j

/-- `*(uint16_t *)(buf + i) = v` -/
def put16 (b : Buf) (i v : Nat) : Buf := fun j =>
  if j = i then UInt8.ofNat v
  else if j = i + 1 then UInt8.ofNat (v / 2 ^ 8)
  else b j

/-- `*(uint32_t *)(buf + i) = v` -/
def put32 (b : Buf) (i v : Nat) : Buf := fun j =>
  if j = i then UInt8.ofNat v
  else if j = i + 1 then UInt8.ofNat (v / 2 ^ 8)
  else if j = i + 2 then UInt8.ofNat (v / 2 ^ 16)
  else if j = i + 3 then UInt8.ofNat (v / 2 ^ 24)
  else b j

/-- `memcpy(dst + i, src, len)` -/
def blit (dst : Buf) (i : Nat) (src : Buf) (len : Nat) : Buf := fun j =>
  if i ≤ j ∧ j < i + len then src (j - i) else dst j

/-- The buffer as seen through a pointer to its offset `i`. -/
def drop (b : Buf) (i : Nat) : Buf := fun j => b (i + j)

/-- A copy of the first `len` bytes. -/
def clip (b : Buf) (len : Nat) : Buf := fun j => if j < len then b j else 0

variable {b c src : Buf} {i j k v len : Nat} {n : Nat}

/-! ## Reads depend on the bytes they cover -/

theorem get16_congr (h : ∀ k < 2, b (i + k) = c (j + k)) : get16 b i = get16 c j := by
  have h0 := h 0 (by decide)
  have h1 := h 1 (by decide)
  simp only [Nat.add_zero] at h0
  rw [get16, get16, h0, h1]

theorem get32_congr (h : ∀ k < 4, b (i + k) = c (j + k)) : get32 b i = get32 c j := by
  have h0 := h 0 (by decide)
  have h1 := h 1 (by decide)
  have h2 := h 2 (by decide)
  have h3 := h 3 (by decide)
  simp only [Nat.add_zero] at h0
  rw [get32, get32, h0, h1, h2, h3]

theorem get16_lt (b : Buf) (i : Nat) : get16 b i < 2 ^ 16 := by
  have h0 := (b i).toNat_lt
  have h1 := (b (i + 1)).toNat_lt
  rw [get16]
  omega

theorem get32_lt (b : Buf) (i : Nat) : get32 b i < 2 ^ 32 := by
  have h0 := (b i).toNat_lt
  have h1 := (b (i + 1)).toNat_lt
  have h2 := (b (i + 2)).toNat_lt
  have h3 := (b (i + 3)).toNat_lt
  rw [get32]
  omega

@[simp] theorem get32_zero (i : Nat) : get32 zero i = 0 := rfl

theorem get32_clip (h : i + 4 ≤ len) : get32 (clip b len) i = get32 b i :=
  get32_congr fun _ _ => if_pos (by omega)

/-- A word determines its bytes. -/
theorem eq_of_get32_eq (h : get32 b i = get32 c j) (hk : k < 4) : b (i + k) = c (j + k) := by
  have hb0 := (b i).toNat_lt
  have hb1 := (b (i + 1)).toNat_lt
  have hb2 := (b (i + 2)).toNat_lt
  have hc0 := (c j).toNat_lt
  have hc1 := (c (j + 1)).toNat_lt
  have hc2 := (c (j + 2)).toNat_lt
  rw [get32, get32] at h
  apply UInt8.toNat_inj.1
  rcases (by omega : k = 0 ∨ k = 1 ∨ k = 2 ∨ k = 3) with rfl | rfl | rfl | rfl
  · rw [Nat.add_zero, Nat.add_zero]
    omega
  · omega
  · omega
  · omega

/-! ## Bytes a write leaves alone -/

theorem put8_of_ne (h : j ≠ i) : put8 b i v j = b j := if_neg h

theorem put8_self : put8 b i v i = UInt8.ofNat v := if_pos rfl

theorem put16_of_not_mem (h : j < i ∨ i + 2 ≤ j) : put16 b i v j = b j := by
  rw [put16, if_neg (by omega), if_neg (by omega)]

theorem put32_of_not_mem (h : j < i ∨ i + 4 ≤ j) : put32 b i v j = b j := by
  rw [put32, if_neg (by omega), if_neg (by omega), if_neg (by omega), if_neg (by omega)]

theorem blit_of_not_mem (h : j < i ∨ i + len ≤ j) : blit b i src len j = b j :=
  if_neg (by omega)

theorem blit_of_mem (h : i ≤ j) (h' : j < i + len) : blit b i src len j = src (j - i) :=
  if_pos ⟨h, h'⟩

/-! ## A part of a larger buffer -/

theorem clip_clip (b : Buf) (len : Nat) : (b.clip len).clip len = b.clip len := by
  funext k
  simp only [clip]
  split_ifs <;> rfl

/-- A record of a block, read through a copy of the block. -/
theorem clip_drop_clip_drop (h : i + len ≤ n) :
    (((b.drop j).clip n).drop i).clip len = (b.drop (j + i)).clip len := by
  funext k
  simp only [clip, drop]
  split
  · rw [if_pos (by omega), Nat.add_assoc]
  · rfl

/-- Writing a block back after a record of it has been replaced replaces the record. -/
theorem blit_clip_drop (h : i + len ≤ n) :
    b.blit j (((b.drop j).clip n).blit i src len) n = b.blit (j + i) src len := by
  funext k
  simp only [blit, clip, drop]
  by_cases hrecord : j + i ≤ k ∧ k < j + i + len
  · rw [if_pos hrecord, if_pos (by omega), if_pos (by omega), sub_add_eq]
  · rw [if_neg hrecord]
    split
    · rw [if_neg (by omega), if_pos (by omega)]
      congr 1
      omega
    · rfl

theorem clip_drop_congr (heq : ∀ k < len, b (i + k) = c (i + k)) :
    (b.drop i).clip len = (c.drop i).clip len := by
  funext k
  simp only [clip, drop]
  split
  · next hk => exact heq k hk
  · rfl

/-- Reading a block that has just been written. -/
theorem clip_drop_blit : ((b.blit j src n).drop j).clip n = src.clip n := by
  funext k
  simp only [clip, drop]
  split
  · rw [blit_of_mem (by omega) (by omega), Nat.add_sub_cancel_left]
  · rfl

/-! ## Reading back a word -/

theorem get16_put16 (hv : v < 2 ^ 16) : get16 (put16 b i v) i = v := by
  simp only [get16, put16, if_true, Nat.add_eq_left, Nat.one_ne_zero, if_false,
    UInt8.toNat_ofNat']
  omega

theorem get32_put32 (hv : v < 2 ^ 32) : get32 (put32 b i v) i = v := by
  simp only [get32, put32, if_true, Nat.add_eq_left, if_false,
    Nat.add_left_cancel_iff, UInt8.toNat_ofNat', reduceEqDiff, succ_ne_zero]
  omega

theorem get32_put16_of_disjoint (h : j + 4 ≤ i ∨ i + 2 ≤ j) :
    get32 (put16 b i v) j = get32 b j :=
  get32_congr fun _ _ => put16_of_not_mem (by omega)

theorem get32_put32_of_disjoint (h : j + 4 ≤ i ∨ i + 4 ≤ j) :
    get32 (put32 b i v) j = get32 b j :=
  get32_congr fun _ _ => put32_of_not_mem (by omega)

/-- Entry `k` of an array of words after entry `j` has been written. -/
theorem get32_put32_entry (hv : v < 2 ^ 32) :
    get32 (put32 b (i + 4 * j) v) (i + 4 * k) =
      if k = j then v else get32 b (i + 4 * k) := by
  split
  · next h => rw [h, get32_put32 hv]
  · next h => exact get32_put32_of_disjoint (by omega)

theorem get32_put32_index (hv : v < 2 ^ 32) :
    get32 (put32 b (4 * j) v) (4 * k) = if k = j then v else get32 b (4 * k) := by
  have h := @get32_put32_entry b 0 j k v hv
  rwa [Nat.zero_add, Nat.zero_add] at h

end Buf

end Osx64
