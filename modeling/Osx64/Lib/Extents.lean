import Mathlib.Data.List.Range
import Osx64.Lib.Bytes

/-!
# Buffers handed to a device

A device is given a list of ranges of physical memory, each as a first address and a length, and
works through them in order.  The driver has a buffer of consecutive linear addresses instead.  It
cuts the buffer into pieces and translates the first address of each piece.  The device then works
on the bytes of the buffer exactly if it does so piece by piece (`named_flatMap_iff`), and inside a
piece it depends on where the device goes on at the end of a page (`named_split_iff`).
-/

namespace Osx64

open List Nat

/-- The addresses a list of ranges names, in order. -/
def named (ranges : List (Nat × Nat)) : List Nat := ranges.flatMap fun r => range' r.1 r.2

/-- The first `k` pieces of `step` bytes of a buffer of `n` bytes at `a`; the last one may be
shorter. -/
def pieces (step : Nat) : Nat → Nat → Nat → List (Nat × Nat)
  | 0, _, _ => []
  | k + 1, a, n => (a, min step n) :: pieces step k (a + step) (n - step)

section Named

variable {ranges ranges' : List (Nat × Nat)} {step k a b l n : Nat}

@[simp]
theorem named_nil : named [] = [] := rfl

@[simp]
theorem named_cons : named ((a, l) :: ranges) = range' a l ++ named ranges := rfl

theorem named_append : named (ranges ++ ranges') = named ranges ++ named ranges' :=
  flatMap_append

/-- Enough pieces name the buffer. -/
theorem named_pieces (h : n ≤ k * step) : named (pieces step k a n) = range' a n := by
  induction k generalizing a n with
  | zero =>
    obtain rfl : n = 0 := by omega
    rfl
  | succ k ih =>
    rw [succ_mul] at h
    rw [pieces, named_cons, ih (by omega)]
    by_cases hn : n ≤ step
    · rw [min_eq_right hn, Nat.sub_eq_zero_of_le hn]
      simp
    · have hle : step ≤ n := Nat.le_of_not_le hn
      rw [min_eq_left hle, range'_append_1, Nat.add_sub_cancel' hle]

/-- All pieces have `step` bytes, except that the last one has the rest. -/
theorem mem_pieces {p : Nat × Nat} (hp : p ∈ pieces step k a n) :
    ∃ i < k, p = (a + i * step, min step (n - i * step)) := by
  induction k generalizing a n with
  | zero => cases hp
  | succ k ih =>
    rcases mem_cons.mp hp with rfl | hp
    · exact ⟨0, by omega, by simp⟩
    · obtain ⟨i, hi, rfl⟩ := ih hp
      refine ⟨i + 1, by omega, ?_⟩
      rw [succ_mul, Nat.add_assoc, Nat.add_comm step, Nat.sub_sub, Nat.add_comm step]

theorem range'_eq_map_iff {f : Nat → Nat} :
    range' b l = (range' a l).map f ↔ ∀ k < l, f (a + k) = b + k := by
  constructor
  · intro h k hk
    have hget := congrArg (fun xs => xs[k]?) h
    simpa [hk] using hget.symm
  · intro h
    apply ext_getElem?
    intro k
    by_cases hk : k < l
    · simp [hk, h k hk]
    · simp [hk]

/-- The ranges of all pieces name the translated buffer exactly if those of each piece do. -/
theorem named_flatMap_iff {ps : List (Nat × Nat)} {f : Nat × Nat → List (Nat × Nat)}
    {tr : Nat → Nat} (hlen : ∀ p ∈ ps, (named (f p)).length = p.2) :
    named (ps.flatMap f) = (named ps).map tr ↔
      ∀ p ∈ ps, named (f p) = (range' p.1 p.2).map tr := by
  induction ps with
  | nil => simp
  | cons p ps ih =>
    have hhead := hlen p mem_cons_self
    rw [flatMap_cons, named_append, named_cons, map_append, forall_mem_cons,
      ← ih fun q hq => hlen q (mem_cons_of_mem p hq)]
    constructor
    · intro h
      exact append_inj h (by simp [hhead])
    · rintro ⟨h, h'⟩
      rw [h, h']

end Named

/-! ## Pages -/

/-- The frame behind every page of an address space. -/
structure Frames where
  frame : Nat → Nat
  frame_lt : ∀ p, frame p < 2 ^ 40

/-- The frame of the page of a linear address. -/
def Frames.at (pt : Frames) (a : Nat) : Nat := pt.frame (u64 a / 4096)

/-- What `mem_linear2phy_get` returns for an address that is mapped. -/
def Frames.translate (pt : Frames) (a : Nat) : Nat := pt.at a * 4096 + a % 4096

section Pages

variable {pt : Frames} {a b c k l : Nat}

theorem Frames.translate_lt : pt.translate a < 2 ^ 52 := by
  have hframe : pt.at a < 2 ^ 40 := pt.frame_lt _
  unfold Frames.translate
  omega

theorem Frames.at_add_of_lt (h : a % 4096 + k < 4096) : pt.at (a + k) = pt.at a := by
  have hpage : u64 (a + k) / 4096 = u64 a / 4096 := by
    unfold u64
    omega
  rw [Frames.at, hpage, Frames.at]

theorem Frames.at_add_of_ge (h : 4096 ≤ a % 4096 + k) (h' : k ≤ 4096) :
    pt.at (a + k) = pt.at (a + 4096) := by
  have hpage : u64 (a + k) / 4096 = u64 (a + 4096) / 4096 := by
    unfold u64
    omega
  rw [Frames.at, hpage, Frames.at]

theorem Frames.translate_add_of_lt (h : a % 4096 + k < 4096) :
    pt.translate (a + k) = pt.translate a + k := by
  rw [Frames.translate, at_add_of_lt h, Frames.translate]
  omega

/-- Behind the end of the page. -/
theorem Frames.translate_add_of_ge (h : 4096 ≤ a % 4096 + k) (h' : k ≤ 4096) :
    pt.translate (a + k) = pt.at (a + 4096) * 4096 + (a % 4096 + k - 4096) := by
  rw [Frames.translate, at_add_of_ge h h']
  omega

/-- A device starts at `b`, and at the end of the page it goes on at `c`. -/
theorem named_split_iff (hl : l ≤ 4096) (hl0 : 0 < l) :
    named [(b, min l (4096 - a % 4096)), (c, l - (4096 - a % 4096))] =
        (range' a l).map pt.translate ↔
      b = pt.translate a ∧ (a % 4096 + l ≤ 4096 ∨ c = pt.at (a + 4096) * 4096) := by
  generalize hr : 4096 - a % 4096 = r
  have hsplit : (range' a l).map pt.translate =
      (range' a (min l r)).map pt.translate ++
        (range' (a + min l r) (l - r)).map pt.translate := by
    rw [← map_append, range'_append_1]
    congr 2
    omega
  rw [hsplit, named_cons, named_cons, named_nil, append_nil]
  have hfirst : range' b (min l r) = (range' a (min l r)).map pt.translate ↔
      b = pt.translate a := by
    rw [range'_eq_map_iff]
    constructor
    · intro h
      exact (h 0 (by omega)).symm
    · rintro rfl k hk
      exact Frames.translate_add_of_lt (by omega)
  have hsecond : range' c (l - r) = (range' (a + min l r) (l - r)).map pt.translate ↔
      a % 4096 + l ≤ 4096 ∨ c = pt.at (a + 4096) * 4096 := by
    rw [range'_eq_map_iff]
    rcases lt_or_ge r l with hlt | hge
    · have hnext : ∀ k < l - r,
          pt.translate (a + min l r + k) = pt.at (a + 4096) * 4096 + k := by
        intro k hk
        rw [min_eq_right hlt.le, Nat.add_assoc, Frames.translate_add_of_ge (by omega) (by omega)]
        omega
      constructor
      · intro h
        refine .inr ?_
        have h0 := h 0 (by omega)
        rw [hnext 0 (by omega), Nat.add_zero, Nat.add_zero] at h0
        exact h0.symm
      · rintro (h | rfl)
        · omega
        · exact hnext
    · exact iff_of_true (fun k hk => by omega) (.inl (by omega))
  rw [← hfirst, ← hsecond]
  constructor
  · intro h
    exact append_inj h (by simp)
  · rintro ⟨h, h'⟩
    rw [← h, ← h']

/-- A device that gets one range goes on in the next frame. -/
theorem named_single_iff (hl : l ≤ 4096) (hl0 : 0 < l) :
    named [(pt.translate a, l)] = (range' a l).map pt.translate ↔
      a % 4096 + l ≤ 4096 ∨ pt.at (a + 4096) = pt.at a + 1 := by
  have hsplit : named [(pt.translate a, l)] = named [(pt.translate a, min l (4096 - a % 4096)),
      (pt.translate a + min l (4096 - a % 4096), l - (4096 - a % 4096))] := by
    simp only [named_cons, named_nil, append_nil, range'_append_1]
    congr 1
    omega
  rw [hsplit, named_split_iff hl hl0, Frames.translate]
  omega

end Pages

end Osx64
