import Osx64.Ext2.Alloc
import Mathlib.Algebra.BigOperators.Group.Finset.Piecewise
import Mathlib.Algebra.Order.BigOperators.Group.Finset

/-!
# Free counts and bitmaps

Each group has a counter of its clear bits, and the superblock has the sum of these counters.
A bitmap is a whole block, so it has more bits than the group has numbers, and the last group may
be short; the bits that stand for no number are set, which is what keeps the search of
`ext2_alloc_block` inside the volume.

`ext2_free_block` and `ext2_free_inode` compare the index of a number with the size of a full
group.  A number behind the end of a short last group passes that test, and its bit is cleared.
All other arguments are harmless: numbers of the volume are counted, and numbers that belong to no
group change nothing.  So the counters are right in every state of a run in which no number from
the padding is freed, and wrong after the first such call.
-/

namespace Osx64.Ext2

open Function Finset Option Nat Prod Ext2.Fs

/-! ## One pool -/

namespace BitPool

/-- The clear bits of group `g`. -/
def clear (p : BitPool) (bits g : Nat) : Nat := Scan.count (fun i => !p.bit g i) 0 bits

/-- The numbers of a pool: `groups` groups of `per` numbers each, the first one `first`, and no
number from `limit` on.  A group has a bitmap of `bits` bits. -/
structure Extent where
  groups : Nat
  bits : Nat
  first : Nat
  per : Nat
  limit : Nat

/-- The number behind bit `i` of group `g`. -/
def Extent.number (x : Extent) (g i : Nat) : Nat := g * x.per + i + x.first

/-- The fields of the superblock are in their ranges. -/
structure Extent.Valid (x : Extent) : Prop where
  per_pos : 0 < x.per
  per_le : x.per ≤ x.bits
  per_lt : x.per < 2 ^ 16
  limit_lt : x.limit < 2 ^ 32

/-- Bits without a number are set, and the counters are right. -/
structure Counted (p : BitPool) (x : Extent) : Prop where
  padded : ∀ g < x.groups, ∀ i < x.bits, x.per ≤ i ∨ x.limit ≤ x.number g i → p.bit g i = true
  free : ∀ g < x.groups, p.free g = p.clear x.bits g
  total : p.total = ∑ g ∈ range x.groups, p.free g

variable {p : BitPool} {x : Extent} {g i : Nat}

/-- A clear bit belongs to a number. -/
theorem Counted.lt_of_clear (h : p.Counted x) (hg : g < x.groups) (hi : i < x.bits)
    (hclear : p.bit g i = false) : i < x.per ∧ x.number g i < x.limit := by
  by_contra hpad
  have hset := h.padded g hg i hi (by omega)
  simp [hclear] at hset

theorem number_inj {per g g' i i' : Nat} (hi : i < per) (hi' : i' < per)
    (h : g * per + i = g' * per + i') : g = g' ∧ i = i' := by
  have hpos : 0 < per := by omega
  have hdiv (a b : Nat) (hb : b < per) : (a * per + b) / per = a := by
    rw [mul_comm, mul_add_div hpos, div_eq_of_lt hb, add_zero]
  have hgroup : g = g' := by
    rw [← hdiv g i hi, h, hdiv g' i' hi']
  subst hgroup
  exact ⟨rfl, by omega⟩

/-- There are no more clear bits than numbers. -/
theorem Counted.sum_clear_le (h : p.Counted x) :
    ∑ g ∈ range x.groups, p.clear x.bits g ≤ x.limit - x.first := by
  -- the clear bits of all groups, as pairs of a group and an index
  let bits : Finset (Σ _ : Nat, Nat) := (range x.groups).sigma fun g =>
    (Finset.Ico 0 x.bits).filter fun i => (!p.bit g i) = true
  have hsum : ∑ g ∈ range x.groups, p.clear x.bits g = bits.card := by
    rw [card_sigma]
    rfl
  have hmem : ∀ b ∈ bits, b.1 < x.groups ∧ b.2 < x.bits ∧ p.bit b.1 b.2 = false := by
    intro b hb
    simpa [bits, and_assoc] using hb
  rw [hsum, ← card_Ico]
  apply card_le_card_of_injOn fun b => x.number b.1 b.2
  · intro b hb
    obtain ⟨hg, hi, hclear⟩ := hmem b hb
    have hlt := (h.lt_of_clear hg hi hclear).2
    simp only [coe_Ico, Set.mem_Ico]
    exact ⟨Nat.le_add_left .., hlt⟩
  · intro b hb c hc heq
    obtain ⟨hg, hi, hclear⟩ := hmem b hb
    obtain ⟨hg', hi', hclear'⟩ := hmem c hc
    have hsame := number_inj (h.lt_of_clear hg hi hclear).1 (h.lt_of_clear hg' hi' hclear').1
      (add_right_cancel heq)
    cases b
    cases c
    obtain ⟨rfl, rfl⟩ := hsame
    rfl

/-- A group has at most `per` clear bits. -/
theorem Counted.clear_le (h : p.Counted x) (hg : g < x.groups) : p.clear x.bits g ≤ x.per := by
  have hsub : (Finset.Ico 0 x.bits).filter (fun i => (!p.bit g i) = true) ⊆ range x.per := by
    intro i hi
    simp only [mem_filter, mem_Ico, Bool.not_eq_true'] at hi
    exact mem_range.mpr (h.lt_of_clear hg hi.1.2 hi.2).1
  have hcard := card_le_card hsub
  rwa [card_range] at hcard

theorem clear_of_ne {p' : BitPool} {bits g' : Nat} (h : ∀ j, p'.bit g' j = p.bit g' j) :
    p'.clear bits g' = p.clear bits g' :=
  Scan.count_congr fun j _ _ => by rw [h]

theorem clear_take {bits : Nat} (hi : i < bits) (hclear : p.bit g i = false) :
    p.clear bits g = (p.take g i).clear bits g + 1 := by
  have hset := Scan.count_set (p := fun j => !(p.take g i).bit g j) (zero_le i) hi
    (by simp [bit_take])
  rw [clear, clear, ← hset]
  refine Scan.count_congr fun j _ _ => ?_
  rw [bit_take]
  by_cases hj : j = i
  · simp [hj, hclear]
  · simp [hj]

theorem clear_release {bits : Nat} (hi : i < bits) (hset : p.bit g i = true) :
    (p.release g i).clear bits g = p.clear bits g + 1 := by
  have hcount := Scan.count_set (p := fun j => !p.bit g j) (zero_le i) hi (by simp [hset])
  rw [clear, clear, ← hcount]
  refine Scan.count_congr fun j _ _ => ?_
  rw [bit_release]
  by_cases hj : j = i
  · simp [hj]
  · simp [hj]

theorem sum_update {groups v : Nat} {f : Nat → Nat} (hg : g < groups) :
    (∑ j ∈ range groups, update f g v j) + f g =
      (∑ j ∈ range groups, f j) + v := by
  have hmem := mem_range.mpr hg
  rw [sum_update_of_mem hmem, ← sum_sdiff (singleton_subset_iff.mpr hmem),
    sum_singleton]
  omega

section

variable (h : p.Counted x)
include h

/-- A clear bit is set and counted. -/
theorem Counted.take (hx : x.Valid) (hg : g < x.groups) (hi : i < x.bits)
    (hclear : p.bit g i = false) : (p.take g i).Counted x := by
  have hcount := clear_take hi hclear
  have hle := h.clear_le hg
  have hlt := hx.per_lt
  have hfree : u16 (p.free g + (2 ^ 16 - 1)) = (p.take g i).clear x.bits g := by
    rw [h.free g hg, u16]
    omega
  refine ⟨fun g' hg' i' hi' hpad => ?_, fun g' hg' => ?_, ?_⟩
  · rw [bit_take, h.padded g' hg' i' hi' hpad, Bool.or_true]
  · change update p.free g (u16 (p.free g + (2 ^ 16 - 1))) g' = _
    by_cases hne : g' = g
    · rw [hne, update_self, hfree]
    · rw [update_of_ne hne, h.free g' hg', clear_of_ne]
      intro j
      simp [bit_take, hne]
  · change sub32 p.total 1 = ∑ g' ∈ _, update p.free g (u16 (p.free g + (2 ^ 16 - 1))) g'
    have hsum := sum_update (f := p.free) (v := (p.take g i).clear x.bits g) hg
    rw [hfree, sub32_of_le (by rw [h.total]; have := h.free g hg; omega), h.total]
    have := h.free g hg
    omega

/-- A set bit of a number is cleared and counted. -/
theorem Counted.release (hx : x.Valid) (hg : g < x.groups) (hi : i < x.per)
    (hnumber : x.number g i < x.limit) (hset : p.bit g i = true) : (p.release g i).Counted x := by
  have hcount := clear_release (lt_of_lt_of_le hi hx.per_le) hset
  have hpadded : ∀ g' < x.groups, ∀ i' < x.bits, x.per ≤ i' ∨ x.limit ≤ x.number g' i' →
      (p.release g i).bit g' i' = true := by
    intro g' hg' i' hi' hpad
    have hne : ¬ (g' = g ∧ i' = i) := by
      rintro ⟨rfl, rfl⟩
      omega
    simp [bit_release, h.padded g' hg' i' hi' hpad, hne]
  have hother (g' : Nat) (hne : g' ≠ g) : (p.release g i).clear x.bits g' = p.clear x.bits g' := by
    apply clear_of_ne
    intro j
    simp [bit_release, hne]
  -- the counters as they should be; the bound on them shows that the real ones do not wrap
  let q : BitPool := { (p.release g i) with
    free := (p.release g i).clear x.bits
    total := ∑ g' ∈ range x.groups, (p.release g i).clear x.bits g' }
  have hq : q.Counted x := ⟨hpadded, fun _ _ => rfl, rfl⟩
  have hle := hq.clear_le hg
  change (p.release g i).clear x.bits g ≤ x.per at hle
  have hsum_le := hq.sum_clear_le
  change ∑ g' ∈ range x.groups, (p.release g i).clear x.bits g' ≤ _ at hsum_le
  have hsum : ∑ g' ∈ range x.groups, (p.release g i).clear x.bits g' = p.total + 1 := by
    have hupdate := sum_update (f := p.free) (v := (p.release g i).clear x.bits g) hg
    have hsame : ∑ g' ∈ range x.groups, (p.release g i).clear x.bits g' =
        ∑ g' ∈ range x.groups,
          update p.free g ((p.release g i).clear x.bits g) g' := by
      refine sum_congr rfl fun g' hg' => ?_
      by_cases hne : g' = g
      · rw [hne, update_self]
      · rw [update_of_ne hne, hother g' hne, h.free g' (mem_range.mp hg')]
    have := h.free g hg
    rw [hsame, h.total]
    omega
  have hfree : u16 (p.free g + 1) = (p.release g i).clear x.bits g := by
    have := hx.per_lt
    rw [h.free g hg, ← hcount, u16_of_lt (by omega)]
  refine ⟨hpadded, fun g' hg' => ?_, ?_⟩
  · change update p.free g (u16 (p.free g + 1)) g' = _
    by_cases hne : g' = g
    · rw [hne, update_self, hfree]
    · rw [update_of_ne hne, h.free g' hg', hother g' hne]
  · change u32 (p.total + 1) = ∑ g' ∈ _, update p.free g (u16 (p.free g + 1)) g'
    have hupdate := sum_update (f := p.free) (v := (p.release g i).clear x.bits g) hg
    have := hx.limit_lt
    have := h.free g hg
    rw [hfree, u32_of_lt (by omega)]
    rw [h.total] at hsum ⊢
    omega

/-- Clearing a bit without a number is a mistake that shows. -/
theorem Counted.not_release (hg : g < x.groups) (hi : i < x.bits)
    (hnumber : x.limit ≤ x.number g i) : p.bit g i = true ∧ ¬ (p.release g i).Counted x := by
  refine ⟨h.padded g hg i hi (.inr hnumber), fun h' => ?_⟩
  have hset := h'.padded g hg i hi (.inr hnumber)
  simp [bit_release] at hset

/-- Clearing the bit at a distance from the first number, if it is set, keeps the counts right
exactly if there is such a number. -/
theorem Counted.release_iff {q : Nat} (hx : x.Valid) (hq : q < x.groups * x.per)
    (p' : BitPool) (hp' : p' =
      if p.bit (q / x.per) (q % x.per) then p.release (q / x.per) (q % x.per) else p) :
    p'.Counted x ↔ q + x.first < x.limit := by
  have hi := mod_lt q hx.per_pos
  have hg : q / x.per < x.groups := (div_lt_iff_lt_mul hx.per_pos).mpr hq
  have hnumber : x.number (q / x.per) (q % x.per) = q + x.first :=
    congrArg (· + x.first) (div_add_mod' q x.per)
  by_cases hlimit : q + x.first < x.limit
  · refine iff_of_true ?_ hlimit
    split at hp'
    · next hset => exact hp' ▸ h.release hx hg hi (hnumber ▸ hlimit) hset
    · exact hp' ▸ h
  · obtain ⟨hset, hnot⟩ := h.not_release hg (lt_of_lt_of_le hi hx.per_le)
      (hnumber ▸ not_lt.mp hlimit)
    rw [if_pos hset] at hp'
    exact iff_of_false (hp' ▸ hnot) hlimit

/-- The search fails only if every bit is set. -/
theorem Counted.bit_of_find_none (hfind : p.find x.groups x.bits = none)
    (hg : g < x.groups) (hi : i < x.bits) : p.bit g i = true := by
  have hgroup := List.findSome?_eq_none_iff.mp hfind g (List.mem_range.mpr hg)
  by_contra hclear
  have hpos : 0 < p.clear x.bits g :=
    Scan.count_pos_iff.mpr ⟨i, zero_le i, hi, by simpa using hclear⟩
  rw [if_neg (by rw [h.free g hg]; omega), map_eq_none_iff, Scan.first_eq_none] at hgroup
  have hset := hgroup i (zero_le i) hi
  simp [hclear] at hset

end

end BitPool

/-! ## The two pools of a volume -/

namespace Fs

/-- The blocks of the volume. -/
def blockExtent (fs : Fs) : BitPool.Extent where
  groups := fs.geo.groupCount
  bits := fs.geo.blockSize * 8
  first := fs.geo.firstDataBlock
  per := fs.geo.blocksPerGroup
  limit := fs.geo.blocksCount

/-- The inodes of a volume with `inodesCount` of them (`s_inodes_count`). -/
def inodeExtent (fs : Fs) (inodesCount : Nat) : BitPool.Extent where
  groups := fs.geo.groupCount
  bits := fs.geo.blockSize * 8
  first := 1
  per := fs.geo.inodesPerGroup
  limit := inodesCount + 1

/-- The free counts match the bitmaps. -/
structure CountsOk (inodesCount : Nat) (fs : Fs) : Prop where
  blocks : fs.blocks.Counted fs.blockExtent
  inodes : fs.inodes.Counted (fs.inodeExtent inodesCount)

end Fs

/-- The calls that change the bitmaps. -/
inductive BitmapCall
  | allocBlock
  | freeBlock (block : Nat)
  | allocInode
  | freeInode (ino : Nat)

namespace BitmapCall

/-- The volume after a call. -/
def exec (fs : Fs) : BitmapCall → Fs
  | .allocBlock => (fs.allocBlock.map snd).getD fs
  | .freeBlock block => fs.freeBlock block
  | .allocInode => (fs.allocInode.map snd).getD fs
  | .freeInode ino => fs.freeInode ino

/-- The argument is a `uint32_t`. -/
def Typed : BitmapCall → Prop
  | .allocBlock => True
  | .freeBlock block => block < 2 ^ 32
  | .allocInode => True
  | .freeInode ino => ino < 2 ^ 32

/-- A freed number is in the volume or behind all groups.  The distance from the first number is
taken as the code takes it, modulo `2 ^ 32`. -/
def Safe (inodesCount : Nat) (fs : Fs) : BitmapCall → Prop
  | .allocBlock => True
  | .freeBlock block =>
    sub32 block fs.geo.firstDataBlock + fs.geo.firstDataBlock < fs.geo.blocksCount ∨
      fs.geo.groupCount * fs.geo.blocksPerGroup ≤ sub32 block fs.geo.firstDataBlock
  | .allocInode => True
  | .freeInode ino =>
    sub32 ino 1 < inodesCount ∨ fs.geo.groupCount * fs.geo.inodesPerGroup ≤ sub32 ino 1

end BitmapCall

/-- A call with arguments that are not from the padding. -/
def SafeBitmapStep (inodesCount : Nat) (fs fs' : Fs) : Prop :=
  ∃ call : BitmapCall, (call.Typed ∧ call.Safe inodesCount fs) ∧ call.exec fs = fs'

section Calls

variable {fs fs' : Fs} {inodesCount block ino : Nat}

theorem Fs.CountsOk.congr (fs : Fs) (hgeo : fs'.geo = fs.geo)
    (hblocks : fs'.blocks.Counted fs.blockExtent)
    (hinodes : fs'.inodes.Counted (fs.inodeExtent inodesCount)) : fs'.CountsOk inodesCount := by
  refine ⟨?_, ?_⟩
  · rwa [blockExtent, hgeo]
  · rwa [inodeExtent, hgeo]

/-- What `ext2_alloc_block` does. -/
theorem Fs.CountsOk.allocBlock_spec (hx : fs.blockExtent.Valid) (h : fs.CountsOk inodesCount)
    (halloc : fs.allocBlock = some (block, fs')) :
    (fs'.geo = fs.geo ∧ fs'.CountsOk inodesCount) ∧ fs.geo.firstDataBlock ≤ block ∧
      block < fs.geo.blocksCount ∧ fs.blockUsed block = false := by
  obtain ⟨⟨g, i⟩, hfind, heq⟩ := map_eq_some_iff.mp halloc
  obtain ⟨hg, hi, hclear⟩ := BitPool.find_eq_some hfind
  obtain ⟨hper, hlimit⟩ := h.blocks.lt_of_clear hg hi hclear
  have hlt : g * fs.geo.blocksPerGroup + i + fs.geo.firstDataBlock < 2 ^ 32 :=
    hlimit.trans hx.limit_lt
  obtain ⟨hblock, rfl⟩ := Prod.mk.inj heq
  rw [u32_of_lt hlt] at hblock
  subst hblock
  refine ⟨⟨by simp [takeBlock], ?_⟩, Nat.le_add_left .., hlimit, ?_⟩
  · refine .congr fs (by simp [takeBlock]) ?_ (by simpa [takeBlock] using h.inodes)
    simpa [takeBlock] using h.blocks.take hx hg hi hclear
  · exact (BitPool.marked_number _ hper).trans hclear

/-- What `ext2_alloc_inode` does. -/
theorem Fs.CountsOk.allocInode_spec (hx : (fs.inodeExtent inodesCount).Valid)
    (h : fs.CountsOk inodesCount) (halloc : fs.allocInode = some (ino, fs')) :
    (fs'.geo = fs.geo ∧ fs'.CountsOk inodesCount) ∧ 1 ≤ ino ∧ ino ≤ inodesCount ∧
      fs.inodeUsed ino = false := by
  obtain ⟨⟨g, i⟩, hfind, heq⟩ := map_eq_some_iff.mp halloc
  obtain ⟨hg, hi, hclear⟩ := BitPool.find_eq_some hfind
  obtain ⟨hper, hlimit⟩ := h.inodes.lt_of_clear hg hi hclear
  have hlt : g * fs.geo.inodesPerGroup + i + 1 < 2 ^ 32 := hlimit.trans hx.limit_lt
  obtain ⟨hino, rfl⟩ := Prod.mk.inj heq
  rw [u32_of_lt hlt] at hino
  subst hino
  refine ⟨⟨by simp, ?_⟩, Nat.le_add_left .., Nat.lt_succ_iff.mp hlimit, ?_⟩
  · refine .congr fs (by simp) (by simpa using h.blocks) ?_
    simpa using h.inodes.take hx hg hi hclear
  · exact (BitPool.marked_number _ hper).trans hclear

/-- The bit that `ext2_free_block` and `ext2_free_inode` work on. -/
theorem sub_mul_div (q per : Nat) : q - q / per * per = q % per := by
  rw [mul_comm]
  have := div_add_mod q per
  omega

/-- What `ext2_free_block` does: it keeps the counts right unless the number is from the padding. -/
theorem Fs.CountsOk.freeBlock_iff (hx : fs.blockExtent.Valid) (h : fs.CountsOk inodesCount) :
    (fs.freeBlock block).geo = fs.geo ∧
      ((fs.freeBlock block).CountsOk inodesCount ↔
        (BitmapCall.freeBlock block).Safe inodesCount fs) := by
  have hpos : 0 < fs.geo.blocksPerGroup := hx.per_pos
  rw [BitmapCall.Safe]
  generalize hq : sub32 block fs.geo.firstDataBlock = q
  have hi := mod_lt q hpos
  simp only [freeBlock, hq, sub_mul_div]
  by_cases hgroup : fs.geo.groupCount * fs.geo.blocksPerGroup ≤ q
  · rw [if_pos (.inl ((le_div_iff_mul_le hpos).mpr hgroup))]
    exact ⟨rfl, iff_of_true h (.inr hgroup)⟩
  · have hiff := h.blocks.release_iff hx (not_le.mp hgroup)
    rw [or_iff_left hgroup, if_neg (not_or.mpr ⟨mt (le_div_iff_mul_le hpos).mp hgroup, by omega⟩)]
    split
    · next hset =>
      have hiff := hiff _ (if_pos hset).symm
      refine ⟨by simp, fun h' => hiff.mp (by simpa [blockExtent] using h'.blocks), fun hlt => ?_⟩
      refine .congr fs (by simp) ?_ (by simpa using h.inodes)
      rw [putBlock_blocks]
      exact hiff.mpr hlt
    · next hset => exact ⟨rfl, iff_of_true h ((hiff _ (if_neg hset).symm).mp h.blocks)⟩

/-- What `ext2_free_inode` does. -/
theorem Fs.CountsOk.freeInode_iff (hx : (fs.inodeExtent inodesCount).Valid)
    (h : fs.CountsOk inodesCount) :
    (fs.freeInode ino).geo = fs.geo ∧
      ((fs.freeInode ino).CountsOk inodesCount ↔
        (BitmapCall.freeInode ino).Safe inodesCount fs) := by
  have hpos : 0 < fs.geo.inodesPerGroup := hx.per_pos
  rw [BitmapCall.Safe]
  generalize hq : sub32 ino 1 = q
  simp only [freeInode, hq]
  by_cases hgroup : fs.geo.groupCount * fs.geo.inodesPerGroup ≤ q
  · rw [if_pos ((le_div_iff_mul_le hpos).mpr hgroup)]
    exact ⟨rfl, iff_of_true h (.inr hgroup)⟩
  · have hiff := h.inodes.release_iff hx (not_le.mp hgroup)
    rw [or_iff_left hgroup, ← @Nat.add_lt_add_iff_right 1,
      if_neg (mt (le_div_iff_mul_le hpos).mp hgroup)]
    split
    · next hset =>
      have hiff := hiff _ (if_pos hset).symm
      refine ⟨by simp, fun h' => hiff.mp (by simpa [inodeExtent] using h'.inodes), fun hlt => ?_⟩
      refine .congr fs (by simp) (by simpa using h.blocks) ?_
      rw [putBlock_inodes]
      exact hiff.mpr hlt
    · next hset => exact ⟨rfl, iff_of_true h ((hiff _ (if_neg hset).symm).mp h.inodes)⟩

end Calls

/-! ## Runs -/

section Runs

variable {fs fs' : Fs} {inodesCount : Nat} {call : BitmapCall}

/-- The ranges of the superblock's fields. -/
structure Fs.Sized (inodesCount : Nat) (fs : Fs) : Prop where
  blocks : fs.blockExtent.Valid
  inodes : (fs.inodeExtent inodesCount).Valid

theorem Fs.Sized.congr (h : fs.Sized inodesCount) (hgeo : fs'.geo = fs.geo) :
    fs'.Sized inodesCount := by
  refine ⟨?_, ?_⟩
  · rw [blockExtent, hgeo]
    exact h.blocks
  · rw [inodeExtent, hgeo]
    exact h.inodes

/-- A call keeps the counts right exactly if it is safe. -/
theorem Fs.CountsOk.step_iff (hx : fs.Sized inodesCount) (h : fs.CountsOk inodesCount)
    (call : BitmapCall) :
    (call.exec fs).geo = fs.geo ∧
      ((call.exec fs).CountsOk inodesCount ↔ call.Safe inodesCount fs) := by
  cases call with
  | allocBlock =>
    change ((fs.allocBlock.map snd).getD fs).geo = _ ∧
      (((fs.allocBlock.map snd).getD fs).CountsOk _ ↔ True)
    cases halloc : fs.allocBlock with
    | none => exact ⟨rfl, iff_of_true h trivial⟩
    | some r =>
      obtain ⟨hgeo, hok⟩ := (h.allocBlock_spec hx.blocks halloc).1
      exact ⟨hgeo, iff_of_true hok trivial⟩
  | freeBlock block => exact h.freeBlock_iff hx.blocks
  | allocInode =>
    change ((fs.allocInode.map snd).getD fs).geo = _ ∧
      (((fs.allocInode.map snd).getD fs).CountsOk _ ↔ True)
    cases halloc : fs.allocInode with
    | none => exact ⟨rfl, iff_of_true h trivial⟩
    | some r =>
      obtain ⟨hgeo, hok⟩ := (h.allocInode_spec hx.inodes halloc).1
      exact ⟨hgeo, iff_of_true hok trivial⟩
  | freeInode ino => exact h.freeInode_iff hx.inodes

theorem Fs.CountsOk.run (hx : fs.Sized inodesCount) (h : fs.CountsOk inodesCount)
    (hrun : Relation.ReflTransGen (SafeBitmapStep inodesCount) fs fs') :
    fs'.Sized inodesCount ∧ fs'.CountsOk inodesCount := by
  induction hrun with
  | refl => exact ⟨hx, h⟩
  | tail _ hstep ih =>
    obtain ⟨call, ⟨_, hsafe⟩, rfl⟩ := hstep
    obtain ⟨hgeo, hiff⟩ := ih.2.step_iff ih.1 call
    exact ⟨ih.1.congr hgeo, hiff.mpr hsafe⟩

/-- As long as no number from the padding is freed, the counts match the bitmaps, every allocated
number was free and is in the volume, and an allocation fails only on a full volume.  The first
call that frees a number from the padding makes the counts or the padding wrong. -/
theorem freeCounts_of_safe_run (hx : fs.Sized inodesCount) (h : fs.CountsOk inodesCount)
    (hrun : Relation.ReflTransGen (SafeBitmapStep inodesCount) fs fs') :
    fs'.CountsOk inodesCount ∧
      (∀ block fs'', fs'.allocBlock = some (block, fs'') →
        fs'.geo.firstDataBlock ≤ block ∧ block < fs'.geo.blocksCount ∧
        fs'.blockUsed block = false) ∧
      (fs'.allocBlock = none →
        ∀ g < fs'.geo.groupCount, ∀ i < fs'.geo.blockSize * 8, fs'.blocks.bit g i = true) ∧
      (∀ ino fs'', fs'.allocInode = some (ino, fs'') →
        1 ≤ ino ∧ ino ≤ inodesCount ∧ fs'.inodeUsed ino = false) ∧
      (fs'.allocInode = none →
        ∀ g < fs'.geo.groupCount, ∀ i < fs'.geo.blockSize * 8, fs'.inodes.bit g i = true) ∧
      ∀ call : BitmapCall, ¬ call.Safe inodesCount fs' →
      ¬ (call.exec fs').CountsOk inodesCount := by
  obtain ⟨hx', h'⟩ := h.run hx hrun
  refine ⟨h', fun block fs'' halloc => (h'.allocBlock_spec hx'.blocks halloc).2,
    fun halloc g hg i hi => ?_,
    fun ino fs'' halloc => (h'.allocInode_spec hx'.inodes halloc).2, fun halloc g hg i hi => ?_,
    fun call hunsafe => mt (h'.step_iff hx' call).2.mp hunsafe⟩
  · exact h'.blocks.bit_of_find_none (map_eq_none_iff.mp halloc) hg hi
  · exact h'.inodes.bit_of_find_none (map_eq_none_iff.mp halloc) hg hi

/-- A volume of 99 blocks and 16 inodes, all of them used. -/
def fullVolume : Fs where
  geo := {
    blocksCount := 100
    firstDataBlock := 1
    logBlockSize := 0
    blocksPerGroup := 8192
    inodesPerGroup := 16
    inodeSize := 128
    groupCount := 1
    bgBlockBitmap := fun _ => 3
    bgInodeBitmap := fun _ => 4
    bgInodeTable := fun _ => 5
    sectorCount := 200 }
  disk := fun _ => Buf.zero
  blocks := ⟨fun _ _ => 255, fun _ => 0, 0⟩
  inodes := ⟨fun _ _ => 255, fun _ => 0, 0⟩
  usedDirs := fun _ => 0

theorem bit_full (i : Nat) : Buf.bit (fun _ => 255) i = true := by
  have hlt : i % 8 < 8 := mod_lt i (by decide)
  change testBit (2 ^ 8 - 1) (i % 8) = true
  rw [testBit_two_pow_sub_one]
  simp [hlt]

theorem fullVolume_sized : fullVolume.Sized 16 :=
  ⟨⟨by decide, by decide, by decide, by decide⟩, ⟨by decide, by decide, by decide, by decide⟩⟩

theorem fullVolume_countsOk : fullVolume.CountsOk 16 := by
  have hclear (g bits : Nat) : BitPool.clear ⟨fun _ _ => 255, fun _ => 0, 0⟩ bits g = 0 := by
    apply Scan.count_none
    intro i _ _
    rw [BitPool.bit, bit_full, Bool.not_true]
  refine ⟨⟨fun g _ i _ _ => bit_full i, fun g _ => (hclear g _).symm, rfl⟩,
    ⟨fun g _ i _ _ => bit_full i, fun g _ => (hclear g _).symm, rfl⟩⟩

/-- After block 50 of the full volume has been freed, the counts match. -/
theorem freeCounts_fullVolume : ((BitmapCall.freeBlock 50).exec fullVolume).CountsOk 16 :=
  (freeCounts_of_safe_run fullVolume_sized fullVolume_countsOk
    (.single ⟨.freeBlock 50, ⟨show 50 < 2 ^ 32 by decide, .inl (by decide)⟩, rfl⟩)).1

/-- Block 100, the first one behind the volume, is freed: its bit is cleared. -/
theorem freeCounts_broken : fullVolume.Sized 16 ∧ fullVolume.CountsOk 16 ∧
    (BitmapCall.freeBlock 100).Typed ∧
    ¬ ((BitmapCall.freeBlock 100).exec fullVolume).CountsOk 16 := by
  refine ⟨fullVolume_sized, fullVolume_countsOk, show 100 < 2 ^ 32 by decide, fun h => ?_⟩
  have hsafe := (fullVolume_countsOk.step_iff fullVolume_sized _).2.mp h
  revert hsafe
  change ¬ (_ < _ ∨ _ ≤ _)
  decide

end Runs

end Osx64.Ext2
