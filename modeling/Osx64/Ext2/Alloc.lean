import Osx64.Ext2.Volume
import Osx64.Lib.Scan

/-!
# Block and inode allocation

`ext2_alloc_block` and `ext2_alloc_inode` are the same search over the cached
bitmaps of the groups, and `ext2_free_block` and `ext2_free_inode` the same
update; they differ in how a group and an index make a number.  The search and
the update are written once, over a `BitPool`.

Bits beyond the end of a group are set on a consistent volume (`PaddedBlocks`,
`PaddedInodes`).  Under that hypothesis an allocated number belongs to the volume
and its bit was clear.
-/

namespace Osx64.Ext2

open Function Option Nat Ext2.Fs

/-! ## One pool -/

namespace BitPool

/-- Bit `i` of group `g`. -/
def bit (p : BitPool) (g i : Nat) : Bool := (p.bitmap g).bit i

/-- Set bit `i` of group `g`, and count it. -/
def take (p : BitPool) (g i : Nat) : BitPool where
  bitmap := update p.bitmap g ((p.bitmap g).setBit i)
  free := update p.free g (u16 (p.free g + (2 ^ 16 - 1)))
  total := sub32 p.total 1

/-- Clear bit `i` of group `g`, and count it. -/
def release (p : BitPool) (g i : Nat) : BitPool where
  bitmap := update p.bitmap g ((p.bitmap g).clearBit i)
  free := update p.free g (u16 (p.free g + 1))
  total := u32 (p.total + 1)

/-- The search of `ext2_alloc_block` and `ext2_alloc_inode`: the first clear bit of
the first group that has one, passing over groups whose counter is zero. -/
def find (p : BitPool) (groups bits : Nat) : Option (Nat × Nat) :=
  (List.range groups).findSome? fun g =>
    if p.free g = 0 then none
    else (Scan.first (fun i => !p.bit g i) 0 bits).map fun i => (g, i)

theorem find_eq_some {p : BitPool} {groups bits g i : Nat}
    (h : p.find groups bits = some (g, i)) : g < groups ∧ i < bits ∧ p.bit g i = false := by
  obtain ⟨g', hmem, hg'⟩ := List.exists_of_findSome?_eq_some h
  by_cases hfree : p.free g' = 0
  · simp [hfree] at hg'
  · rw [if_neg hfree, map_eq_some_iff] at hg'
    obtain ⟨i', hi', heq⟩ := hg'
    obtain ⟨rfl, rfl⟩ := Prod.mk.inj heq
    obtain ⟨_, hlt, hclear, _⟩ := Scan.first_eq_some.mp hi'
    exact ⟨List.mem_range.mp hmem, hlt, by simpa using hclear⟩

theorem bit_take (p : BitPool) (g i g' i' : Nat) :
    (p.take g i).bit g' i' = (decide (g' = g ∧ i' = i) || p.bit g' i') := by
  by_cases hg : g' = g
  · subst hg
    simp [bit, take, Buf.bit_setBit, Bool.beq_eq_decide_eq]
  · simp [bit, take, hg]

theorem bit_release (p : BitPool) (g i g' i' : Nat) :
    (p.release g i).bit g' i' = (!decide (g' = g ∧ i' = i) && p.bit g' i') := by
  by_cases hg : g' = g
  · subst hg
    simp [bit, release, Buf.bit_clearBit, bne, Bool.beq_eq_decide_eq]
  · simp [bit, release, hg]

/-- The bit of number `c`, where the groups hold `per` numbers each and start at
`first`; numbers below that count as used. -/
def marked (p : BitPool) (first per c : Nat) : Bool :=
  decide (c < first) || p.bit ((c - first) / per) ((c - first) % per)

private theorem number_eq_iff {first per c g i : Nat} (hi : i < per) (hc : first ≤ c) :
    (c - first) / per = g ∧ (c - first) % per = i ↔ c = g * per + i + first := by
  refine ⟨fun ⟨hg, hi'⟩ => ?_, fun h => ?_⟩
  · have hdiv := div_add_mod (c - first) per
    rw [hg, hi', mul_comm] at hdiv
    omega
  · have hsub : c - first = per * g + i := by rw [h, mul_comm g]; omega
    rw [hsub]
    exact ⟨by rw [mul_add_div (by omega), div_eq_of_lt hi, add_zero],
      by rw [mul_add_mod, mod_eq_of_lt hi]⟩

variable (p : BitPool) {first per g i : Nat}

/-- Bit `i` of group `g` is the bit of one number. -/
theorem marked_number (hi : i < per) : p.marked first per (g * per + i + first) = p.bit g i := by
  obtain ⟨h1, h2⟩ := (number_eq_iff hi (le_add_left first (g * per + i))).mpr rfl
  rw [marked, h1, h2]
  simp

theorem marked_take (hi : i < per) (c : Nat) :
    (p.take g i).marked first per c =
      (decide (c = g * per + i + first) || p.marked first per c) := by
  rcases lt_or_ge c first with hc | hc
  · simp [marked, hc]
  · simp only [marked, bit_take, number_eq_iff hi hc, not_lt.mpr hc]
    simp

theorem marked_release (hi : i < per) (c : Nat) :
    (p.release g i).marked first per c =
      (!decide (c = g * per + i + first) && p.marked first per c) := by
  rcases lt_or_ge c first with hc | hc
  · have hne : c ≠ g * per + i + first := by omega
    simp [marked, hc, hne]
  · simp only [marked, bit_release, number_eq_iff hi hc, not_lt.mpr hc]
    simp

end BitPool

/-! ## Blocks -/

namespace Fs

/-- The state after bit `i` of group `g` of the block bitmap has been set. -/
def takeBlock (fs : Fs) (g i : Nat) : Fs :=
  let blocks := fs.blocks.take g i
  { fs with blocks }.putBlock (fs.geo.bgBlockBitmap g) (blocks.bitmap g)

/-- `ext2_alloc_block`; `none` is `-1`. -/
def allocBlock (fs : Fs) : Option (Nat × Fs) :=
  (fs.blocks.find fs.geo.groupCount (fs.geo.blockSize * 8)).map fun (g, i) =>
    (u32 (g * fs.geo.blocksPerGroup + i + fs.geo.firstDataBlock), fs.takeBlock g i)

/-- `ext2_free_block` -/
def freeBlock (fs : Fs) (block : Nat) : Fs :=
  let group := sub32 block fs.geo.firstDataBlock / fs.geo.blocksPerGroup
  let index := sub32 block fs.geo.firstDataBlock - group * fs.geo.blocksPerGroup
  if group ≥ fs.geo.groupCount ∨ index ≥ fs.geo.blocksPerGroup then fs
  else if fs.blocks.bit group index then
    let blocks := fs.blocks.release group index
    { fs with blocks }.putBlock (fs.geo.bgBlockBitmap group) (blocks.bitmap group)
  else fs

/-! ## Inodes -/

/-- `ext2_alloc_inode`; `none` is `-1`. -/
def allocInode (fs : Fs) : Option (Nat × Fs) :=
  (fs.inodes.find fs.geo.groupCount (fs.geo.blockSize * 8)).map fun (g, i) =>
    let inodes := fs.inodes.take g i
    (u32 (g * fs.geo.inodesPerGroup + i + 1),
      { fs with inodes }.putBlock (fs.geo.bgInodeBitmap g) (inodes.bitmap g))

/-- `ext2_free_inode` -/
def freeInode (fs : Fs) (ino : Nat) : Fs :=
  let group := sub32 ino 1 / fs.geo.inodesPerGroup
  let index := sub32 ino 1 % fs.geo.inodesPerGroup
  if group ≥ fs.geo.groupCount then fs
  else if fs.inodes.bit group index then
    let inodes := fs.inodes.release group index
    { fs with inodes }.putBlock (fs.geo.bgInodeBitmap group) (inodes.bitmap group)
  else fs

/-! ## Mounted volumes -/

/-- Block `b` is marked in the bitmap of its group. -/
def blockUsed (fs : Fs) (b : Nat) : Bool :=
  fs.blocks.marked fs.geo.firstDataBlock fs.geo.blocksPerGroup b

/-- Inode number `ino` is marked in the bitmap of its group. -/
def inodeUsed (fs : Fs) (ino : Nat) : Bool :=
  fs.inodes.marked 1 fs.geo.inodesPerGroup ino

end Fs

/-- A mounted volume whose metadata is in order: padding and metadata are marked
used, and the descriptors on disk name the inode tables the cache names. -/
structure Mounted (reserved : Nat → Prop) (fs : Fs) : Prop where
  layout : Layout fs.geo reserved
  paddedBlocks : ∀ g < fs.geo.groupCount, ∀ i < fs.geo.blockSize * 8,
    fs.geo.blocksPerGroup ≤ i ∨
      fs.geo.blocksCount ≤ g * fs.geo.blocksPerGroup + i + fs.geo.firstDataBlock →
    fs.blocks.bit g i = true
  paddedInodes : ∀ g < fs.geo.groupCount, ∀ i < fs.geo.blockSize * 8,
    fs.geo.inodesPerGroup ≤ i → fs.inodes.bit g i = true
  reserved_used : ∀ b, reserved b → fs.blockUsed b = true
  descs : ∀ g < fs.geo.groupCount,
    Buf.get32 (fs.disk (fs.geo.descBlock g)) (g % fs.geo.descsPerBlock * 32 + 8) =
      fs.geo.bgInodeTable g

/-- From `fs` to `fs'` nothing has changed but the block bitmap: its cached copy,
its counters, and the bitmap blocks on disk. -/
structure OnlyBlockBitmap (fs fs' : Fs) : Prop where
  geo : fs'.geo = fs.geo
  inodes : fs'.inodes = fs.inodes
  usedDirs : fs'.usedDirs = fs.usedDirs
  disk : ∀ c, (∀ g < fs.geo.groupCount, c ≠ fs.geo.bgBlockBitmap g) → fs'.disk c = fs.disk c

/-- From `fs` to `fs'` nothing has changed but the inode bitmap. -/
structure OnlyInodeBitmap (fs fs' : Fs) : Prop where
  geo : fs'.geo = fs.geo
  blocks : fs'.blocks = fs.blocks
  usedDirs : fs'.usedDirs = fs.usedDirs
  disk : ∀ c, (∀ g < fs.geo.groupCount, c ≠ fs.geo.bgInodeBitmap g) → fs'.disk c = fs.disk c

/-- What `ext2_alloc_block` has done when it returns `b`. -/
structure Allocated (reserved : Nat → Prop) (fs : Fs) (b : Nat) (fs' : Fs) : Prop where
  lt : b < fs.geo.blocksCount
  notReserved : ¬ reserved b
  fresh : fs.blockUsed b = false
  used : ∀ c, fs'.blockUsed c = (decide (c = b) || fs.blockUsed c)
  frame : OnlyBlockBitmap fs fs'
  mounted : Mounted reserved fs'

/-- What `ext2_free_block(b)` does. -/
structure Released (reserved : Nat → Prop) (fs : Fs) (b : Nat) (fs' : Fs) : Prop where
  used : ∀ c, fs'.blockUsed c = (!decide (c = b) && fs.blockUsed c)
  frame : OnlyBlockBitmap fs fs'
  mounted : Mounted reserved fs'

section Blocks

variable {reserved : Nat → Prop} {fs fs' : Fs} {b g i : Nat}

@[simp] theorem Fs.blockUsed_putBlock (c : Nat) (buf : Buf) :
    (fs.putBlock c buf).blockUsed b = fs.blockUsed b := by
  simp [blockUsed]

section

variable (hm : Mounted reserved fs)
include hm

/-- Exchanging the block bitmap keeps a volume mounted, as long as padding and
metadata stay marked. -/
theorem Mounted.withBlocks (hg : g < fs.geo.groupCount)
    (blocks : BitPool) (buf : Buf) (hpad : ∀ g < fs.geo.groupCount, ∀ i < fs.geo.blockSize * 8,
      fs.geo.blocksPerGroup ≤ i ∨
        fs.geo.blocksCount ≤ g * fs.geo.blocksPerGroup + i + fs.geo.firstDataBlock →
      blocks.bit g i = true)
    (hres : ∀ b, reserved b → { fs with blocks }.blockUsed b = true) :
    OnlyBlockBitmap fs ({ fs with blocks }.putBlock (fs.geo.bgBlockBitmap g) buf) ∧
      Mounted reserved ({ fs with blocks }.putBlock (fs.geo.bgBlockBitmap g) buf) := by
  have hlt := hm.layout.reserved_lt _ (hm.layout.reserved_blockBitmap g hg)
  rw [@putBlock_eq { fs with blocks } _ _ hm.layout hlt]
  refine ⟨⟨rfl, rfl, rfl, fun c hc => ?_⟩, ⟨hm.layout, hpad, hm.paddedInodes, hres, ?_⟩⟩
  · exact update_of_ne (hc g hg) _ _
  · intro h hh
    have hne := hm.layout.blockBitmap_ne_desc g hg h hh
    rw [← hm.descs h hh]
    simp only [update_of_ne hne.symm]

theorem Fs.allocBlock_spec (h : fs.allocBlock = some (b, fs')) :
    Allocated reserved fs b fs' := by
  obtain ⟨⟨g, i⟩, hfind, heq⟩ := map_eq_some_iff.mp h
  obtain ⟨hg, hi, hclear⟩ := BitPool.find_eq_some hfind
  have hin : ¬ (fs.geo.blocksPerGroup ≤ i ∨
      fs.geo.blocksCount ≤ g * fs.geo.blocksPerGroup + i + fs.geo.firstDataBlock) := by
    intro hpad
    rw [hm.paddedBlocks g hg i hi hpad] at hclear
    cases hclear
  obtain ⟨hper, hcount⟩ := not_or.mp hin
  rw [not_le] at hper hcount
  obtain ⟨hb, rfl⟩ := Prod.mk.inj heq
  rw [u32_of_lt (hcount.trans hm.layout.blocksCount_lt)] at hb
  have hused : ∀ c, { fs with blocks := fs.blocks.take g i }.blockUsed c =
      (decide (c = b) || fs.blockUsed c) := hb ▸ fs.blocks.marked_take hper
  have hfresh : fs.blockUsed b = false := by
    rw [blockUsed, ← hb, BitPool.marked_number _ hper, hclear]
  obtain ⟨hframe, hmounted⟩ := hm.withBlocks hg (fs.blocks.take g i)
    ((fs.blocks.take g i).bitmap g)
    (fun g' hg' i' hi' hpad => by
      rw [BitPool.bit_take, hm.paddedBlocks g' hg' i' hi' hpad, Bool.or_true])
    (fun c hc => by rw [hused, hm.reserved_used c hc, Bool.or_true])
  refine ⟨hb ▸ hcount, fun hres => ?_, hfresh, fun c => ?_, hframe, hmounted⟩
  · rw [hm.reserved_used _ hres] at hfresh
    cases hfresh
  · rw [← hused c, takeBlock, blockUsed_putBlock]

theorem Fs.freeBlock_spec (hlt : b < fs.geo.blocksCount)
    (hres : ¬ reserved b) : Released reserved fs b (fs.freeBlock b) := by
  have hlow : fs.geo.firstDataBlock ≤ b :=
    not_lt.mp fun hlt => hres (hm.layout.reserved_low b hlt)
  have hrel : sub32 b fs.geo.firstDataBlock = b - fs.geo.firstDataBlock := sub32_of_le hlow
  have hi := mod_lt (b - fs.geo.firstDataBlock) hm.layout.blocksPerGroup_pos
  have hdiv := div_add_mod (b - fs.geo.firstDataBlock) fs.geo.blocksPerGroup
  have hgroup : (b - fs.geo.firstDataBlock) / fs.geo.blocksPerGroup < fs.geo.groupCount := by
    rw [div_lt_iff_lt_mul hm.layout.blocksPerGroup_pos]
    have := hm.layout.covered
    omega
  have hindex : b - fs.geo.firstDataBlock -
      (b - fs.geo.firstDataBlock) / fs.geo.blocksPerGroup * fs.geo.blocksPerGroup =
        (b - fs.geo.firstDataBlock) % fs.geo.blocksPerGroup := by
    rw [mul_comm]
    omega
  simp only [freeBlock, hrel, hindex]
  rw [if_neg (by omega)]
  generalize hg : (b - fs.geo.firstDataBlock) / fs.geo.blocksPerGroup = g at *
  generalize hii : (b - fs.geo.firstDataBlock) % fs.geo.blocksPerGroup = i at *
  have hb : g * fs.geo.blocksPerGroup + i + fs.geo.firstDataBlock = b := by
    rw [mul_comm]
    omega
  have hused : ∀ c, { fs with blocks := fs.blocks.release g i }.blockUsed c =
      (!decide (c = b) && fs.blockUsed c) := hb ▸ fs.blocks.marked_release hi
  split
  · obtain ⟨hframe, hmounted⟩ := hm.withBlocks hgroup (fs.blocks.release g i)
      ((fs.blocks.release g i).bitmap g)
      (fun g' hg' i' hi' hpad => by
        have hne : ¬ (g' = g ∧ i' = i) := by
          intro ⟨h1, h2⟩
          subst h1 h2
          omega
        rw [BitPool.bit_release, hm.paddedBlocks g' hg' i' hi' hpad]
        simp [hne])
      (fun c hc => by
        have hne : c ≠ b := fun heq => hres (heq ▸ hc)
        rw [hused, hm.reserved_used c hc]
        simp [hne])
    exact ⟨fun c => by rw [← hused c, blockUsed_putBlock], hframe, hmounted⟩
  · next hclear =>
    refine ⟨fun c => ?_, ⟨rfl, rfl, rfl, fun c _ => rfl⟩, hm⟩
    by_cases hc : c = b
    · have : fs.blockUsed b = fs.blocks.bit g i := by
        rw [blockUsed, ← hb, BitPool.marked_number _ hi]
      simp [hc, this, hclear]
    · simp [hc]

end

end Blocks

/-! ## Inode numbers -/

/-- What `ext2_alloc_inode` has done when it returns `ino`. -/
structure InodeAllocated (reserved : Nat → Prop) (fs : Fs) (ino : Nat) (fs' : Fs) : Prop where
  pos : 1 ≤ ino
  le : ino ≤ fs.geo.groupCount * fs.geo.inodesPerGroup
  fresh : fs.inodeUsed ino = false
  used : ∀ c, fs'.inodeUsed c = (decide (c = ino) || fs.inodeUsed c)
  frame : OnlyInodeBitmap fs fs'
  mounted : Mounted reserved fs'

/-- What `ext2_free_inode(ino)` does. -/
structure InodeReleased (reserved : Nat → Prop) (fs : Fs) (ino : Nat) (fs' : Fs) : Prop where
  used : ∀ c, fs'.inodeUsed c = (!decide (c = ino) && fs.inodeUsed c)
  frame : OnlyInodeBitmap fs fs'
  mounted : Mounted reserved fs'

section Inodes

variable {reserved : Nat → Prop} {fs fs' : Fs} {ino g i : Nat}

@[simp] theorem Fs.inodeUsed_putBlock (c : Nat) (buf : Buf) :
    (fs.putBlock c buf).inodeUsed ino = fs.inodeUsed ino := by
  simp [inodeUsed]

section

variable (hm : Mounted reserved fs)
include hm

theorem Mounted.withInodes (hg : g < fs.geo.groupCount)
    (inodes : BitPool) (buf : Buf) (hpad : ∀ g < fs.geo.groupCount, ∀ i < fs.geo.blockSize * 8,
      fs.geo.inodesPerGroup ≤ i → inodes.bit g i = true) :
    OnlyInodeBitmap fs ({ fs with inodes }.putBlock (fs.geo.bgInodeBitmap g) buf) ∧
      Mounted reserved ({ fs with inodes }.putBlock (fs.geo.bgInodeBitmap g) buf) := by
  have hlt := hm.layout.reserved_lt _ (hm.layout.reserved_inodeBitmap g hg)
  rw [@putBlock_eq { fs with inodes } _ _ hm.layout hlt]
  refine ⟨⟨rfl, rfl, rfl, fun c hc => ?_⟩,
    ⟨hm.layout, hm.paddedBlocks, hpad, hm.reserved_used, ?_⟩⟩
  · exact update_of_ne (hc g hg) _ _
  · intro h hh
    have hne := hm.layout.inodeBitmap_ne_desc g hg h hh
    rw [← hm.descs h hh]
    simp only [update_of_ne hne.symm]

theorem Fs.allocInode_spec (h : fs.allocInode = some (ino, fs')) :
    InodeAllocated reserved fs ino fs' := by
  obtain ⟨⟨g, i⟩, hfind, heq⟩ := map_eq_some_iff.mp h
  obtain ⟨hg, hi, hclear⟩ := BitPool.find_eq_some hfind
  have hper : i < fs.geo.inodesPerGroup := by
    refine Nat.lt_of_not_le fun hpad => ?_
    rw [hm.paddedInodes g hg i hi hpad] at hclear
    cases hclear
  have hmul : g * fs.geo.inodesPerGroup + fs.geo.inodesPerGroup ≤
      fs.geo.groupCount * fs.geo.inodesPerGroup := by
    rw [← succ_mul]
    exact mul_le_mul_right _ hg
  have hcount := hm.layout.inodes_lt
  obtain ⟨hino, rfl⟩ := Prod.mk.inj heq
  rw [u32_of_lt (by omega)] at hino
  have hused : ∀ c, { fs with inodes := fs.inodes.take g i }.inodeUsed c =
      (decide (c = ino) || fs.inodeUsed c) := hino ▸ fs.inodes.marked_take hper
  have hfresh : fs.inodeUsed ino = false := by
    rw [inodeUsed, ← hino, BitPool.marked_number _ hper, hclear]
  obtain ⟨hframe, hmounted⟩ := hm.withInodes hg (fs.inodes.take g i)
    ((fs.inodes.take g i).bitmap g)
    (fun g' hg' i' hi' hpad => by
      rw [BitPool.bit_take, hm.paddedInodes g' hg' i' hi' hpad, Bool.or_true])
  refine ⟨by omega, by omega, hfresh, fun c => ?_, hframe, hmounted⟩
  rw [← hused c]
  simp only [inodeUsed_putBlock]

theorem Fs.freeInode_spec (hpos : 1 ≤ ino)
    (hle : ino ≤ fs.geo.groupCount * fs.geo.inodesPerGroup) :
    InodeReleased reserved fs ino (fs.freeInode ino) := by
  have hrel : sub32 ino 1 = ino - 1 := sub32_of_le hpos
  have hi := mod_lt (ino - 1) hm.layout.inodesPerGroup_pos
  have hdiv := div_add_mod (ino - 1) fs.geo.inodesPerGroup
  have hgroup : (ino - 1) / fs.geo.inodesPerGroup < fs.geo.groupCount := by
    rw [div_lt_iff_lt_mul hm.layout.inodesPerGroup_pos]
    omega
  simp only [freeInode, hrel]
  rw [if_neg (by omega)]
  generalize hg : (ino - 1) / fs.geo.inodesPerGroup = g at *
  generalize hii : (ino - 1) % fs.geo.inodesPerGroup = i at *
  have hb : g * fs.geo.inodesPerGroup + i + 1 = ino := by
    rw [mul_comm]
    omega
  have hused : ∀ c, { fs with inodes := fs.inodes.release g i }.inodeUsed c =
      (!decide (c = ino) && fs.inodeUsed c) := hb ▸ fs.inodes.marked_release hi
  split
  · obtain ⟨hframe, hmounted⟩ := hm.withInodes hgroup (fs.inodes.release g i)
      ((fs.inodes.release g i).bitmap g)
      (fun g' hg' i' hi' hpad => by
        have hne : ¬ (g' = g ∧ i' = i) := fun h => by omega
        rw [BitPool.bit_release, hm.paddedInodes g' hg' i' hi' hpad]
        simp [hne])
    exact ⟨fun c => by rw [← hused c, inodeUsed_putBlock], hframe, hmounted⟩
  · next hclear =>
    refine ⟨fun c => ?_, ⟨rfl, rfl, rfl, fun c _ => rfl⟩, hm⟩
    by_cases hc : c = ino
    · have : fs.inodeUsed ino = fs.inodes.bit g i := by
        rw [inodeUsed, ← hb, BitPool.marked_number _ hi]
      simp [hc, this, hclear]
    · simp [hc]

end

end Inodes

end Osx64.Ext2
