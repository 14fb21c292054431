import Osx64.Lib.Bitmap
import Mathlib.Tactic.IntervalCases
import Mathlib.Tactic.Linarith

/-!
# A mounted ext2 volume

The state behind `ext2_fs_info_t` and the device below it.  What mounting reads
once and nothing changes afterwards is the `Geometry`; the block contents, the
cached bitmaps and the free counters are the mutable rest.

A block is a buffer of `blockSize` bytes.  `ext2_rw_block` computes the sector
with 32-bit arithmetic and the partition refuses requests beyond its last sector,
so a transfer names the block it really reaches, or fails.  Mutexes and `kfree`
leave no trace in the state, and `kmalloc` halts the machine rather than return
`NULL`, so neither they nor the branches for a missing buffer appear.
-/

namespace Osx64.Ext2

/-- The constants of a mounted volume: the fields of `struct ext2_super_block` and
of the group descriptors that are only read, and the size of the partition. -/
structure Geometry where
  /-- `s_blocks_count` -/
  blocksCount : Nat
  /-- `s_first_data_block` -/
  firstDataBlock : Nat
  /-- `s_log_block_size` -/
  logBlockSize : Nat
  /-- `s_blocks_per_group` -/
  blocksPerGroup : Nat
  /-- `s_inodes_per_group` -/
  inodesPerGroup : Nat
  /-- `s_inode_size` -/
  inodeSize : Nat
  /-- `group_count` -/
  groupCount : Nat
  bgBlockBitmap : Nat → Nat
  bgInodeBitmap : Nat → Nat
  bgInodeTable : Nat → Nat
  /-- `sector_count` of the partition -/
  sectorCount : Nat

namespace Geometry

/-- `info->block_size = 1024 << s_log_block_size` -/
def blockSize (geo : Geometry) : Nat := 1024 * 2 ^ geo.logBlockSize

/-- `block_size / sizeof(uint32_t)` -/
def perBlock (geo : Geometry) : Nat := geo.blockSize / 4

/-- `block_size / dev->block_size`, with sectors of 512 bytes -/
def sectorsPerBlock (geo : Geometry) : Nat := geo.blockSize / 512

/-- `delta = 2 << s_log_block_size`, the sectors `i_blocks` counts for one block -/
def delta (geo : Geometry) : Nat := 2 * 2 ^ geo.logBlockSize

/-- `first_desc_block` -/
def firstDescBlock (geo : Geometry) : Nat := if geo.blockSize = 1024 then 2 else 1

/-- `descs_per_block` -/
def descsPerBlock (geo : Geometry) : Nat := geo.blockSize / 32

/-- The sector `ext2_rw_block` asks for. -/
def lba (geo : Geometry) (block : Nat) : Nat := u32 (block * geo.sectorsPerBlock)

/-- The block that sector belongs to. -/
def target (geo : Geometry) (block : Nat) : Nat := geo.lba block / geo.sectorsPerBlock

/-- The range check of `partition_read` and `partition_write`. -/
def inPartition (geo : Geometry) (block : Nat) : Prop :=
  geo.lba block + geo.sectorsPerBlock ≤ geo.sectorCount
deriving Decidable

end Geometry

/-- The bitmaps of one kind (blocks or inodes) with their counters. -/
structure BitPool where
  /-- `block_bitmap` or `inode_bitmap` of each group -/
  bitmap : Nat → Buf
  /-- `bg_free_blocks_count` or `bg_free_inodes_count` of each group -/
  free : Nat → Nat
  /-- `s_free_blocks_count` or `s_free_inodes_count` -/
  total : Nat

/-- A mounted volume. -/
structure Fs where
  geo : Geometry
  disk : Nat → Buf
  blocks : BitPool
  inodes : BitPool
  /-- `bg_used_dirs_count` of each group -/
  usedDirs : Nat → Nat

/-- The result `-1` of the functions that return block or inode numbers. -/
def minusOne : Nat := 2 ^ 32 - 1

/-! ## Block transfers -/

namespace Fs

/-- `ext2_rw_block(sb, block, buf, true)`; `none` is `-1`. -/
def readBlock (fs : Fs) (block : Nat) : Option Buf :=
  if fs.geo.inPartition block then some (fs.disk (fs.geo.target block)) else none

/-- `ext2_rw_block(sb, block, buf, false)`; `none` is `-1`. -/
def writeBlock (fs : Fs) (block : Nat) (buf : Buf) : Option Fs :=
  if fs.geo.inPartition block then
    some { fs with disk := Function.update fs.disk (fs.geo.target block) buf }
  else none

/-- A call of `ext2_rw_block(sb, block, buf, false)` whose result is not looked at. -/
def putBlock (fs : Fs) (block : Nat) (buf : Buf) : Fs :=
  (fs.writeBlock block buf).getD fs

/-- `ext2_set_block_all_zero` -/
def setBlockAllZero (fs : Fs) (block : Nat) : Fs := fs.putBlock block Buf.zero

end Fs

namespace Fs

variable (fs : Fs) (b : Nat) (buf : Buf)

@[simp] theorem putBlock_geo : (fs.putBlock b buf).geo = fs.geo := by
  unfold putBlock writeBlock
  split <;> rfl

@[simp] theorem putBlock_blocks : (fs.putBlock b buf).blocks = fs.blocks := by
  unfold putBlock writeBlock
  split <;> rfl

@[simp] theorem putBlock_inodes : (fs.putBlock b buf).inodes = fs.inodes := by
  unfold putBlock writeBlock
  split <;> rfl

@[simp] theorem putBlock_usedDirs : (fs.putBlock b buf).usedDirs = fs.usedDirs := by
  unfold putBlock writeBlock
  split <;> rfl

end Fs

/-! ## Well-formed geometries -/

/-- The block that holds the descriptor of group `g`. -/
def Geometry.descBlock (geo : Geometry) (g : Nat) : Nat :=
  geo.firstDescBlock + g / geo.descsPerBlock

/-- The block that holds inode `k` of group `g`. -/
def Geometry.tableBlock (geo : Geometry) (g k : Nat) : Nat :=
  geo.bgInodeTable g + k / (geo.blockSize / geo.inodeSize)

/-- What a geometry must satisfy for the volume to make sense.  `reserved` is the
set of metadata blocks: it contains at least the blocks named here, and may hold
more, such as backups of the superblock. -/
structure Layout (geo : Geometry) (reserved : Nat → Prop) : Prop where
  logBlockSize_le : geo.logBlockSize ≤ 2
  inodeSize_ge : 128 ≤ geo.inodeSize
  inodeSize_le : geo.inodeSize ≤ geo.blockSize
  blocksPerGroup_pos : 0 < geo.blocksPerGroup
  blocksPerGroup_le : geo.blocksPerGroup ≤ geo.blockSize * 8
  inodesPerGroup_pos : 0 < geo.inodesPerGroup
  inodesPerGroup_le : geo.inodesPerGroup ≤ geo.blockSize * 8
  inodes_lt : geo.groupCount * geo.inodesPerGroup + 1 < 2 ^ 32
  covered : geo.blocksCount ≤ geo.firstDataBlock + geo.groupCount * geo.blocksPerGroup
  onDevice : geo.blocksCount * geo.sectorsPerBlock ≤ geo.sectorCount
  sectorCount_lt : geo.sectorCount < 2 ^ 32
  reserved_lt : ∀ b, reserved b → b < geo.blocksCount
  reserved_zero : reserved 0
  reserved_low : ∀ b, b < geo.firstDataBlock → reserved b
  reserved_desc : ∀ g < geo.groupCount, reserved (geo.descBlock g)
  reserved_blockBitmap : ∀ g < geo.groupCount, reserved (geo.bgBlockBitmap g)
  reserved_inodeBitmap : ∀ g < geo.groupCount, reserved (geo.bgInodeBitmap g)
  reserved_table : ∀ g < geo.groupCount, ∀ k < geo.inodesPerGroup, reserved (geo.tableBlock g k)
  blockBitmap_ne_desc : ∀ g < geo.groupCount, ∀ h < geo.groupCount,
    geo.bgBlockBitmap g ≠ geo.descBlock h
  inodeBitmap_ne_desc : ∀ g < geo.groupCount, ∀ h < geo.groupCount,
    geo.bgInodeBitmap g ≠ geo.descBlock h
  blockBitmap_ne_table : ∀ g < geo.groupCount, ∀ h < geo.groupCount,
    ∀ k < geo.inodesPerGroup, geo.bgBlockBitmap g ≠ geo.tableBlock h k
  inodeBitmap_ne_table : ∀ g < geo.groupCount, ∀ h < geo.groupCount,
    ∀ k < geo.inodesPerGroup, geo.bgInodeBitmap g ≠ geo.tableBlock h k
  table_ne_desc : ∀ g < geo.groupCount, ∀ k < geo.inodesPerGroup, ∀ h < geo.groupCount,
    geo.tableBlock g k ≠ geo.descBlock h
  table_disjoint : ∀ g < geo.groupCount, ∀ k < geo.inodesPerGroup,
    ∀ h < geo.groupCount, ∀ m < geo.inodesPerGroup, g ≠ h →
      geo.tableBlock g k ≠ geo.tableBlock h m

namespace Layout

variable {geo : Geometry} {reserved : Nat → Prop} {b : Nat}

section

variable (hgeo : Layout geo reserved)
include hgeo

theorem blockSize_cases : geo.blockSize = 1024 ∨ geo.blockSize = 2048 ∨ geo.blockSize = 4096 := by
  have hlog := hgeo.logBlockSize_le
  rw [Geometry.blockSize]
  interval_cases geo.logBlockSize <;> simp

theorem sectorsPerBlock_pos : 0 < geo.sectorsPerBlock := by
  rcases hgeo.blockSize_cases with h | h | h <;> simp [Geometry.sectorsPerBlock, h]

theorem blockSize_pos : 0 < geo.blockSize := by
  rcases hgeo.blockSize_cases with h | h | h <;> simp [h]

theorem blocksCount_lt : geo.blocksCount < 2 ^ 32 := by
  have hpos := hgeo.sectorsPerBlock_pos
  have hle := hgeo.onDevice
  have hlt := hgeo.sectorCount_lt
  nlinarith

section

variable (hb : b < geo.blocksCount)
include hb

/-- The 32-bit sector number of a block of the volume does not wrap. -/
theorem lba_eq : geo.lba b = b * geo.sectorsPerBlock := by
  refine u32_of_lt ?_
  have hle : b * geo.sectorsPerBlock ≤ geo.blocksCount * geo.sectorsPerBlock :=
    Nat.mul_le_mul_right _ hb.le
  exact lt_of_le_of_lt (hle.trans hgeo.onDevice) hgeo.sectorCount_lt

theorem target_eq : geo.target b = b := by
  rw [Geometry.target, hgeo.lba_eq hb, Nat.mul_div_cancel _ hgeo.sectorsPerBlock_pos]

theorem inPartition : geo.inPartition b := by
  rw [Geometry.inPartition, hgeo.lba_eq hb, ← Nat.succ_mul]
  exact (Nat.mul_le_mul_right _ hb).trans hgeo.onDevice

end

end

end Layout

/-! ## Transfers on the volume -/

namespace Fs

variable {fs : Fs} {reserved : Nat → Prop} {b : Nat}

section

variable (hgeo : Layout fs.geo reserved) (hb : b < fs.geo.blocksCount)
include hgeo hb

theorem readBlock_eq : fs.readBlock b = some (fs.disk b) := by
  rw [readBlock, if_pos (hgeo.inPartition hb), hgeo.target_eq hb]

theorem writeBlock_eq (buf : Buf) :
    fs.writeBlock b buf = some { fs with disk := Function.update fs.disk b buf } := by
  rw [writeBlock, if_pos (hgeo.inPartition hb), hgeo.target_eq hb]

theorem putBlock_eq (buf : Buf) :
    fs.putBlock b buf = { fs with disk := Function.update fs.disk b buf } := by
  rw [putBlock, writeBlock_eq hgeo hb, Option.getD_some]

end

end Fs

end Osx64.Ext2
