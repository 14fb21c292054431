import Osx64.Ext2.Alloc

/-!
# The inode table

An on-disk inode is the 128 bytes of `struct ext2_inode`, kept as a buffer, since
some code of the kernel reaches its fields with an index of the `i_block` array.
`ext2_read_inode` finds the table through the descriptor on disk and
`ext2_write_inode` through the cached one; on a mounted volume both reach the
same bytes, and different inodes occupy different bytes.
-/

namespace Osx64.Ext2

open Function Option Nat Ext2.Fs Buf

/-! ## The fields of an inode -/

/-- `sizeof(struct ext2_inode)` -/
def inodeBytes : Nat := 128

/-- `EXT2_NDIR_BLOCKS` -/
def ndirBlocks : Nat := 12

/-- `EXT2_IND_BLOCK` -/
def indBlock : Nat := 12

/-- `EXT2_DIND_BLOCK` -/
def dindBlock : Nat := 13

/-- `ei->i_mode` -/
def iMode (ei : Buf) : Nat := ei.get16 0

/-- `ei->i_size` -/
def iSize (ei : Buf) : Nat := ei.get32 4

/-- `ei->i_links_count` -/
def iLinksCount (ei : Buf) : Nat := ei.get16 26

/-- `ei->i_blocks` -/
def iBlocks (ei : Buf) : Nat := ei.get32 28

/-- `ei->i_block[k]` -/
def iBlock (ei : Buf) (k : Nat) : Nat := ei.get32 (40 + 4 * k)

/-- `ei->i_size = size` -/
def setISize (ei : Buf) (size : Nat) : Buf := ei.put32 4 size

/-- `ei->i_links_count = count` -/
def setILinksCount (ei : Buf) (count : Nat) : Buf := ei.put16 26 count

/-- `ei->i_blocks = count` -/
def setIBlocks (ei : Buf) (count : Nat) : Buf := ei.put32 28 (u32 count)

/-- `ei->i_block[k] = block` -/
def setIBlock (ei : Buf) (k block : Nat) : Buf := ei.put32 (40 + 4 * k) block

/-- `ei->i_ctime = ei->i_mtime = now` -/
def touch (ei : Buf) (now : Nat) : Buf := (ei.put32 12 now).put32 16 now

/-- `S_ISDIR(mode)` -/
def isDir (mode : Nat) : Bool := mode / 2 ^ 12 % 16 == 4

/-! ## Access -/

namespace Fs

/-- `group = (ino - 1) / s_inodes_per_group` -/
def inodeGroup (geo : Geometry) (ino : Nat) : Nat :=
  sub32 ino 1 / geo.inodesPerGroup

/-- `index = (ino - 1) % s_inodes_per_group` -/
def inodeIndex (geo : Geometry) (ino : Nat) : Nat :=
  sub32 ino 1 % geo.inodesPerGroup

/-- `inode_offset`, for inodes of `size` bytes -/
def inodeOffset (geo : Geometry) (size ino : Nat) : Nat :=
  inodeIndex geo ino % (geo.blockSize / size) * size

/-- `ext2_write_inode`; `none` is `-1`. -/
def writeInode (fs : Fs) (ino : Nat) (ei : Buf) : Option Fs :=
  let block := u32 (fs.geo.tableBlock (inodeGroup fs.geo ino) (inodeIndex fs.geo ino))
  (fs.readBlock block).bind fun buf =>
    fs.writeBlock block (buf.blit (inodeOffset fs.geo fs.geo.inodeSize ino) ei inodeBytes)

/-- `ext2_read_inode`; `none` is `-1`. -/
def readInode (fs : Fs) (ino : Nat) : Option Buf :=
  let group := inodeGroup fs.geo ino
  (fs.readBlock (u32 (fs.geo.descBlock group))).bind fun desc =>
    let table := desc.get32 (group % fs.geo.descsPerBlock * 32 + 8)
    let size := if fs.geo.inodeSize = 0 then 128 else fs.geo.inodeSize
    let block := u32 (table + inodeIndex fs.geo ino / (fs.geo.blockSize / size))
    (fs.readBlock block).map fun buf => (buf.drop (inodeOffset fs.geo size ino)).clip inodeBytes

end Fs

/-- The inode numbers of a volume. -/
def ValidIno (geo : Geometry) (ino : Nat) : Prop :=
  1 ≤ ino ∧ ino ≤ geo.groupCount * geo.inodesPerGroup
deriving Decidable

/-- From `fs` to `fs'` nothing has changed but the on-disk inode `ino`, which now is
`ei`. -/
structure InodeWritten (reserved : Nat → Prop) (fs : Fs) (ino : Nat) (ei : Buf) (fs' : Fs) :
    Prop where
  geo : fs'.geo = fs.geo
  blocks : fs'.blocks = fs.blocks
  inodes : fs'.inodes = fs.inodes
  usedDirs : fs'.usedDirs = fs.usedDirs
  disk : ∀ c, ¬ reserved c → fs'.disk c = fs.disk c
  self : fs'.readInode ino = some (ei.clip inodeBytes)
  other : ∀ j, ValidIno fs.geo j → j ≠ ino → fs'.readInode j = fs.readInode j
  mounted : Mounted reserved fs'

section Table

variable {reserved : Nat → Prop} {fs fs' : Fs} {ino j : Nat}

theorem inodeGroup_eq (hino : ValidIno fs.geo ino) :
    inodeGroup fs.geo ino = (ino - 1) / fs.geo.inodesPerGroup ∧
      inodeIndex fs.geo ino = (ino - 1) % fs.geo.inodesPerGroup := by
  obtain ⟨hpos, hle⟩ := hino
  have hrel : sub32 ino 1 = ino - 1 := sub32_of_le hpos
  simp only [inodeGroup, inodeIndex, hrel, and_self]

theorem inodeGroup_lt (hm : Mounted reserved fs) (hino : ValidIno fs.geo ino) :
    inodeGroup fs.geo ino < fs.geo.groupCount := by
  rw [(inodeGroup_eq hino).1, div_lt_iff_lt_mul hm.layout.inodesPerGroup_pos]
  obtain ⟨hpos, hle⟩ := hino
  omega

theorem inodeIndex_lt (hm : Mounted reserved fs) (ino : Nat) :
    inodeIndex fs.geo ino < fs.geo.inodesPerGroup :=
  mod_lt _ hm.layout.inodesPerGroup_pos

/-- Group and index determine the inode number. -/
theorem ino_eq_of_home (hino : ValidIno fs.geo ino)
    (hj : ValidIno fs.geo j) (hgroup : inodeGroup fs.geo ino = inodeGroup fs.geo j)
    (hindex : inodeIndex fs.geo ino = inodeIndex fs.geo j) : ino = j := by
  rw [(inodeGroup_eq hino).1, (inodeGroup_eq hj).1] at hgroup
  rw [(inodeGroup_eq hino).2, (inodeGroup_eq hj).2] at hindex
  have h1 := div_add_mod (ino - 1) fs.geo.inodesPerGroup
  have h2 := div_add_mod (j - 1) fs.geo.inodesPerGroup
  rw [hgroup, hindex, h2] at h1
  have := hino.1
  have := hj.1
  omega

/-- On a mounted volume `ext2_read_inode` reads the cached table. -/
theorem Fs.readInode_eq (hm : Mounted reserved fs) (hino : ValidIno fs.geo ino) :
    fs.readInode ino = some (((fs.disk (fs.geo.tableBlock (inodeGroup fs.geo ino)
      (inodeIndex fs.geo ino))).drop (inodeOffset fs.geo fs.geo.inodeSize ino)).clip
        inodeBytes) := by
  have hg := inodeGroup_lt hm hino
  have hcount := hm.layout.blocksCount_lt
  have hdesc := hm.layout.reserved_lt _ (hm.layout.reserved_desc _ hg)
  have htable := hm.layout.reserved_lt _ (hm.layout.reserved_table _ hg _ (inodeIndex_lt hm ino))
  have hsize : fs.geo.inodeSize ≠ 0 := by
    have := hm.layout.inodeSize_ge
    omega
  generalize hgroup : inodeGroup fs.geo ino = group at *
  have hread : fs.geo.bgInodeTable group +
      inodeIndex fs.geo ino / (fs.geo.blockSize / fs.geo.inodeSize) =
        fs.geo.tableBlock group (inodeIndex fs.geo ino) := rfl
  rw [readInode, hgroup, u32_of_lt (hdesc.trans hcount), readBlock_eq hm.layout hdesc,
    bind_some, hm.descs _ hg, if_neg hsize]
  dsimp only
  rw [hread, u32_of_lt (htable.trans hcount), readBlock_eq hm.layout htable, map_some]

/-- The inode table looks the same wherever the table blocks do. -/
theorem Fs.readInode_congr (hm : Mounted reserved fs) (hm' : Mounted reserved fs')
    (hgeo : fs'.geo = fs.geo) (hdisk : ∀ g < fs.geo.groupCount, ∀ k < fs.geo.inodesPerGroup,
      fs'.disk (fs.geo.tableBlock g k) = fs.disk (fs.geo.tableBlock g k))
    (hino : ValidIno fs.geo ino) : fs'.readInode ino = fs.readInode ino := by
  rw [readInode_eq hm hino, readInode_eq hm' (hgeo ▸ hino), hgeo,
    hdisk _ (inodeGroup_lt hm hino) _ (inodeIndex_lt hm _)]

/-- Two inodes of one table block do not overlap. -/
theorem inodeOffset_disjoint (hm : Mounted reserved fs) (hino : ValidIno fs.geo ino)
    (hj : ValidIno fs.geo j) (hne : j ≠ ino)
    (hblock : fs.geo.tableBlock (inodeGroup fs.geo j) (inodeIndex fs.geo j) =
      fs.geo.tableBlock (inodeGroup fs.geo ino) (inodeIndex fs.geo ino)) :
    inodeOffset fs.geo fs.geo.inodeSize j + inodeBytes ≤
        inodeOffset fs.geo fs.geo.inodeSize ino ∨
      inodeOffset fs.geo fs.geo.inodeSize ino + inodeBytes ≤
        inodeOffset fs.geo fs.geo.inodeSize j := by
  have hgroup : inodeGroup fs.geo j = inodeGroup fs.geo ino := by
    by_contra hgroup
    exact hm.layout.table_disjoint _ (inodeGroup_lt hm hj) _ (inodeIndex_lt hm j)
      _ (inodeGroup_lt hm hino) _ (inodeIndex_lt hm ino) hgroup hblock
  have hindex : inodeIndex fs.geo j ≠ inodeIndex fs.geo ino :=
    fun h => hne (ino_eq_of_home hj hino hgroup h)
  rw [Geometry.tableBlock, Geometry.tableBlock, hgroup, add_left_cancel_iff] at hblock
  have hslot : inodeIndex fs.geo j % (fs.geo.blockSize / fs.geo.inodeSize) ≠
      inodeIndex fs.geo ino % (fs.geo.blockSize / fs.geo.inodeSize) := by
    intro h
    have h1 := div_add_mod (inodeIndex fs.geo j) (fs.geo.blockSize / fs.geo.inodeSize)
    rw [hblock, h, div_add_mod] at h1
    exact hindex h1.symm
  have hsize := hm.layout.inodeSize_ge
  simp only [inodeOffset, inodeBytes]
  rcases lt_or_gt_of_ne hslot with h | h
  · left
    calc _ ≤ (_ + 1) * fs.geo.inodeSize := by rw [succ_mul]; omega
      _ ≤ _ := mul_le_mul_right _ h
  · right
    calc _ ≤ (_ + 1) * fs.geo.inodeSize := by rw [succ_mul]; omega
      _ ≤ _ := mul_le_mul_right _ h

theorem Fs.writeInode_spec (hm : Mounted reserved fs) (hino : ValidIno fs.geo ino) (ei : Buf) :
    ∃ fs', fs.writeInode ino ei = some fs' ∧ InodeWritten reserved fs ino ei fs' := by
  have hg := inodeGroup_lt hm hino
  have hk := inodeIndex_lt hm ino
  have htable := hm.layout.reserved_table _ hg _ hk
  have hlt := hm.layout.reserved_lt _ htable
  generalize hblock : fs.geo.tableBlock (inodeGroup fs.geo ino) (inodeIndex fs.geo ino) = block
    at htable hlt
  generalize hoff : inodeOffset fs.geo fs.geo.inodeSize ino = off
  let fs' : Fs :=
    { fs with disk := update fs.disk block ((fs.disk block).blit off ei inodeBytes) }
  have hmounted : Mounted reserved fs' := by
    refine { hm with descs := fun h hh => ?_ }
    have hne := hm.layout.table_ne_desc _ hg _ hk h hh
    rw [hblock] at hne
    rw [← hm.descs h hh]
    simp only [fs', update_of_ne hne.symm]
  refine ⟨fs', ?_, rfl, rfl, rfl, rfl, fun c hc => ?_, ?_, fun j hj hne => ?_, hmounted⟩
  · rw [writeInode, hblock, hoff, u32_of_lt (hlt.trans hm.layout.blocksCount_lt),
      readBlock_eq hm.layout hlt, bind_some, writeBlock_eq hm.layout hlt]
  · have hne : c ≠ block := fun heq => hc (heq ▸ htable)
    exact update_of_ne hne _ _
  · rw [readInode_eq hmounted hino]
    simp only [fs', hblock, hoff, update_self, some_inj]
    funext k
    simp only [clip, drop]
    split
    · next hk => rw [blit_of_mem (by omega) (by omega), Nat.add_sub_cancel_left]
    · rfl
  · rw [readInode_eq hmounted hj, readInode_eq hm hj, some_inj]
    by_cases heq : fs.geo.tableBlock (inodeGroup fs.geo j) (inodeIndex fs.geo j) = block
    · have hdisj := inodeOffset_disjoint hm hino hj hne (heq.trans hblock.symm)
      rw [hoff] at hdisj
      funext k
      simp only [fs', heq, clip, drop, update_self]
      split
      · next hk => rw [blit_of_not_mem (by omega)]
      · rfl
    · simp only [fs', update_of_ne heq]

end Table

end Osx64.Ext2
