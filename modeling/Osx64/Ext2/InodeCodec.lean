import Osx64.Ext2.Mount

/-!
# Writing and reading an inode

`ext2_write_inode` and `ext2_read_inode` find an inode by different ways: the writer takes the start
of the inode table from the cached descriptor and the size of an inode as the superblock has it, the
reader takes the start from the descriptor on the disk and replaces a size of zero by 128.  Whether
what one writes is what the other reads therefore depends on the volume that has been mounted.

The result is a condition on the layout for each inode: where its 128 bytes are, and what else is
there.
-/

namespace Osx64.Ext2

open Option Buf Nat

/-! ## The writer -/

/-- The inode numbers of a mounted volume; an inode number is a `uint32_t`. -/
def FsInfo.ValidIno (info : FsInfo) (ino : Nat) : Prop :=
  1 ≤ ino ∧ ino ≤ info.groupCount * sbInodesPerGroup info.es ∧ ino < 2 ^ 32
deriving Decidable

/-- The block to which `ext2_write_inode` writes an inode of group `gd`. -/
def writtenBlock (info : FsInfo) (gd : GroupCache) (ino : Nat) : Nat :=
  u32 (gd.bgInodeTable + indexInTable info.es ino / (info.blockSize / info.inodeSize))

/-- The offset to which it does. -/
def writtenOffset (info : FsInfo) (ino : Nat) : Nat :=
  indexInTable info.es ino % (info.blockSize / info.inodeSize) * info.inodeSize

/-- `ext2_write_inode` -/
def writeInodeOf (info : FsInfo) (dev : Device) (ino : Nat) (ei : Buf) :
    Except MountFault (Option Device) :=
  if sbInodesPerGroup info.es = 0 then .error .divide
  else (info.groupDescs[groupOfInode info.es ino]?).elim (.error .wild) fun gd =>
    if info.inodeSize = 0 then .error .divide
    else if info.blockSize / info.inodeSize = 0 then .error .divide
    else (dev.readBlock info.blockSize (writtenBlock info gd ino)).elim (.ok none) fun buf =>
      if info.blockSize < writtenOffset info ino + 128 then .error .wild
      else .ok (dev.writeBlock info.blockSize (writtenBlock info gd ino)
        (buf.blit (writtenOffset info ino) ei 128))

/-! ## The law -/

/-- Writer and reader find inode `ino` at the same place. -/
def SamePlace (info : FsInfo) (dev : Device) (ino : Nat) : Prop :=
  ∃ gd, info.groupDescs[groupOfInode info.es ino]? = some gd ∧
    writtenBlock info gd ino = tableBlock dev info.es ino ∧
    writtenOffset info ino = tableOffset info.es ino

/-- The block is one of the blocks of the inode table of its group. -/
def InTable (info : FsInfo) (dev : Device) (ino : Nat) : Prop :=
  let table := (descOf dev info.blockSize (groupOfInode info.es ino)).get32 8
  let perBlock := inodesPerBlock info.es
  table ≤ tableBlock dev info.es ino ∧
    tableBlock dev info.es ino < table + (sbInodesPerGroup info.es + perBlock - 1) / perBlock

/-- Writing `ei` as inode `ino`. -/
structure CodecLaw (info : FsInfo) (dev : Device) (ino : Nat) (ei : Buf) : Prop where
  writes : ∃ result, writeInodeOf info dev ino ei = .ok result
  reads : ∃ result, readInodeOf dev info.es ino = .ok result
  place : SamePlace info dev ino
  inTable : InTable info dev ino
  self : ∀ dev', writeInodeOf info dev ino ei = .ok (some dev') →
    readInodeOf dev' info.es ino = .ok (some (ei.clip 128))
  other : ∀ dev', writeInodeOf info dev ino ei = .ok (some dev') →
    ∀ j, info.ValidIno j → j ≠ ino → readInodeOf dev' info.es j = readInodeOf dev info.es j
  places : ∀ dev', writeInodeOf info dev ino ei = .ok (some dev') →
    ∀ j, info.ValidIno j → SamePlace info dev' j

/-- The inode table of a mounted volume works as a codec. -/
def InodeCodec (info : FsInfo) (dev : Device) : Prop :=
  ∀ ino, info.ValidIno ino → ∀ ei, CodecLaw info dev ino ei

/-! ## The condition -/

/-- Where the inode is on the partition. -/
def inodeAddr (dev : Device) (es : Buf) (ino : Nat) : Nat :=
  Device.addr (sbBlockSize es) (tableBlock dev es ino) + tableOffset es ino

/-- Where the start of the inode table of group `i` is stored. -/
def tableFieldAddr (bs i : Nat) : Nat := descAddr bs i + 8

/-- The block of the inode is on the partition. -/
def OnDisk (info : FsInfo) (dev : Device) (ino : Nat) : Prop :=
  dev.InRange info.blockSize (tableBlock dev info.es ino)
deriving Decidable

/-- What the layout has to be like around inode `ino`. -/
structure WellPlaced (info : FsInfo) (dev : Device) (ino : Nat) : Prop where
  inodeSize : sbInodeSize info.es ≠ 0
  noWrap : (descOf dev info.blockSize (groupOfInode info.es ino)).get32 8 +
    indexInTable info.es ino / inodesPerBlock info.es < 2 ^ 32
  fits : OnDisk info dev ino → tableOffset info.es ino + 128 ≤ info.blockSize
  tables : OnDisk info dev ino → ∀ j, info.ValidIno j →
    RangesApart (inodeAddr dev info.es ino) 128
      (tableFieldAddr info.blockSize (groupOfInode info.es j)) 4
  others : OnDisk info dev ino → ∀ j, info.ValidIno j → j ≠ ino → OnDisk info dev j →
    RangesApart (inodeAddr dev info.es ino) 128 (inodeAddr dev info.es j) 128

/-- The partition with the 128 bytes from `p` on replaced. -/
def patchInode (dev : Device) (p : Nat) (ei : Buf) : Device :=
  { dev with bytes := dev.bytes.blit p ei 128 }

/-! ## A mounted volume -/

/-- What a mount that found a root inode has established. -/
structure Serving (dev : Device) (info : FsInfo) : Prop extends MountedFrom dev info where
  inodesPerGroup : sbInodesPerGroup dev.super ≠ 0
  inodeFits : sbEffectiveInodeSize dev.super ≤ sbBlockSize dev.super

section Serving

variable {dev : Device} {info : FsInfo} {ino j : Nat} {ei : Buf}

theorem serving_of_mount (hmount : readRootInode dev false = .ok (some (info, ei))) :
    Serving dev info := by
  obtain ⟨hfrom, hread⟩ := readRootInode_some.1 hmount
  have hbs := le_sbBlockSize hfrom.log
  have hper : sbInodesPerGroup dev.super ≠ 0 := by
    intro hper
    simp [readInodeOf, hper] at hread
  refine ⟨hfrom, hper, (readInodeOf_root_ok hper hbs).1 ⟨_, hread⟩ ?_⟩
  by_contra hdesc
  rw [readInodeOf_no_desc hper (by omega) hdesc] at hread
  cases hread

theorem FsInfo.ValidIno.group_lt (hino : info.ValidIno ino) :
    groupOfInode info.es ino < info.groupCount := by
  obtain ⟨hone, hle, -⟩ := hino
  rw [groupOfInode, sub32_of_le hone]
  apply Nat.div_lt_of_lt_mul
  rw [mul_comm]
  omega

namespace Serving

section

variable (h : Serving dev info)
include h

theorem es : info.es = dev.super := by
  rw [h.info_eq]
  rfl

theorem blockSize : info.blockSize = sbBlockSize info.es := by
  rw [h.info_eq]
  rfl

theorem inodeSize : info.inodeSize = sbInodeSize info.es := by
  rw [h.info_eq]
  rfl

theorem cached {i : Nat} (hi : i < info.groupCount) :
    info.groupDescs[i]? = some (cacheOf dev info.blockSize i) := by
  have heq := h.info_eq
  subst heq
  exact List.getElem?_eq_some_iff.2 ⟨by simpa [fsInfoOf] using hi, by simp [fsInfoOf]⟩

theorem loads {i : Nat} (hi : i < info.groupCount) : Loads dev info.blockSize i := by
  have heq := h.info_eq
  subst heq
  exact (h.places i hi).1

theorem le_blockSize : 1024 ≤ info.blockSize := by
  rw [h.blockSize, h.es]
  exact le_sbBlockSize h.log

theorem inodesPerGroup_ne : sbInodesPerGroup info.es ≠ 0 := by
  rw [h.es]
  exact h.inodesPerGroup

theorem inodesPerBlock_ne : inodesPerBlock info.es ≠ 0 := by
  intro hzero
  have hlarge := inodesPerBlock_eq_zero.1 hzero
  have hfits := h.inodeFits
  rw [← h.es] at hfits
  omega

theorem inTable_iff :
    InTable info dev ino ↔
      (descOf dev info.blockSize (groupOfInode info.es ino)).get32 8 +
        indexInTable info.es ino / inodesPerBlock info.es < 2 ^ 32 := by
  have hper := h.inodesPerBlock_ne
  have hindex : indexInTable info.es ino < sbInodesPerGroup info.es :=
    mod_lt _ (pos_of_ne_zero h.inodesPerGroup_ne)
  have hlast : indexInTable info.es ino / inodesPerBlock info.es <
      (sbInodesPerGroup info.es + inodesPerBlock info.es - 1) / inodesPerBlock info.es := by
    calc indexInTable info.es ino / inodesPerBlock info.es
      _ < indexInTable info.es ino / inodesPerBlock info.es + 1 := lt_succ_self _
      _ = (indexInTable info.es ino + inodesPerBlock info.es) / inodesPerBlock info.es :=
        (add_div_right _ (pos_of_ne_zero hper)).symm
      _ ≤ _ := Nat.div_le_div_right (by omega)
  have hquot : indexInTable info.es ino / inodesPerBlock info.es < 2 ^ 32 := by
    refine (div_le_self _ _).trans_lt (hindex.trans ?_)
    exact get32_lt _ _
  rw [InTable, tableBlock, ← h.blockSize]
  constructor
  · intro ⟨hle, _⟩
    by_contra hwrap
    rw [u32] at hle
    omega
  · intro hwrap
    rw [u32_of_lt hwrap]
    exact ⟨le_add_right _ _, Nat.add_lt_add_left hlast _⟩

/-! ## What writer and reader do -/

section

variable (hino : info.ValidIno ino)
include hino

theorem samePlace_iff (hsize : sbInodeSize info.es ≠ 0) {d : Device} :
    SamePlace info d ino ↔ tableBlock d info.es ino = tableBlock dev info.es ino := by
  have heff : sbEffectiveInodeSize info.es = info.inodeSize := by
    rw [h.inodeSize, sbEffectiveInodeSize, if_neg hsize]
  have hblock : writtenBlock info (cacheOf dev info.blockSize (groupOfInode info.es ino)) ino =
      tableBlock dev info.es ino := by
    rw [writtenBlock, tableBlock, inodesPerBlock, heff, ← h.blockSize]
    rfl
  have hoff : writtenOffset info ino = tableOffset info.es ino := by
    rw [writtenOffset, tableOffset, inodesPerBlock, heff, ← h.blockSize]
  rw [SamePlace, h.cached hino.group_lt]
  simp only [Option.some.injEq, exists_eq_left', hblock, hoff, and_true]
  exact eq_comm

theorem write_eq (hsize : sbInodeSize info.es ≠ 0) :
    writeInodeOf info dev ino ei =
      if OnDisk info dev ino then
        if info.blockSize < tableOffset info.es ino + 128 then .error .wild
        else .ok (some (patchInode dev (inodeAddr dev info.es ino) ei))
      else .ok none := by
  obtain ⟨gd, hcached, hblock, hoff⟩ := (h.samePlace_iff hino hsize).2 rfl
  have hper : info.blockSize / info.inodeSize ≠ 0 := by
    have hne := h.inodesPerBlock_ne
    rwa [inodesPerBlock, sbEffectiveInodeSize, if_neg hsize, ← h.blockSize, ← h.inodeSize] at hne
  rw [writeInodeOf, if_neg h.inodesPerGroup_ne, hcached, elim_some,
    if_neg (by rwa [h.inodeSize]), if_neg hper, hblock, hoff]
  by_cases hin : OnDisk info dev ino
  · rw [if_pos hin, readBlock_of_inRange hin, elim_some]
    split
    · rfl
    · rw [writeBlock_of_inRange hin, blit_clip_drop (by omega), inodeAddr, ← h.blockSize]
      rfl
  · rw [if_neg hin, readBlock_of_not_inRange hin, elim_none]

theorem write_zero
    (hsize : sbInodeSize info.es = 0) : writeInodeOf info dev ino ei = .error .divide := by
  rw [writeInodeOf, if_neg h.inodesPerGroup_ne, h.cached hino.group_lt, elim_some,
    if_pos (by rwa [h.inodeSize])]

/-- The reader, on the mounted partition or after its contents have changed. -/
theorem read_eq {d : Device} (hcount : d.sectorCount = dev.sectorCount) :
    readInodeOf d info.es ino =
      if OnDisk info d ino then
        if info.blockSize < tableOffset info.es ino + 128 then .error .wild
        else .ok (some ((d.bytes.drop (inodeAddr d info.es ino)).clip 128))
      else .ok none := by
  have hbs := h.le_blockSize
  have hdesc : DescIn d (sbBlockSize info.es) (groupOfInode info.es ino) := by
    have hloads := (h.loads hino.group_lt).desc
    rw [DescIn, Device.InRange, ← hcount, h.blockSize] at hloads
    exact hloads
  rw [h.blockSize] at hbs
  rw [readInodeOf_desc h.inodesPerGroup_ne (by omega) hdesc, if_neg h.inodesPerBlock_ne]
  by_cases hin : OnDisk info d ino
  · have hin' := hin
    rw [OnDisk, h.blockSize] at hin'
    rw [if_pos hin, readBlock_of_inRange hin', elim_some, h.blockSize]
    split
    · rfl
    · rw [clip_drop_clip_drop (by omega), inodeAddr]
  · have hin' := hin
    rw [OnDisk, h.blockSize] at hin'
    rw [if_neg hin, readBlock_of_not_inRange hin', elim_none]

end

/-- Where a descriptor keeps the start of the inode table. -/
theorem get32_tableField (d : Device) (i : Nat) :
    (descOf d info.blockSize i).get32 8 = d.bytes.get32 (tableFieldAddr info.blockSize i) := by
  have hbs := h.le_blockSize
  exact descOf_get32 (by omega) (by decide)

/-- A table that begins elsewhere puts the inode elsewhere. -/
theorem tableBlock_eq_iff {d : Device} :
    tableBlock d info.es j = tableBlock dev info.es j ↔
      d.bytes.get32 (tableFieldAddr info.blockSize (groupOfInode info.es j)) =
        dev.bytes.get32 (tableFieldAddr info.blockSize (groupOfInode info.es j)) := by
  have hlt := get32_lt d.bytes (tableFieldAddr info.blockSize (groupOfInode info.es j))
  have hlt' := get32_lt dev.bytes (tableFieldAddr info.blockSize (groupOfInode info.es j))
  rw [tableBlock, tableBlock, ← h.blockSize, h.get32_tableField, h.get32_tableField]
  constructor
  · intro heq
    simp only [u32] at heq
    omega
  · intro heq
    rw [heq]

theorem write_some (hino : info.ValidIno ino) (hsize : sbInodeSize info.es ≠ 0) {dev' : Device}
    (hwrite : writeInodeOf info dev ino ei = .ok (some dev')) :
    OnDisk info dev ino ∧ tableOffset info.es ino + 128 ≤ info.blockSize ∧
      dev' = patchInode dev (inodeAddr dev info.es ino) ei := by
  rw [h.write_eq hino hsize] at hwrite
  by_cases hin : OnDisk info dev ino
  · rw [if_pos hin] at hwrite
    split at hwrite
    · cases hwrite
    · cases hwrite
      exact ⟨hin, by omega, rfl⟩
  · rw [if_neg hin] at hwrite
    cases hwrite

end

end Serving

/-! ## Bytes under a patch -/

theorem inodeAddr_congr {d : Device} {es : Buf} (hblock : tableBlock d es j = tableBlock dev es j) :
    inodeAddr d es j = inodeAddr dev es j := by
  rw [inodeAddr, hblock, inodeAddr]

section Patch

variable {p q len : Nat}

theorem patch_of_apart (hapart : RangesApart p 128 q len) {k : Nat} (hk : k < len) :
    (patchInode dev p ei).bytes (q + k) = dev.bytes (q + k) := by
  refine blit_of_not_mem ?_
  rw [RangesApart] at hapart
  omega

theorem patchInode_bytes : (patchInode dev p ei).bytes = dev.bytes.blit p ei 128 := rfl

/-- The bytes of the inode, each with one added. -/
def bumped (dev : Device) (p : Nat) : Buf := fun k => dev.bytes (p + k) + 1

/-- They change whatever shares a byte with the inode. -/
theorem apart_of_bumped (dev : Device) (hlen : 0 < len)
    (hkept : ∀ k < len, (patchInode dev p (bumped dev p)).bytes (q + k) = dev.bytes (q + k)) :
    RangesApart p 128 q len := by
  by_contra hmeet
  rw [RangesApart] at hmeet
  -- the larger of the two starts is in both
  obtain ⟨k, hk, hge, hlt⟩ : ∃ k, k < len ∧ p ≤ q + k ∧ q + k < p + 128 := by
    rcases le_total p q with hle | hle
    · exact ⟨0, hlen, by omega, by omega⟩
    · exact ⟨p - q, by omega, by omega, by omega⟩
  have heq := hkept k hk
  rw [patchInode_bytes, blit_of_mem hge hlt, bumped, Nat.add_sub_cancel' hge] at heq
  have hnat := congrArg UInt8.toNat heq
  rw [UInt8.toNat_add] at hnat
  have hone : (1 : UInt8).toNat = 1 := rfl
  omega

end Patch

/-! ## The two directions -/

theorem codecLaw_of_wellPlaced (h : Serving dev info) (hino : info.ValidIno ino)
    (hplaced : WellPlaced info dev ino) (ei : Buf) : CodecLaw info dev ino ei := by
  have hsize := hplaced.inodeSize
  have hblocks : ∀ dev', writeInodeOf info dev ino ei = .ok (some dev') →
      ∀ j, info.ValidIno j → tableBlock dev' info.es j = tableBlock dev info.es j := by
    intro dev' hwrite j hj
    obtain ⟨hin, -, rfl⟩ := h.write_some hino hsize hwrite
    rw [h.tableBlock_eq_iff]
    exact get32_congr fun k hk => patch_of_apart (hplaced.tables hin j hj) hk
  constructor
  case writes =>
    rw [h.write_eq hino hsize]
    split
    · next hin =>
      have hfits := hplaced.fits hin
      exact ⟨_, if_neg (by omega)⟩
    · exact ⟨_, rfl⟩
  case reads =>
    rw [h.read_eq hino rfl]
    split
    · next hin =>
      have hfits := hplaced.fits hin
      exact ⟨_, if_neg (by omega)⟩
    · exact ⟨_, rfl⟩
  case place => exact (h.samePlace_iff hino hsize).2 rfl
  case inTable => exact h.inTable_iff.2 hplaced.noWrap
  case places =>
    intro dev' hwrite j hj
    exact (h.samePlace_iff hj hsize).2 (hblocks dev' hwrite j hj)
  case self =>
    intro dev' hwrite
    have hblock := hblocks dev' hwrite ino hino
    obtain ⟨hin, hfits, rfl⟩ := h.write_some hino hsize hwrite
    have hin' : OnDisk info (patchInode dev (inodeAddr dev info.es ino) ei) ino := by
      rw [OnDisk, hblock]
      exact hin
    rw [h.read_eq hino (by rfl), if_pos hin', if_neg (by omega), inodeAddr_congr hblock,
      patchInode_bytes, clip_drop_blit]
  case other =>
    intro dev' hwrite j hj hne
    have hblock := hblocks dev' hwrite j hj
    obtain ⟨hin, hfits, rfl⟩ := h.write_some hino hsize hwrite
    have hiff : OnDisk info (patchInode dev (inodeAddr dev info.es ino) ei) j ↔
        OnDisk info dev j := by
      rw [OnDisk, hblock]
      rfl
    rw [h.read_eq hj (by rfl), h.read_eq hj rfl]
    by_cases hon : OnDisk info dev j
    · rw [if_pos (hiff.2 hon), if_pos hon]
      split
      · rfl
      · have hapart := hplaced.others hin j hj hne hon
        rw [inodeAddr_congr hblock]
        congr 2
        exact clip_drop_congr fun k hk => patch_of_apart hapart hk
    · rw [if_neg (mt hiff.1 hon), if_neg hon]

theorem wellPlaced_of_codec (h : Serving dev info) (hcodec : InodeCodec info dev)
    (hino : info.ValidIno ino) : WellPlaced info dev ino := by
  have hlaw := hcodec ino hino
  have hsize : sbInodeSize info.es ≠ 0 := by
    intro hsize
    obtain ⟨result, hwrite⟩ := (hlaw zero).writes
    rw [h.write_zero hino hsize] at hwrite
    cases hwrite
  have hfits : ∀ j, info.ValidIno j → OnDisk info dev j →
      tableOffset info.es j + 128 ≤ info.blockSize := by
    intro j hj hon
    by_contra hlong
    obtain ⟨result, hwrite⟩ := (hcodec j hj zero).writes
    rw [h.write_eq hj hsize, if_pos hon, if_pos (by omega)] at hwrite
    cases hwrite
  -- writing other bytes than there are shows up in everything that shares one of them
  have hwrite : OnDisk info dev ino → ∀ ei,
      writeInodeOf info dev ino ei =
        .ok (some (patchInode dev (inodeAddr dev info.es ino) ei)) := by
    intro hin ei
    have hlong := hfits ino hino hin
    rw [h.write_eq hino hsize, if_pos hin, if_neg (by omega)]
  have hblocks : OnDisk info dev ino → ∀ j, info.ValidIno j →
      tableBlock (patchInode dev (inodeAddr dev info.es ino)
        (bumped dev (inodeAddr dev info.es ino)))
        info.es j = tableBlock dev info.es j := by
    intro hin j hj
    exact (h.samePlace_iff hj hsize).1 ((hlaw _).places _ (hwrite hin _) j hj)
  refine ⟨hsize, h.inTable_iff.1 (hlaw zero).inTable, hfits ino hino, fun hin j hj => ?_,
    fun hin j hj hne hon => ?_⟩
  · refine apart_of_bumped dev (by decide) fun k hk => ?_
    exact eq_of_get32_eq (h.tableBlock_eq_iff.1 (hblocks hin j hj)) hk
  · refine apart_of_bumped dev (by decide) fun k hk => ?_
    have hlong := hfits j hj hon
    have hon' : OnDisk info (patchInode dev (inodeAddr dev info.es ino)
        (bumped dev (inodeAddr dev info.es ino))) j := by
      rw [OnDisk, hblocks hin j hj]
      exact hon
    have hread := (hlaw _).other _ (hwrite hin (bumped dev (inodeAddr dev info.es ino))) j hj hne
    rw [h.read_eq hj (by rfl), h.read_eq hj rfl, if_pos hon', if_pos hon, if_neg (by omega),
      if_neg (by omega), inodeAddr_congr (hblocks hin j hj)] at hread
    simp only [Except.ok.injEq, Option.some.injEq] at hread
    have hbyte := congrFun hread k
    simp only [clip, if_pos hk] at hbyte
    exact hbyte

end Serving

/-! ## A small volume -/

/-- Eight blocks with one group and two inodes: block 2 has the descriptor, block 3 and 4 the
bitmaps, block 5 the inode table. -/
def smallVolume (inodeSize : Nat) : Device where
  sectorCount := 16
  bytes := (((((((((zero.put32 (1024 + 4) 8).put32 (1024 + 20) 1).put32 (1024 + 32) 8192).put32
    (1024 + 40) 2).put16 (1024 + 56) 0xEF53).put16 (1024 + 88) inodeSize).put32 2048 3).put32
    2052 4).put32 2056 5)

/-- The volume as it is mounted. -/
def smallInfo (inodeSize : Nat) : FsInfo :=
  fsInfoOf (smallVolume inodeSize).super
    ((List.range (sbTotalGroups (smallVolume inodeSize).super)).map
      (cacheOf (smallVolume inodeSize) (sbBlockSize (smallVolume inodeSize).super)))

theorem mounts_small {inodeSize : Nat} (hsize : inodeSize = 0 ∨ inodeSize = 128) :
    ∃ ei, readRootInode (smallVolume inodeSize) false = .ok (some (smallInfo inodeSize, ei)) := by
  have htotal : sbTotalGroups (smallVolume inodeSize).super = 1 := by
    rcases hsize with rfl | rfl <;> decide
  have hfrom : MountedFrom (smallVolume inodeSize) (smallInfo inodeSize) := by
    refine ⟨?_, rfl, ?_, ?_, fun i hi => ?_⟩
    · rcases hsize with rfl | rfl <;> decide
    · rcases hsize with rfl | rfl <;> decide
    · rcases hsize with rfl | rfl <;> decide
    · obtain rfl : i = 0 := by omega
      rcases hsize with rfl | rfl <;> exact ⟨⟨by decide, by decide, by decide⟩, by decide⟩
  have hroot : ∃ ei, readInodeOf (smallVolume inodeSize) (smallVolume inodeSize).super 2 =
      .ok (some ei) := by
    rcases hsize with rfl | rfl
    · exact (readInodeOf_root_some (by decide) (by decide) (by decide)).2 ⟨by decide, by decide⟩
    · exact (readInodeOf_root_some (by decide) (by decide) (by decide)).2 ⟨by decide, by decide⟩
  obtain ⟨ei, hread⟩ := hroot
  exact ⟨ei, readRootInode_some.2 ⟨hfrom, hread⟩⟩

/-! ## The result -/

/-- On a volume that has been mounted, the inode table works as a codec exactly if every inode is
well placed. -/
theorem inodeCodec_iff {dev : Device} {info : FsInfo} {ei : Buf}
    (hmount : readRootInode dev false = .ok (some (info, ei))) :
    InodeCodec info dev ↔ ∀ ino, info.ValidIno ino → WellPlaced info dev ino := by
  have h := serving_of_mount hmount
  constructor
  · intro hcodec ino hino
    exact wellPlaced_of_codec h hcodec hino
  · intro hplaced ino hino ei
    exact codecLaw_of_wellPlaced h hino (hplaced ino hino) ei

/-- With an inode size of 128 the small volume is well laid out. -/
theorem inodeCodec_iff_small : ∃ ei,
    readRootInode (smallVolume 128) false = .ok (some (smallInfo 128, ei)) ∧
      InodeCodec (smallInfo 128) (smallVolume 128) := by
  obtain ⟨ei, hmount⟩ := mounts_small (Or.inr rfl : 128 = 0 ∨ 128 = 128)
  refine ⟨ei, hmount, (inodeCodec_iff hmount).2 fun ino hino => ?_⟩
  have hvalid : ∀ j, (smallInfo 128).ValidIno j → j = 1 ∨ j = 2 := by
    intro j hj
    have hcount : (smallInfo 128).groupCount * sbInodesPerGroup (smallInfo 128).es = 2 := by decide
    have hle := hj.2.1
    have hone := hj.1
    omega
  rcases hvalid ino hino with rfl | rfl
  · refine ⟨by decide, by decide, fun _ => by decide, fun _ j hj => ?_, fun _ j hj hne _ => ?_⟩
    · rcases hvalid j hj with rfl | rfl <;> decide
    · obtain rfl := (hvalid j hj).resolve_left hne
      decide
  · refine ⟨by decide, by decide, fun _ => by decide, fun _ j hj => ?_, fun _ j hj hne _ => ?_⟩
    · rcases hvalid j hj with rfl | rfl <;> decide
    · obtain rfl := (hvalid j hj).resolve_right hne
      decide

/-- With an inode size of zero, which the reader takes for 128, the writer divides by zero. -/
theorem not_inodeCodec_of_zero : ∃ ei,
    readRootInode (smallVolume 0) false = .ok (some (smallInfo 0, ei)) ∧
      writeInodeOf (smallInfo 0) (smallVolume 0) 2 zero = .error .divide ∧
      ¬InodeCodec (smallInfo 0) (smallVolume 0) := by
  obtain ⟨ei, hmount⟩ := mounts_small (Or.inl rfl : 0 = 0 ∨ 0 = 128)
  have hvalid : (smallInfo 0).ValidIno 2 := by decide
  have hwrite : writeInodeOf (smallInfo 0) (smallVolume 0) 2 zero = .error .divide :=
    (serving_of_mount hmount).write_zero hvalid (by decide)
  refine ⟨ei, hmount, hwrite, fun hcodec => ?_⟩
  obtain ⟨result, hok⟩ := (hcodec 2 hvalid zero).writes
  rw [hwrite] at hok
  cases hok

end Osx64.Ext2
