import Mathlib.Tactic.Linarith
import Mathlib.Tactic.IntervalCases
import Osx64.Mm.Page

/-!
# Mounting

`ext2_read_root_inode` on a partition with arbitrary contents: the superblock, the descriptors and
bitmaps of all groups, and the root inode.  Of the superblock only the magic is checked.  The other
fields are used as they come: as a shift count, as divisors, to compute the size of an allocation.

The model works on the bytes of the partition, since the block size is itself one of the fields.
What can go wrong is an error of its own, apart from the `NULL` the function returns when a block
cannot be read.
-/

namespace Osx64.Ext2

open Nat List Except Option

/-- A partition: its length in sectors of 512 bytes, and its bytes. -/
structure Device where
  sectorCount : Nat
  bytes : Buf

/-- What must not happen on the way. -/
inductive MountFault
  | divide
  | shift
  /-- an access outside the object a pointer points to -/
  | wild
  deriving DecidableEq

/-- Two ranges of bytes are disjoint. -/
def RangesApart (p len q len' : Nat) : Prop := p + len ≤ q ∨ q + len' ≤ p
deriving Decidable

namespace Device

/-- The sector `ext2_rw_block` computes for a block, in 32 bits -/
def lba (bs block : Nat) : Nat := u32 (block * (bs / 512))

/-- The range check of `partition_read` and `partition_write` -/
def InRange (dev : Device) (bs block : Nat) : Prop := lba bs block + bs / 512 ≤ dev.sectorCount
deriving Decidable

/-- Where the block is on the partition. -/
def addr (bs block : Nat) : Nat := 512 * lba bs block

/-- `ext2_rw_block(sb, block, buf, true)`; `none` is `-1` -/
def readBlock (dev : Device) (bs block : Nat) : Option Buf :=
  if dev.InRange bs block then some ((dev.bytes.drop (addr bs block)).clip bs) else none

/-- `ext2_rw_block(sb, block, buf, false)`; `none` is `-1` -/
def writeBlock (dev : Device) (bs block : Nat) (buf : Buf) : Option Device :=
  if dev.InRange bs block then
    some { dev with bytes := dev.bytes.blit (addr bs block) buf bs }
  else none

end Device

/-! ## The superblock -/

def sbBlocksCount (es : Buf) : Nat := es.get32 4
def sbFirstDataBlock (es : Buf) : Nat := es.get32 20
def sbLogBlockSize (es : Buf) : Nat := es.get32 24
def sbBlocksPerGroup (es : Buf) : Nat := es.get32 32
def sbInodesPerGroup (es : Buf) : Nat := es.get32 40
def sbMagic (es : Buf) : Nat := es.get16 56
def sbInodeSize (es : Buf) : Nat := es.get16 88

/-- `1024 << s_log_block_size` as a `uint32_t`, for a shift count below 32 -/
def sbBlockSize (es : Buf) : Nat := u32 (1024 * 2 ^ sbLogBlockSize es)

/-- `es->s_inode_size ? es->s_inode_size : 128` -/
def sbEffectiveInodeSize (es : Buf) : Nat := if sbInodeSize es = 0 then 128 else sbInodeSize es

/-- `total_groups` -/
def sbTotalGroups (es : Buf) : Nat :=
  u32 (sbBlocksCount es + sbBlocksPerGroup es - 1) / sbBlocksPerGroup es

/-- The groups the superblock describes: the blocks from the first data block on, in groups of
`s_blocks_per_group`. -/
def sbGroups (es : Buf) : Nat :=
  (sbBlocksCount es - sbFirstDataBlock es + sbBlocksPerGroup es - 1) / sbBlocksPerGroup es

/-- The superblock of a partition. -/
def Device.super (dev : Device) : Buf := (dev.bytes.drop 1024).clip 1024

/-! ## The groups -/

/-- An entry of `group_descs` -/
structure GroupCache where
  bgBlockBitmap : Nat
  bgInodeBitmap : Nat
  bgInodeTable : Nat
  bgFreeBlocksCount : Nat
  bgFreeInodesCount : Nat
  bgUsedDirsCount : Nat
  blockBitmap : Buf
  inodeBitmap : Buf

/-- `sizeof(ext2_group_desc_cache_t)` -/
def groupCacheBytes : Nat := 104

/-- `kmalloc(total_groups * sizeof(ext2_group_desc_cache_t))`, with a product of 64 bits -/
def groupDescsRoom (total : Nat) : Nat := Mm.kmallocSize (u32 (total * groupCacheBytes))

/-- `first_desc_block` -/
def firstDesc (bs : Nat) : Nat := if bs = 1024 then 2 else 1

/-- The block of a descriptor. -/
def descBlockOf (bs i : Nat) : Nat := u32 (firstDesc bs + i / (bs / 32))

/-- The offset of a descriptor in its block. -/
def descOffsetOf (bs i : Nat) : Nat := i % (bs / 32) * 32

/-- A round of the loop of `ext2_load_group_descs` from the descriptor on; `room` is the size of
`group_descs`. -/
def loadGroupFrom (dev : Device) (bs room i : Nat) (desc : Buf) :
    Except MountFault (Option GroupCache) :=
  if room < (i + 1) * groupCacheBytes then .error .wild
  else (dev.readBlock bs (desc.get32 0)).elim (.ok none) fun blockBitmap =>
    (dev.readBlock bs (desc.get32 4)).elim (.ok none) fun inodeBitmap =>
      .ok (some {
        bgBlockBitmap := desc.get32 0
        bgInodeBitmap := desc.get32 4
        bgInodeTable := desc.get32 8
        bgFreeBlocksCount := desc.get16 12
        bgFreeInodesCount := desc.get16 14
        bgUsedDirsCount := desc.get16 16
        blockBitmap
        inodeBitmap })

/-- One round; the source reads the block of descriptors only when it comes to a new one. -/
def loadGroup (dev : Device) (bs room i : Nat) : Except MountFault (Option GroupCache) :=
  if bs / 32 = 0 then .error .divide
  else (dev.readBlock bs (descBlockOf bs i)).elim (.ok none) fun buf =>
    loadGroupFrom dev bs room i (buf.drop (descOffsetOf bs i))

/-- The loop from group `i` on, for `n` groups -/
def loadGroups (dev : Device) (bs room i : Nat) : Nat → Except MountFault (Option (List GroupCache))
  | 0 => .ok (some [])
  | n + 1 =>
    match loadGroup dev bs room i with
    | .error e => .error e
    | .ok none => .ok none
    | .ok (some g) => (loadGroups dev bs room (i + 1) n).map fun rest => rest.map (g :: ·)

/-- `ext2_load_group_descs` -/
def loadGroupDescs (dev : Device) (es : Buf) (bs : Nat) :
    Except MountFault (Option (List GroupCache)) :=
  if sbBlocksPerGroup es = 0 then .error .divide
  else
    let total := sbTotalGroups es
    loadGroups dev bs (groupDescsRoom total) 0 total

/-! ## The root inode -/

/-- `ext2_read_inode` -/
def readInodeOf (dev : Device) (es : Buf) (ino : Nat) : Except MountFault (Option Buf) :=
  let bs := sbBlockSize es
  let perGroup := sbInodesPerGroup es
  if perGroup = 0 then .error .divide
  else
    let group := sub32 ino 1 / perGroup
    let index := sub32 ino 1 % perGroup
    if bs / 32 = 0 then .error .divide
    else (dev.readBlock bs (descBlockOf bs group)).elim (.ok none) fun buf =>
      let table := (buf.drop (descOffsetOf bs group)).get32 8
      let size := sbEffectiveInodeSize es
      let perBlock := bs / size
      if perBlock = 0 then .error .divide
      else (dev.readBlock bs (u32 (table + index / perBlock))).elim (.ok none) fun buf =>
        if bs < index % perBlock * size + 128 then .error .wild
        else .ok (some ((buf.drop (index % perBlock * size)).clip 128))

/-- `ext2_fs_info_t` -/
structure FsInfo where
  es : Buf
  blockSize : Nat
  inodeSize : Nat
  groupCount : Nat
  groupDescs : List GroupCache

def superMagicOk (dev : Device) : Prop := sbMagic dev.super = 0xEF53
deriving Decidable

/-- The contents of `info` once everything is loaded. -/
def fsInfoOf (es : Buf) (groupDescs : List GroupCache) : FsInfo where
  es
  blockSize := sbBlockSize es
  inodeSize := sbInodeSize es
  groupCount := sbTotalGroups es
  groupDescs

/-- `ext2_read_root_inode` from the return of `ext2_read_super` on -/
def mountSuper (dev : Device) (es : Buf) : Except MountFault (Option (FsInfo × Buf)) :=
  if 32 ≤ sbLogBlockSize es then .error .shift
  else match loadGroupDescs dev es (sbBlockSize es) with
    | .error e => .error e
    | .ok none => .ok none
    | .ok (some groupDescs) =>
      (readInodeOf dev es 2).map fun root => root.map fun ei => (fsInfoOf es groupDescs, ei)

/-- `ext2_read_root_inode`.  `stale` says that `sb->private_data`, which nothing has initialised, is
not `NULL`; then `ext2_rw_block` takes it for a superblock. -/
def readRootInode (dev : Device) (stale : Bool) : Except MountFault (Option (FsInfo × Buf)) :=
  if stale then .error .wild
  else if dev.sectorCount < 4 then .ok none
  else if superMagicOk dev then mountSuper dev dev.super
  else .ok none

/-! ## What each stage needs -/

variable {dev : Device} {es : Buf} {bs room i n : Nat} {block : Nat}

/-- Where the descriptor of group `i` is. -/
def descAddr (bs i : Nat) : Nat := Device.addr bs (descBlockOf bs i) + descOffsetOf bs i

/-- The descriptor of group `i`. -/
def descOf (dev : Device) (bs i : Nat) : Buf :=
  ((dev.bytes.drop (Device.addr bs (descBlockOf bs i))).clip bs).drop (descOffsetOf bs i)

/-- The descriptor of group `i` can be read. -/
def DescIn (dev : Device) (bs i : Nat) : Prop := dev.InRange bs (descBlockOf bs i)
deriving Decidable

/-- The entry of `group_descs` for group `i`. -/
def cacheOf (dev : Device) (bs i : Nat) : GroupCache where
  bgBlockBitmap := (descOf dev bs i).get32 0
  bgInodeBitmap := (descOf dev bs i).get32 4
  bgInodeTable := (descOf dev bs i).get32 8
  bgFreeBlocksCount := (descOf dev bs i).get16 12
  bgFreeInodesCount := (descOf dev bs i).get16 14
  bgUsedDirsCount := (descOf dev bs i).get16 16
  blockBitmap := (dev.bytes.drop (Device.addr bs ((descOf dev bs i).get32 0))).clip bs
  inodeBitmap := (dev.bytes.drop (Device.addr bs ((descOf dev bs i).get32 4))).clip bs

/-- Group `i` can be loaded. -/
structure Loads (dev : Device) (bs i : Nat) : Prop where
  desc : DescIn dev bs i
  blockBitmap : dev.InRange bs ((descOf dev bs i).get32 0)
  inodeBitmap : dev.InRange bs ((descOf dev bs i).get32 4)

/-- The group of an inode. -/
def groupOfInode (es : Buf) (ino : Nat) : Nat := sub32 ino 1 / sbInodesPerGroup es

/-- Its index in the table of the group. -/
def indexInTable (es : Buf) (ino : Nat) : Nat := sub32 ino 1 % sbInodesPerGroup es

/-- How many inodes a block holds, as `ext2_read_inode` computes it. -/
def inodesPerBlock (es : Buf) : Nat := sbBlockSize es / sbEffectiveInodeSize es

/-- The block in which `ext2_read_inode` looks for an inode. -/
def tableBlock (dev : Device) (es : Buf) (ino : Nat) : Nat :=
  u32 ((descOf dev (sbBlockSize es) (groupOfInode es ino)).get32 8 + indexInTable es ino /
    inodesPerBlock es)

/-- The offset at which it does. -/
def tableOffset (es : Buf) (ino : Nat) : Nat :=
  indexInTable es ino % inodesPerBlock es * sbEffectiveInodeSize es

theorem descOffsetOf_le (hpos : bs / 32 ≠ 0) : descOffsetOf bs i + 32 ≤ bs := by
  have hmod := mod_lt i (pos_of_ne_zero hpos)
  rw [descOffsetOf]
  omega

theorem descOf_apply (hpos : bs / 32 ≠ 0) {j : Nat} (hj : j < 32) :
    descOf dev bs i j = dev.bytes (descAddr bs i + j) := by
  have hoff := @descOffsetOf_le bs i hpos
  simp only [descOf, Buf.drop, Buf.clip]
  rw [if_pos (by omega), descAddr, add_assoc]

theorem descOf_get32 (hpos : bs / 32 ≠ 0) {j : Nat} (hj : j + 4 ≤ 32) :
    (descOf dev bs i).get32 j = dev.bytes.get32 (descAddr bs i + j) :=
  Buf.get32_congr fun k hk => by rw [descOf_apply hpos (by omega), add_assoc]

theorem readBlock_of_inRange (hin : dev.InRange bs block) :
    dev.readBlock bs block = some ((dev.bytes.drop (Device.addr bs block)).clip bs) := if_pos hin

theorem readBlock_of_not_inRange (hin : ¬dev.InRange bs block) :
    dev.readBlock bs block = none := if_neg hin

theorem writeBlock_of_inRange {buf : Buf} (hin : dev.InRange bs block) :
    dev.writeBlock bs block buf =
      some { dev with bytes := dev.bytes.blit (Device.addr bs block) buf bs } := if_pos hin

theorem loadGroup_zero (hzero : bs / 32 = 0) :
    loadGroup dev bs room i = .error .divide := if_pos hzero

section

variable (hpos : bs / 32 ≠ 0)
include hpos

theorem loadGroup_desc (hdesc : DescIn dev bs i) :
    loadGroup dev bs room i = loadGroupFrom dev bs room i (descOf dev bs i) := by
  rw [loadGroup, if_neg hpos, readBlock_of_inRange hdesc]
  rfl

theorem loadGroup_no_desc (hdesc : ¬DescIn dev bs i) :
    loadGroup dev bs room i = .ok none := by
  rw [loadGroup, if_neg hpos, readBlock_of_not_inRange hdesc]
  rfl

/-- A round ends without an error unless it stores behind the array. -/
theorem loadGroup_ok :
    (∃ r, loadGroup dev bs room i = .ok r) ↔
      (DescIn dev bs i → (i + 1) * groupCacheBytes ≤ room) := by
  by_cases hdesc : DescIn dev bs i
  · rw [loadGroup_desc hpos hdesc, loadGroupFrom]
    simp only [hdesc, forall_const]
    by_cases hroom : room < (i + 1) * groupCacheBytes
    · simp [hroom]
    · simp only [if_neg hroom, Nat.le_of_not_lt hroom, iff_true]
      cases dev.readBlock bs ((descOf dev bs i).get32 0) with
      | none => exact ⟨_, rfl⟩
      | some blockBitmap =>
        cases dev.readBlock bs ((descOf dev bs i).get32 4) with
        | none | some => exact ⟨_, rfl⟩
  · simp [loadGroup_no_desc hpos hdesc, hdesc]

/-- A round loads the group if it can be loaded and has its place in the array. -/
theorem loadGroup_some {g : GroupCache} :
    loadGroup dev bs room i = .ok (some g) ↔
      (Loads dev bs i ∧ (i + 1) * groupCacheBytes ≤ room) ∧ g = cacheOf dev bs i := by
  by_cases hdesc : DescIn dev bs i
  · rw [loadGroup_desc hpos hdesc, loadGroupFrom]
    by_cases hroom : room < (i + 1) * groupCacheBytes
    · simp [hroom]
    · simp only [if_neg hroom, Nat.le_of_not_lt hroom, and_true]
      by_cases hblock : dev.InRange bs ((descOf dev bs i).get32 0)
      · rw [readBlock_of_inRange hblock]
        by_cases hinode : dev.InRange bs ((descOf dev bs i).get32 4)
        · rw [readBlock_of_inRange hinode]
          have hloads : Loads dev bs i := ⟨hdesc, hblock, hinode⟩
          simp only [elim_some, ok.injEq, some.injEq, hloads, true_and]
          exact eq_comm
        · rw [readBlock_of_not_inRange hinode]
          exact iff_of_false (by simp) fun hloads => hinode hloads.1.inodeBitmap
      · rw [readBlock_of_not_inRange hblock]
        exact iff_of_false (by simp) fun hloads => hblock hloads.1.blockBitmap
  · rw [loadGroup_no_desc hpos hdesc]
    exact iff_of_false (by simp) fun hloads => hdesc hloads.1.1.desc

end

/-- The groups from `i` on are group `i` and those behind it. -/
theorem forall_group_succ {P : Nat → Prop} :
    (∀ k, i ≤ k → k < i + (n + 1) → P k) ↔ P i ∧ ∀ k, i + 1 ≤ k → k < i + 1 + n → P k := by
  constructor
  · intro hall
    exact ⟨hall i le_rfl (by omega), fun k hle hlt => hall k (by omega) (by omega)⟩
  · intro ⟨hfirst, hrest⟩ k hle hlt
    rcases eq_or_lt_of_le hle with rfl | hgt
    · exact hfirst
    · exact hrest k hgt (by omega)

/-- The loop ends without an error if every group it comes to has its place in the array. -/
theorem loadGroups_ok (hpos : bs / 32 ≠ 0) :
    (∃ r, loadGroups dev bs room i n = .ok r) ↔
      ∀ k, i ≤ k → k < i + n → (∀ j, i ≤ j → j < k → Loads dev bs j) → DescIn dev bs k →
        (k + 1) * groupCacheBytes ≤ room := by
  induction n generalizing i with
  | zero =>
    refine iff_of_true ⟨_, rfl⟩ fun k hle hlt => ?_
    omega
  | succ n ih =>
    rw [forall_group_succ, loadGroups]
    have hfirst : ∀ j, i ≤ j → j < i → Loads dev bs j := fun j hle hlt => by omega
    rw [forall_prop_of_true hfirst, ← loadGroup_ok hpos]
    cases hload : loadGroup dev bs room i with
    | error e => simp
    | ok result =>
      cases result with
      | none =>
        refine iff_of_true ⟨_, rfl⟩ ⟨⟨_, rfl⟩, fun k hle hlt hbefore _ => ?_⟩
        -- the group loads, so the round can only fail for want of room, which would be an error
        have hloads := hbefore i le_rfl hle
        have hroom := (loadGroup_ok hpos).1 ⟨_, hload⟩ hloads.desc
        have hg := (loadGroup_some hpos).2 ⟨⟨hloads, hroom⟩, rfl⟩
        rw [hload] at hg
        cases hg
      | some g =>
        have hloads := ((loadGroup_some hpos).1 hload).1.1
        have hrest : (∃ r, (loadGroups dev bs room (i + 1) n).map (Option.map (g :: ·)) = .ok r) ↔
            ∃ r, loadGroups dev bs room (i + 1) n = .ok r := by
          cases loadGroups dev bs room (i + 1) n <;> simp [Except.map]
        refine hrest.trans (ih.trans ?_)
        simp only [ok.injEq, exists_eq', true_and]
        refine forall₃_congr fun k hle hlt => imp_congr_left ?_
        constructor
        · intro hall j hij hjk
          rcases eq_or_lt_of_le hij with rfl | hgt
          · exact hloads
          · exact hall j hgt hjk
        · intro hall j hij hjk
          exact hall j (by omega) hjk

/-- It loads all groups if each of them can be loaded and has its place. -/
theorem loadGroups_some (hpos : bs / 32 ≠ 0) {gs : List GroupCache} :
    loadGroups dev bs room i n = .ok (some gs) ↔
      (∀ k, i ≤ k → k < i + n → Loads dev bs k ∧ (k + 1) * groupCacheBytes ≤ room) ∧
        gs = (range' i n).map (cacheOf dev bs) := by
  induction n generalizing i gs with
  | zero =>
    have hnone : ∀ k, i ≤ k → k < i + 0 → Loads dev bs k ∧ (k + 1) * groupCacheBytes ≤ room :=
      fun k hle hlt => by omega
    rw [and_iff_right hnone, loadGroups, ok.injEq, some.injEq]
    exact eq_comm
  | succ n ih =>
    rw [forall_group_succ, range'_succ, map_cons, loadGroups]
    constructor
    · intro hrun
      cases hload : loadGroup dev bs room i with
      | error e => simp [hload] at hrun
      | ok result =>
        cases result with
        | none => simp [hload] at hrun
        | some g =>
          obtain ⟨hfirst, rfl⟩ := (loadGroup_some hpos).1 hload
          cases hrest : loadGroups dev bs room (i + 1) n with
          | error e => simp [hload, hrest, Except.map] at hrun
          | ok rest =>
            cases rest with
            | none => simp [hload, hrest, Except.map] at hrun
            | some rest =>
              obtain ⟨hall, rfl⟩ := ih.1 hrest
              simp only [hload, hrest, Except.map, map_some, ok.injEq,
                some.injEq] at hrun
              exact ⟨⟨hfirst, hall⟩, hrun.symm⟩
    · intro ⟨⟨hfirst, hall⟩, hgs⟩
      rw [(loadGroup_some hpos).2 ⟨hfirst, rfl⟩, ih.2 ⟨hall, rfl⟩, hgs]
      rfl

section ReadInode

variable {ino : Nat}

section

variable (hper : sbInodesPerGroup es ≠ 0) (hpos : sbBlockSize es / 32 ≠ 0)
include hper hpos

theorem readInodeOf_no_desc
    (hdesc : ¬DescIn dev (sbBlockSize es) (groupOfInode es ino)) :
    readInodeOf dev es ino = .ok none := by
  simp only [readInodeOf, if_neg hper, if_neg hpos]
  rw [show sub32 ino 1 / sbInodesPerGroup es = groupOfInode es ino from rfl,
    readBlock_of_not_inRange hdesc]
  rfl

/-- What `ext2_read_inode` does after it has read the descriptor. -/
theorem readInodeOf_desc
    (hdesc : DescIn dev (sbBlockSize es) (groupOfInode es ino)) :
    readInodeOf dev es ino =
      if inodesPerBlock es = 0 then .error .divide
      else (dev.readBlock (sbBlockSize es) (tableBlock dev es ino)).elim (.ok none) fun buf =>
        if sbBlockSize es < tableOffset es ino + 128 then .error .wild
        else .ok (some ((buf.drop (tableOffset es ino)).clip 128)) := by
  simp only [readInodeOf, if_neg hper, if_neg hpos]
  rw [show sub32 ino 1 / sbInodesPerGroup es = groupOfInode es ino from rfl,
    readBlock_of_inRange hdesc]
  rfl

end

end ReadInode

theorem sbEffectiveInodeSize_pos (es : Buf) : 0 < sbEffectiveInodeSize es := by
  unfold sbEffectiveInodeSize
  split <;> omega

theorem inodesPerBlock_eq_zero : inodesPerBlock es = 0 ↔
    sbBlockSize es < sbEffectiveInodeSize es := by
  rw [inodesPerBlock, Nat.div_eq_zero_iff]
  have hpos := sbEffectiveInodeSize_pos es
  omega

/-- The root inode is one of the first two of its group, so it never ends behind its block. -/
theorem tableOffset_root (hbs : 1024 ≤ sbBlockSize es) (hper : inodesPerBlock es ≠ 0) :
    tableOffset es 2 + 128 ≤ sbBlockSize es := by
  have hindex : indexInTable es 2 ≤ 1 := mod_le _ _
  have hmod : indexInTable es 2 % inodesPerBlock es ≤ 1 := (mod_le _ _).trans hindex
  rw [tableOffset]
  by_cases hone : inodesPerBlock es = 1
  · rw [hone, mod_one]
    omega
  · have htwo : 2 * sbEffectiveInodeSize es ≤ sbBlockSize es :=
      calc 2 * sbEffectiveInodeSize es
        _ ≤ inodesPerBlock es * sbEffectiveInodeSize es := mul_le_mul_right _ (by omega)
        _ ≤ sbBlockSize es := div_mul_le_self _ _
    have hoff := mul_le_mul_right (sbEffectiveInodeSize es) hmod
    omega

/-- Reading the root inode goes wrong if the size of an inode is larger than a block. -/
theorem readInodeOf_root_ok (hper : sbInodesPerGroup es ≠ 0) (hbs : 1024 ≤ sbBlockSize es) :
    (∃ r, readInodeOf dev es 2 = .ok r) ↔
      (DescIn dev (sbBlockSize es) (groupOfInode es 2) →
        sbEffectiveInodeSize es ≤ sbBlockSize es) := by
  have hpos : sbBlockSize es / 32 ≠ 0 := by omega
  by_cases hdesc : DescIn dev (sbBlockSize es) (groupOfInode es 2)
  · rw [readInodeOf_desc hper hpos hdesc]
    simp only [hdesc, forall_const]
    by_cases hzero : inodesPerBlock es = 0
    · rw [if_pos hzero]
      have hlarge := inodesPerBlock_eq_zero.1 hzero
      simp only [reduceCtorEq, exists_false, false_iff]
      omega
    · rw [if_neg hzero]
      have hsmall := mt inodesPerBlock_eq_zero.2 hzero
      have hroom := tableOffset_root hbs hzero
      refine iff_of_true ?_ (by omega)
      cases dev.readBlock (sbBlockSize es) (tableBlock dev es 2) with
      | none => exact ⟨_, rfl⟩
      | some buf => exact ⟨_, if_neg (by omega)⟩
  · simp [readInodeOf_no_desc hper hpos hdesc, hdesc]

/-- It finds one if the descriptor and the block it names are on the partition. -/
theorem readInodeOf_root_some (hper : sbInodesPerGroup es ≠ 0) (hbs : 1024 ≤ sbBlockSize es)
    (hsize : sbEffectiveInodeSize es ≤ sbBlockSize es) :
    (∃ ei, readInodeOf dev es 2 = .ok (some ei)) ↔
      DescIn dev (sbBlockSize es) (groupOfInode es 2) ∧
        dev.InRange (sbBlockSize es) (tableBlock dev es 2) := by
  have hpos : sbBlockSize es / 32 ≠ 0 := by omega
  have hzero : inodesPerBlock es ≠ 0 := fun hzero => by
    have hlarge := inodesPerBlock_eq_zero.1 hzero
    omega
  have hroom := tableOffset_root hbs hzero
  by_cases hdesc : DescIn dev (sbBlockSize es) (groupOfInode es 2)
  · rw [readInodeOf_desc hper hpos hdesc, if_neg hzero]
    by_cases hblock : dev.InRange (sbBlockSize es) (tableBlock dev es 2)
    · rw [readBlock_of_inRange hblock]
      exact iff_of_true ⟨_, if_neg (by omega)⟩ ⟨hdesc, hblock⟩
    · rw [readBlock_of_not_inRange hblock]
      exact iff_of_false (by simp) fun hboth => hblock hboth.2
  · rw [readInodeOf_no_desc hper hpos hdesc]
    exact iff_of_false (by simp) fun hboth => hdesc hboth.1

/-! ## The block size -/

theorem sbBlockSize_of_lt (hlog : sbLogBlockSize es < 22) :
    sbBlockSize es = 1024 * 2 ^ sbLogBlockSize es := by
  have hpow : 2 ^ sbLogBlockSize es ≤ 2 ^ 21 := Nat.pow_le_pow_right (by decide) (by omega)
  exact u32_of_lt (by omega)

theorem le_sbBlockSize (hlog : sbLogBlockSize es < 22) : 1024 ≤ sbBlockSize es := by
  rw [sbBlockSize_of_lt hlog]
  have hpow := Nat.two_pow_pos (sbLogBlockSize es)
  omega

/-- From a shift by 22 on nothing is left of the block size. -/
theorem sbBlockSize_of_le (hlog : 22 ≤ sbLogBlockSize es) : sbBlockSize es = 0 := by
  obtain ⟨k, hk⟩ := Nat.exists_eq_add_of_le hlog
  rw [sbBlockSize, hk, pow_add, ← mul_assoc, u32]
  exact mod_eq_zero_of_dvd (Dvd.intro _ rfl)

theorem sbBlockSize_common (hlog : sbLogBlockSize es < 22) :
    sbBlockSize es ∈ [1024, 2048, 4096] ↔ sbLogBlockSize es ≤ 2 := by
  rw [sbBlockSize_of_lt hlog]
  generalize sbLogBlockSize es = log at hlog ⊢
  interval_cases log <;> decide

/-! ## Safe mounts -/

/-- What is expected of a mounted volume. -/
structure MountedWell (info : FsInfo) : Prop where
  blocksPerGroup : sbBlocksPerGroup info.es ≠ 0
  inodesPerGroup : sbInodesPerGroup info.es ≠ 0
  inodeSize : sbEffectiveInodeSize info.es ≠ 0
  blockSize : info.blockSize ∈ [1024, 2048, 4096]
  inodeFits : sbEffectiveInodeSize info.es ≤ info.blockSize
  groupCount : info.groupCount = sbGroups info.es

/-- Nothing goes wrong, and what has been mounted is as expected. -/
def MountSafe (dev : Device) (stale : Bool) : Prop :=
  ∃ result, readRootInode dev stale = .ok result ∧
    ∀ info ei, result = some (info, ei) → MountedWell info

/-- The superblock is there and has the magic. -/
def Accepted (dev : Device) : Prop := 4 ≤ dev.sectorCount ∧ superMagicOk dev
deriving Decidable

/-- What the source would have to check of the fields behind the root inode. -/
structure RootSafe (dev : Device) (es : Buf) : Prop where
  inodesPerGroup : sbInodesPerGroup es ≠ 0
  inodeFits : DescIn dev (sbBlockSize es) (groupOfInode es 2) →
    sbEffectiveInodeSize es ≤ sbBlockSize es
  mounted : DescIn dev (sbBlockSize es) (groupOfInode es 2) →
    dev.InRange (sbBlockSize es) (tableBlock dev es 2) →
    sbLogBlockSize es ≤ 2 ∧ sbTotalGroups es = sbGroups es

/-- What it would have to check of a superblock with the magic. -/
structure SuperSafe (dev : Device) (es : Buf) : Prop where
  log : sbLogBlockSize es < 22
  blocksPerGroup : sbBlocksPerGroup es ≠ 0
  room : ∀ i < sbTotalGroups es, (∀ k < i, Loads dev (sbBlockSize es) k) →
    DescIn dev (sbBlockSize es) i →
      (i + 1) * groupCacheBytes ≤ groupDescsRoom (sbTotalGroups es)
  root : (∀ i < sbTotalGroups es, Loads dev (sbBlockSize es) i) → RootSafe dev es

theorem loadGroupDescs_ok (hper : sbBlocksPerGroup es ≠ 0) (hpos : bs / 32 ≠ 0) :
    (∃ r, loadGroupDescs dev es bs = .ok r) ↔
      ∀ i < sbTotalGroups es, (∀ k < i, Loads dev bs k) → DescIn dev bs i →
        (i + 1) * groupCacheBytes ≤ groupDescsRoom (sbTotalGroups es) := by
  rw [loadGroupDescs, if_neg hper]
  simpa using @loadGroups_ok dev bs _ 0 _ hpos

theorem loadGroupDescs_some (hper : sbBlocksPerGroup es ≠ 0) (hpos : bs / 32 ≠ 0)
    {gs : List GroupCache} :
    loadGroupDescs dev es bs = .ok (some gs) ↔
      (∀ i < sbTotalGroups es, Loads dev bs i ∧
        (i + 1) * groupCacheBytes ≤ groupDescsRoom (sbTotalGroups es)) ∧
      gs = (range (sbTotalGroups es)).map (cacheOf dev bs) := by
  rw [loadGroupDescs, if_neg hper, range_eq_range']
  simpa using @loadGroups_some dev bs _ 0 _ hpos gs

/-- A block size of zero is divided into descriptors, if not for the groups then for the root
inode. -/
theorem mountSuper_of_log (hlog : 22 ≤ sbLogBlockSize es) (r : Option (FsInfo × Buf)) :
    mountSuper dev es ≠ .ok r := by
  have hzero := sbBlockSize_of_le hlog
  rw [mountSuper]
  by_cases hshift : 32 ≤ sbLogBlockSize es
  · simp [hshift]
  rw [if_neg hshift, hzero]
  cases hload : loadGroupDescs dev es 0 with
  | error e => simp
  | ok gs =>
    cases gs with
    | none =>
      -- some group has been tried, and that already divides by zero
      rw [loadGroupDescs] at hload
      split at hload
      · cases hload
      · cases htotal : sbTotalGroups es with
        | zero => simp [htotal, loadGroups] at hload
        | succ n => simp [htotal, loadGroups, loadGroup_zero] at hload
    | some gs =>
      have hread : readInodeOf dev es 2 = .error .divide := by
        simp [readInodeOf, hzero]
      simp [hread, Except.map]

/-- Nothing goes wrong in `mountSuper`, and what it returns is as expected. -/
def SuperMounts (dev : Device) (es : Buf) : Prop :=
  ∃ result, mountSuper dev es = .ok result ∧ ∀ info ei, result = some (info, ei) → MountedWell info

theorem mountSuper_loaded {gs : List GroupCache} (hlog : sbLogBlockSize es < 22)
    (hload : loadGroupDescs dev es (sbBlockSize es) = .ok (some gs)) :
    mountSuper dev es =
      (readInodeOf dev es 2).map fun root => root.map fun ei => (fsInfoOf es gs, ei) := by
  rw [mountSuper, if_neg (by omega), hload]

theorem superMounts_of_safe (hsafe : SuperSafe dev es) : SuperMounts dev es := by
  have hbs := le_sbBlockSize hsafe.log
  have hpos : sbBlockSize es / 32 ≠ 0 := by omega
  obtain ⟨gs, hload⟩ := (loadGroupDescs_ok hsafe.blocksPerGroup hpos).2 hsafe.room
  cases gs with
  | none =>
    have hlog := hsafe.log
    refine ⟨none, ?_, by simp⟩
    rw [mountSuper, if_neg (by omega), hload]
  | some gs =>
    obtain ⟨hall, -⟩ := (loadGroupDescs_some hsafe.blocksPerGroup hpos).1 hload
    have hroot := hsafe.root fun i hi => (hall i hi).1
    obtain ⟨root, hread⟩ := (readInodeOf_root_ok hroot.inodesPerGroup hbs).2 hroot.inodeFits
    have hmount := mountSuper_loaded hsafe.log hload
    rw [hread] at hmount
    refine ⟨_, hmount, fun info ei hresult => ?_⟩
    cases root with
    | none => cases hresult
    | some root =>
      cases hresult
      -- the descriptor could be read, otherwise there would be no root inode
      have hdesc : DescIn dev (sbBlockSize es) (groupOfInode es 2) := by
        by_contra hdesc
        rw [readInodeOf_no_desc hroot.inodesPerGroup hpos hdesc] at hread
        cases hread
      have hfits := hroot.inodeFits hdesc
      have hblock := ((readInodeOf_root_some hroot.inodesPerGroup hbs hfits).1 ⟨_, hread⟩).2
      obtain ⟨hlog, hgroups⟩ := hroot.mounted hdesc hblock
      exact {
        blocksPerGroup := hsafe.blocksPerGroup
        inodesPerGroup := hroot.inodesPerGroup
        inodeSize := (sbEffectiveInodeSize_pos es).ne'
        blockSize := (sbBlockSize_common hsafe.log).2 hlog
        inodeFits := hfits
        groupCount := hgroups }

theorem safe_of_superMounts (hmounts : SuperMounts dev es) : SuperSafe dev es := by
  obtain ⟨result, hmount, hwell⟩ := hmounts
  have hlog : sbLogBlockSize es < 22 := by
    by_contra hlog
    exact mountSuper_of_log (by omega) result hmount
  have hbs := le_sbBlockSize hlog
  have hpos : sbBlockSize es / 32 ≠ 0 := by omega
  obtain ⟨gs, hload⟩ : ∃ r, loadGroupDescs dev es (sbBlockSize es) = .ok r := by
    cases hload : loadGroupDescs dev es (sbBlockSize es) with
    | error e =>
      rw [mountSuper, if_neg (by omega), hload] at hmount
      cases hmount
    | ok r => exact ⟨r, rfl⟩
  have hper : sbBlocksPerGroup es ≠ 0 := by
    intro hper
    simp [loadGroupDescs, hper] at hload
  have hroom := (loadGroupDescs_ok hper hpos).1 ⟨gs, hload⟩
  refine ⟨hlog, hper, hroom, fun hall => ?_⟩
  have hplaces : ∀ i < sbTotalGroups es, Loads dev (sbBlockSize es) i ∧
      (i + 1) * groupCacheBytes ≤ groupDescsRoom (sbTotalGroups es) := fun i hi =>
    ⟨hall i hi, hroom i hi (fun k hk => hall k (hk.trans hi)) (hall i hi).desc⟩
  rw [mountSuper_loaded hlog ((loadGroupDescs_some hper hpos).2 ⟨hplaces, rfl⟩)] at hmount
  obtain ⟨root, hread⟩ : ∃ r, readInodeOf dev es 2 = .ok r := by
    cases hread : readInodeOf dev es 2 with
    | error e => simp [hread, Except.map] at hmount
    | ok r => exact ⟨r, rfl⟩
  have hinodes : sbInodesPerGroup es ≠ 0 := by
    intro hinodes
    simp [readInodeOf, hinodes] at hread
  have hfits := (readInodeOf_root_ok hinodes hbs).1 ⟨root, hread⟩
  refine ⟨hinodes, hfits, fun hdesc hblock => ?_⟩
  obtain ⟨ei, hei⟩ := (readInodeOf_root_some hinodes hbs (hfits hdesc)).2 ⟨hdesc, hblock⟩
  rw [hei] at hmount
  have hinfo := hwell (fsInfoOf es _) ei (ok.inj hmount).symm
  exact ⟨(sbBlockSize_common hlog).1 hinfo.blockSize, hinfo.groupCount⟩

theorem readRootInode_accepted (haccepted : Accepted dev) :
    readRootInode dev false = mountSuper dev dev.super := by
  rw [readRootInode, if_neg (by simp), if_neg (not_lt.2 haccepted.1), if_pos haccepted.2]

theorem readRootInode_refused (haccepted : ¬Accepted dev) : readRootInode dev false = .ok none := by
  rw [readRootInode, if_neg (by simp)]
  split
  · rfl
  · next hcount => exact if_neg fun hmagic => haccepted ⟨Nat.le_of_not_lt hcount, hmagic⟩

/-- A partition of two blocks on which nothing is written but the magic. -/
def magicOnly : Device where
  sectorCount := 4
  bytes := Buf.zero.put16 (1024 + 56) 0xEF53

/-- All fields of a mounted volume come from the partition, and these are the only ones that could
have stopped the mount. -/
structure MountedFrom (dev : Device) (info : FsInfo) : Prop where
  accepted : Accepted dev
  info_eq : info = fsInfoOf dev.super
    ((range (sbTotalGroups dev.super)).map (cacheOf dev (sbBlockSize dev.super)))
  log : sbLogBlockSize dev.super < 22
  blocksPerGroup : sbBlocksPerGroup dev.super ≠ 0
  places : ∀ i < sbTotalGroups dev.super, Loads dev (sbBlockSize dev.super) i ∧
    (i + 1) * groupCacheBytes ≤ groupDescsRoom (sbTotalGroups dev.super)

theorem readRootInode_some {info : FsInfo} {ei : Buf} :
    readRootInode dev false = .ok (some (info, ei)) ↔
      MountedFrom dev info ∧ readInodeOf dev dev.super 2 = .ok (some ei) := by
  constructor
  · intro hmount
    have haccepted : Accepted dev := by
      by_contra haccepted
      rw [readRootInode_refused haccepted] at hmount
      cases hmount
    rw [readRootInode_accepted haccepted] at hmount
    have hlog : sbLogBlockSize dev.super < 22 := by
      by_contra hlog
      exact mountSuper_of_log (by omega) _ hmount
    have hbs := le_sbBlockSize hlog
    have hpos : sbBlockSize dev.super / 32 ≠ 0 := by omega
    cases hload : loadGroupDescs dev dev.super (sbBlockSize dev.super) with
    | error e =>
      rw [mountSuper, if_neg (by omega), hload] at hmount
      cases hmount
    | ok loaded =>
      cases loaded with
      | none =>
        rw [mountSuper, if_neg (by omega), hload] at hmount
        cases hmount
      | some gs =>
        have hper : sbBlocksPerGroup dev.super ≠ 0 := by
          intro hper
          simp [loadGroupDescs, hper] at hload
        rw [mountSuper_loaded hlog hload] at hmount
        obtain ⟨hplaces, rfl⟩ := (loadGroupDescs_some hper hpos).1 hload
        cases hread : readInodeOf dev dev.super 2 with
        | error e => simp [hread, Except.map] at hmount
        | ok root =>
          cases root with
          | none => simp [hread, Except.map] at hmount
          | some root =>
            simp only [hread, Except.map, map_some, ok.injEq, some.injEq,
              Prod.mk.injEq] at hmount
            obtain ⟨rfl, rfl⟩ := hmount
            exact ⟨⟨haccepted, rfl, hlog, hper, hplaces⟩, rfl⟩
  · intro ⟨hfrom, hread⟩
    have hbs := le_sbBlockSize hfrom.log
    have hload := (@loadGroupDescs_some dev _ _ hfrom.blocksPerGroup (by omega) _).2
      ⟨hfrom.places, rfl⟩
    rw [readRootInode_accepted hfrom.accepted, mountSuper_loaded hfrom.log hload, hread,
      hfrom.info_eq]
    rfl

end Osx64.Ext2
