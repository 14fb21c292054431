import Osx64.Ext2.Data
import Osx64.Ext2.OwnedRun

/-!
# The bytes of a file

A file position is turned into a logical block and an offset in it; `fileByte` is the byte
the block map has there, zero in a hole.  `ext2_read` returns these bytes (`read_eq`), so
that what an operation does to a file can be said byte by byte.

The logical block is a 64-bit quotient kept in 32 bits.  Positions behind the last block
of the map are refused, by `ext2_read` and `ext2_write` alike, as long as the quotient
fits; from `2^32` blocks on it wraps, and the position is taken for one at the head of
the file.
-/

namespace Osx64.Ext2

open List Nat

/-! ## Positions -/

/-- The logical block `ext2_read` and `ext2_write` compute for a position. -/
def blockAt (geo : Geometry) (q : Nat) : Nat := u32 (q / geo.blockSize)

/-- The block map has a place for this position. -/
def InMap (geo : Geometry) (q : Nat) : Prop := blockAt geo q < mapBlocks geo.perBlock
deriving Decidable

/-- The byte at a position, as far as the block map goes. -/
def fileByte (fs : Fs) (ei : Buf) (q : Nat) : UInt8 :=
  ((leafData fs ei (blockAt fs.geo q)).getD Buf.zero) (q % fs.geo.blockSize)

/-- What `ext2_read` returns for one byte; `none` if there is none to be had. -/
def byteAt (fs : Fs) (inode : Inode) (q : Nat) : Option UInt8 :=
  (read fs inode 1 q).2.bind head?

section Positions

variable {geo : Geometry} {q j : Nat}

theorem blockSize_pos (geo : Geometry) : 0 < geo.blockSize :=
  mul_pos (by decide) (Nat.two_pow_pos _)

/-- Inside a block, a position and its offset move together. -/
theorem div_of_lt_block (hj : q % geo.blockSize + j < geo.blockSize) :
    (q + j) / geo.blockSize = q / geo.blockSize ∧
      (q + j) % geo.blockSize = q % geo.blockSize + j := by
  have hq := div_add_mod q geo.blockSize
  have hsum : q + j = geo.blockSize * (q / geo.blockSize) + (q % geo.blockSize + j) := by omega
  rw [hsum, mul_add_div (blockSize_pos geo), div_eq_of_lt hj, mul_add_mod,
    mod_eq_of_lt hj]
  exact ⟨rfl, rfl⟩

theorem blockAt_add (hj : q % geo.blockSize + j < geo.blockSize) :
    blockAt geo (q + j) = blockAt geo q := by
  rw [blockAt, blockAt, (div_of_lt_block hj).1]

end Positions

/-! ## Reading -/

section Read

variable {reserved : Nat → Prop} {L : Nat → Option Buf} {ino : Nat} {fs : Fs} {ei : Buf}
  {inode : Inode} {pos count fuel len q : Nat}

/-- The block `ext2_read` copies from. -/
theorem readBlock_bmap (ho : Owned reserved fs L) (hlive : L ino = some ei)
    (hmap : InMap fs.geo pos) :
    bmap fs ei (blockAt fs.geo pos) ≠ minusOne ∧
      (if bmap fs ei (blockAt fs.geo pos) = 0 then some Buf.zero
        else fs.readBlock (bmap fs ei (blockAt fs.geo pos))) =
      some ((leafData fs ei (blockAt fs.geo pos)).getD Buf.zero) := by
  rw [ho.bmap_eq hlive hmap, leafData]
  by_cases h0 : ptr fs ei (leafPos fs.geo.perBlock (blockAt fs.geo pos)) = 0
  · simp [h0, minusOne]
  · have hdata := ho.dataUsed hlive (leafPos_valid hmap) h0
    have hlt := hdata.lt
    have hcount := ho.mounted.layout.blocksCount_lt
    simp only [h0, if_false, Option.getD_some, Fs.readBlock_eq ho.mounted.layout hlt, and_true]
    rw [minusOne]
    omega

/-- One round of the loop of `ext2_read`. -/
theorem readLoop_succ (fs : Fs) (ei : Buf) (pos : Nat) (hcount : count ≠ 0) (fuel : Nat) :
    readLoop fs ei pos count (fuel + 1) =
      let toRead := min (fs.geo.blockSize - pos % fs.geo.blockSize) count
      let rest := readLoop fs ei (pos + toRead) (count - toRead) fuel
      if bmap fs ei (blockAt fs.geo pos) = minusOne then (pos, none)
      else ((if bmap fs ei (blockAt fs.geo pos) = 0 then some Buf.zero
          else fs.readBlock (bmap fs ei (blockAt fs.geo pos))).elim (pos, none) fun buf =>
        (rest.1, rest.2.map ((range toRead).map
          (fun j => buf (pos % fs.geo.blockSize + j)) ++ ·))) := by
  rw [readLoop, if_neg hcount]
  unfold blockAt
  refine if_congr Iff.rfl rfl ?_
  dsimp only
  split <;> next hblock => rw [hblock]; rfl

/-- The loop of `ext2_read` copies the bytes of the file, unless it comes to a position
the map has no place for. -/
theorem readLoop_snd (ho : Owned reserved fs L) (hlive : L ino = some ei) (hfuel : count ≤ fuel) :
    (readLoop fs ei pos count fuel).2 =
      if ∀ j < count, InMap fs.geo (pos + j)
      then some ((range count).map fun j => fileByte fs ei (pos + j)) else none := by
  induction fuel generalizing pos count with
  | zero =>
    obtain rfl : count = 0 := le_zero.mp hfuel
    simp [readLoop]
  | succ fuel ih =>
    by_cases hcount : count = 0
    · simp [hcount, readLoop]
    rw [readLoop_succ fs ei pos hcount]
    have hmod := mod_lt pos (blockSize_pos fs.geo)
    by_cases hmap : InMap fs.geo pos
    · obtain ⟨hne, hbuf⟩ := readBlock_bmap ho hlive hmap
      rw [if_neg hne, hbuf, Option.elim_some]
      generalize hstep : min (fs.geo.blockSize - pos % fs.geo.blockSize) count = step
      rw [ih (by omega)]
      have hin : ∀ j < step, blockAt fs.geo (pos + j) = blockAt fs.geo pos ∧
          (pos + j) % fs.geo.blockSize = pos % fs.geo.blockSize + j := fun j hj =>
        ⟨blockAt_add (by omega), (div_of_lt_block (by omega)).2⟩
      have hall : (∀ j < count, InMap fs.geo (pos + j)) ↔
          ∀ j < count - step, InMap fs.geo (pos + step + j) := by
        constructor
        · intro h j hj
          rw [add_assoc]
          exact h (step + j) (by omega)
        · intro h j hj
          by_cases hjs : j < step
          · rw [InMap, (hin j hjs).1]
            exact hmap
          · have hrest := h (j - step) (by omega)
            rwa [show pos + step + (j - step) = pos + j by omega] at hrest
      have hrange : range count =
          range step ++ (range (count - step)).map (step + ·) := by
        rw [← range_add, Nat.add_sub_cancel' (by omega)]
      simp only [hall]
      split
      · rw [Option.map_some, hrange, map_append, map_map]
        refine congrArg some (congrArg₂ _ (map_congr_left fun j hj => ?_)
          (map_congr_left fun j _ => ?_))
        · obtain ⟨hblock, hoff⟩ := hin j (mem_range.mp hj)
          rw [fileByte, hblock, hoff]
        · rw [Function.comp_apply, add_assoc]
      · rfl
    · rw [if_pos (Owned.bmap_beyond (Nat.le_of_not_lt hmap)), if_neg]
      intro h
      exact hmap (h 0 (pos_of_ne_zero hcount))

/-- `ext2_read` returns the bytes of the file up to its size. -/
theorem read_eq (ho : Owned reserved fs L) (hlive : L ino = some inode.ei)
    (hsize : inode.size < 2 ^ 64) (hlen : pos + len < 2 ^ 64) :
    (read fs inode len pos).2 =
      if ∀ j < min len ((signed inode.size).toNat - pos), InMap fs.geo (pos + j)
      then some ((range (min len ((signed inode.size).toNat - pos))).map
        fun j => fileByte fs inode.ei (pos + j))
      else none := by
  rw [read]
  by_cases hend : (pos : Int) ≥ signed inode.size
  · have hzero : min len ((signed inode.size).toNat - pos) = 0 := by omega
    rw [if_pos hend, hzero]
    simp
  · rw [if_neg hend, u64, mod_eq_of_lt hlen]
    have hsigned : signed inode.size = inode.size := by
      rw [signed] at hend ⊢
      split at hend
      · next hlt => rw [if_pos hlt]
      · omega
    have hcount : (if pos + len > inode.size then inode.size - pos else len) =
        min len ((signed inode.size).toNat - pos) := by
      rw [hsigned, Int.toNat_natCast]
      split <;> omega
    rw [hcount]
    exact readLoop_snd ho hlive le_rfl

theorem signed_lt {size : Nat} (h : size < 2 ^ 64) : signed size < 2 ^ 63 := by
  rw [signed]
  split <;> omega

theorem byteAt_eq (ho : Owned reserved fs L) (hlive : L ino = some inode.ei)
    (hsize : inode.size < 2 ^ 64) :
    byteAt fs inode q = if (q : Int) < signed inode.size ∧ InMap fs.geo q
      then some (fileByte fs inode.ei q) else none := by
  by_cases hend : (q : Int) < signed inode.size
  · have hlt := signed_lt hsize
    have hone : min 1 ((signed inode.size).toNat - q) = 1 := by omega
    rw [byteAt, read_eq ho hlive hsize (by omega)]
    simp only [hone, hend, true_and, lt_one_iff, forall_eq, add_zero]
    split <;> simp
  · rw [byteAt, read, if_pos (by omega), if_neg (fun h => hend h.1)]
    rfl

end Read

/-! ## Positions behind the map -/

/-- A position behind the block map is refused: `ext2_write` returns `-1` and changes
nothing, `ext2_read` returns `-1` or no bytes, and the numbers that lead there fit in
32 bits. -/
structure Refused (fs : Fs) (inode : Inode) (pos : Nat) : Prop where
  write : ∀ data len now, 0 < len →
    Ext2.write fs inode data len pos now = { fs, inode, pos, ret := none }
  read : ∀ len, 0 < len →
    (Ext2.read fs inode len pos).2 = none ∨ (Ext2.read fs inode len pos).2 = some []
  block_fits : u32 (pos / fs.geo.blockSize) = pos / fs.geo.blockSize
  map_fits : u32 (mapBlocks fs.geo.perBlock) = mapBlocks fs.geo.perBlock

section Beyond

variable {fs : Fs} {inode : Inode} {pos len now : Nat}

theorem write_beyond (hmap : ¬ InMap fs.geo pos) (hlen : 0 < len) (data : Buf) :
    Ext2.write fs inode data len pos now = { fs, inode, pos, ret := none } := by
  obtain ⟨fuel, rfl⟩ : ∃ fuel, len = fuel + 1 := ⟨len - 1, by omega⟩
  have hchunk : ∀ offset count done, writeChunk data ⟨fs, inode.ei, false⟩ (blockAt fs.geo pos)
      offset count done = (⟨fs, inode.ei, false⟩, false) := by
    intro offset count done
    rw [writeChunk, Work.bmapAlloc_beyond (Nat.le_of_not_lt hmap)]
    rfl
  have hloop : writeLoop data ⟨fs, inode.ei, false⟩ pos (fuel + 1) 0 (fuel + 1) =
      (⟨fs, inode.ei, false⟩, pos, false) := by
    rw [writeLoop, if_neg (succ_ne_zero fuel)]
    dsimp only [blockAt] at hchunk ⊢
    rw [hchunk]
  rw [Ext2.write, hloop]
  simp

theorem read_beyond (hmap : ¬ InMap fs.geo pos) :
    (Ext2.read fs inode len pos).2 = none ∨ (Ext2.read fs inode len pos).2 = some [] := by
  rw [Ext2.read]
  split
  · exact .inr rfl
  · generalize (if u64 (pos + len) > inode.size then inode.size - pos else len) = count
    cases count with
    | zero => exact .inr rfl
    | succ fuel =>
      left
      rw [readLoop_succ _ _ _ (succ_ne_zero fuel)]
      rw [if_pos (Owned.bmap_beyond (Nat.le_of_not_lt hmap))]

theorem mapBlocks_lt (hlog : fs.geo.logBlockSize ≤ 2) : mapBlocks fs.geo.perBlock < 2 ^ 32 := by
  have hbs : fs.geo.perBlock ≤ 1024 := by
    rw [Geometry.perBlock, Geometry.blockSize]
    interval_cases fs.geo.logBlockSize <;> decide
  have hsquare := mul_le_mul hbs hbs
  rw [mapBlocks, ndirBlocks]
  omega

/-- A position behind the block map is refused exactly if its block number fits in
32 bits. -/
theorem refused_iff (hpos : mapBlocks fs.geo.perBlock * fs.geo.blockSize ≤ pos) :
    Refused fs inode pos ↔ pos / fs.geo.blockSize < 2 ^ 32 := by
  constructor
  · intro h
    rw [← h.block_fits]
    exact mod_lt _ (by decide)
  · intro hfits
    have hblock : mapBlocks fs.geo.perBlock ≤ pos / fs.geo.blockSize := by
      apply (le_div_iff_mul_le (blockSize_pos _)).mpr
      exact hpos
    have hbeyond : ¬ InMap fs.geo pos := by
      rw [InMap, blockAt, u32_of_lt hfits]
      omega
    exact ⟨fun data _ _ hlen => write_beyond hbeyond hlen data, fun _ _ => read_beyond hbeyond,
      u32_of_lt hfits, u32_of_lt (hblock.trans_lt hfits)⟩

end Beyond

/-- File `a` of the sample volume, as `ext2_iget` loads it. -/
def sampleFile : Inode :=
  createVfsInode ((sample.fs.readInode 12).getD Buf.zero) 12

theorem sampleFile_mem : (Ext2.load sample 12).mem 12 = some sampleFile := rfl

theorem sampleFile_inv : Inv sampleReserved (Ext2.load sample 12) :=
  (Inv.rules _).load_inUse sample_consistent.inv (by decide +kernel)

theorem sampleFile_owned : Owned sampleReserved sample.fs
    (Function.update (live (Ext2.load sample 12)) 12 (some sampleFile.ei)) :=
  sampleFile_inv.owned_self sampleFile_mem

/-- The first position behind the map of file `a` is refused. -/
theorem refused_iff_sample : Refused sample.fs sampleFile (65804 * 1024) :=
  (refused_iff (by decide)).mpr (by decide)

/-- At `2^42`, block `2^32` of 1024 bytes, four bytes are taken and land at the head of
the file. -/
theorem not_refused_of_wrap :
    mapBlocks sample.fs.geo.perBlock * sample.fs.geo.blockSize ≤ 2 ^ 42 ∧
    (write sample.fs sampleFile (fun _ => 1) 4 (2 ^ 42) 0).ret = some 4 ∧
    (read sample.fs sampleFile 4 0).2 = some [0, 0, 0, 0] ∧
    (read (write sample.fs sampleFile (fun _ => 1) 4 (2 ^ 42) 0).fs
      (write sample.fs sampleFile (fun _ => 1) 4 (2 ^ 42) 0).inode 4 0).2 = some [1, 1, 1, 1] ∧
    ¬ Refused sample.fs sampleFile (2 ^ 42) := by
  refine ⟨by decide, by decide +kernel, by decide +kernel, by decide +kernel, fun h => ?_⟩
  have hfits := (refused_iff (by decide)).mp h
  exact absurd hfits (by decide)

end Osx64.Ext2
