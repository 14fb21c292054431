import Osx64.Ext2.OwnedOps

/-!
# Block ownership over whole runs

A run is any sequence of operations on a mounted volume.  From a consistent volume on,
in every state of a run every block a file reaches is marked used, is no metadata, and is
reached once, as long as no call of `ext2_setattr` makes `ext2_truncate_blocks` start
below the array `i_block`.

A size below zero does that.  `sys_ftruncate` lets one through; the second negative size
on one file frees the block whose number is the block *count* of the file, whoever owns
it.
-/

namespace Osx64.Ext2

open Relation Nat Prod Buf

/-! ## Runs -/

/-- The operations. -/
inductive Op
  | create (dir : Nat) (name : List UInt8) (mode : Nat)
  | mkdir (dir : Nat) (name : List UInt8) (mode : Nat)
  | write (ino : Nat) (data : Buf) (len pos : Nat)
  | setattr (ino : Nat) (attr : Option Int)
  | unlink (dir ino : Nat)
  | rmdir (dir ino : Nat)
  | load (ino : Nat)
  | drop (ino : Nat)

/-- One operation at time `now`.  The VFS calls the operations on inodes it has loaded,
and loads inodes that are in use. -/
def Op.run (now : Nat) (st : State) : Op → Except Fault State
  | create dir name mode => (Ext2.create st dir name mode now).map fst
  | mkdir dir name mode => (Ext2.mkdir st dir name mode now).map fst
  | write ino data len pos =>
    match st.mem ino with
    | none => .ok st
    | some inode =>
      let r := Ext2.write st.fs inode data len pos now
      .ok ⟨r.fs, Function.update st.mem ino (some r.inode)⟩
  | setattr ino attr =>
    match st.mem ino with
    | none => .ok st
    | some inode => (Ext2.setattr st.fs inode attr now).map fun (fs, inode, _) =>
      ⟨fs, Function.update st.mem ino (some inode)⟩
  | unlink dir ino => (Ext2.unlink st dir ino now).map fst
  | rmdir dir ino => (Ext2.rmdir st dir ino now).map fst
  | load ino => .ok (if InUse st.fs ino then Ext2.load st ino else st)
  | drop ino => .ok (Ext2.drop st ino)

/-- The operation does not make `ext2_truncate_blocks` start below the array, and no second
copy of an inode is made.  The cache of dentries finds a name that has been looked up; an inode
with a second name is loaded once more under that, and there is one copy of an inode here. -/
def Op.Safe (st : State) : Op → Prop
  | setattr ino (some newSize) => ∀ inode, st.mem ino = some inode →
      newSize < signed inode.size → ¬ Underruns st.fs.geo inode.size newSize
  | load ino => st.mem ino = none
  | _ => True

/-- Some operation leads from `st` to `st'`. -/
def Step (st st' : State) : Prop := ∃ op now, Op.run now st op = .ok st'

/-- Some safe operation leads from `st` to `st'`. -/
def SafeStep (st st' : State) : Prop := ∃ op now, op.Safe st ∧ Op.run now st op = .ok st'

/-! ## What is claimed of a state -/

/-- The inode `ino` in use, in the copy that counts, points to block `b` at position `p`. -/
def Reaches (st : State) (ino : Nat) (p : Pos) (b : Nat) : Prop :=
  ∃ ei, live st ino = some ei ∧ p.Valid st.fs.geo.perBlock ∧ ptr st.fs ei p = b ∧ b ≠ 0

/-- A consistent volume: padding is marked, the marked blocks are the metadata and the
blocks inodes reach, each reached once; copies in memory are those on disk. -/
structure Consistent (reserved : Nat → Prop) (st : State) : Prop where
  mounted : Mounted reserved st.fs
  loaded : ∀ ino inode, st.mem ino = some inode →
    inode.ino = ino ∧ InUse st.fs ino ∧ st.fs.readInode ino = some inode.ei
  used_iff : ∀ b < st.fs.geo.blocksCount,
    st.fs.blockUsed b = true ↔ reserved b ∨ ∃ ino p, Reaches st ino p b
  data : ∀ ino p b, Reaches st ino p b → b < st.fs.geo.blocksCount ∧ ¬ reserved b
  once : ∀ ino p j q b, Reaches st ino p b → Reaches st j q b → ino = j ∧ p = q

/-- Every reachable block is in use, is no metadata, and is reached once; so no block that
is still reachable is ever handed out. -/
structure BlocksOwned (reserved : Nat → Prop) (st : State) : Prop where
  used : ∀ ino p b, Reaches st ino p b → b < st.fs.geo.blocksCount ∧ st.fs.blockUsed b = true
  notMetadata : ∀ ino p b, Reaches st ino p b → ¬ reserved b
  once : ∀ ino p j q b, Reaches st ino p b → Reaches st j q b → ino = j ∧ p = q
  fresh : ∀ b fs', st.fs.allocBlock = some (b, fs') → ∀ ino p, ¬ Reaches st ino p b

section Run

variable {reserved : Nat → Prop} {st st' : State} {ino b : Nat} {p : Pos}

theorem reaches_iff : Reaches st ino p b ↔ own st.fs (live st) (ino, p) = b ∧ b ≠ 0 := by
  constructor
  · rintro ⟨ei, hlive, hp, heq, hne⟩
    exact ⟨(own_eq st.fs hlive hp).trans heq, hne⟩
  · rintro ⟨heq, hne⟩
    have hp : p.Valid st.fs.geo.perBlock := by
      by_contra hp
      exact hne (heq.symm.trans (own_of_not_valid hp))
    cases hlive : live st ino with
    | none =>
      rw [own, hlive] at heq
      exact absurd heq.symm hne
    | some ei => exact ⟨ei, hlive, hp, (own_eq st.fs hlive hp).symm.trans heq, hne⟩

theorem Consistent.inv (h : Consistent reserved st) : Inv reserved st := by
  refine ⟨⟨h.mounted, fun x hx => ?_, fun x y hx hxy => ?_⟩, fun j inode hj => ?_,
    fun j inode ei hj hread => ?_⟩
  · have hreach : Reaches st x.1 x.2 _ := reaches_iff.mpr ⟨rfl, hx⟩
    obtain ⟨hlt, hres⟩ := h.data _ _ _ hreach
    exact ⟨hlt, hres, (h.used_iff _ hlt).mpr (.inr ⟨_, _, hreach⟩)⟩
  · have honce := h.once x.1 x.2 y.1 y.2 _ (reaches_iff.mpr ⟨rfl, hx⟩)
      (reaches_iff.mpr ⟨hxy.symm, hx⟩)
    exact Prod.ext honce.1 honce.2
  · exact ⟨(h.loaded j inode hj).1, (h.loaded j inode hj).2.1⟩
  · rw [(h.loaded j inode hj).2.2, Option.some_inj] at hread
    exact hread ▸ (SameSlots.refl _).subMap

theorem Inv.blocksOwned (h : Inv reserved st) : BlocksOwned reserved st := by
  have hdata : ∀ ino p b, Reaches st ino p b → DataUsed reserved st.fs b := by
    intro ino p b hreach
    obtain ⟨heq, hne⟩ := reaches_iff.mp hreach
    exact heq ▸ h.owned.exclusive.used (ino, p) (heq ▸ hne)
  refine ⟨fun ino p b hr => ⟨(hdata ino p b hr).lt, (hdata ino p b hr).used⟩,
    fun ino p b hr => (hdata ino p b hr).notReserved, fun ino p j q b hr hr' => ?_,
    fun b fs' halloc ino p hr => ?_⟩
  · obtain ⟨heq, hne⟩ := reaches_iff.mp hr
    obtain ⟨heq', -⟩ := reaches_iff.mp hr'
    exact mk.inj (h.owned.exclusive.inj (ino, p) (j, q) (heq ▸ hne) (heq.trans heq'.symm))
  · have hfree := (Fs.allocBlock_spec h.owned.mounted halloc).fresh
    rw [(hdata ino p b hr).used] at hfree
    cases hfree

/-! ## The steps -/

/-- An operation that returns a state and a result. -/
theorem of_map_fst {r : Except Fault (State × Bool)} (h : r.map fst = .ok st') :
    ∃ ok, r = .ok (st', ok) := by
  cases r with
  | error e => cases h
  | ok r =>
    cases h
    exact ⟨r.2, rfl⟩

/-- What the rules ask of one operation. -/
def Op.Granted (Room : Fs → Inode → List UInt8 → Nat → Nat → Prop) (Sized : Inode → Prop)
    (paid : Prop) (now : Nat) (st : State) : Op → Prop
  | create dir name _ => ∀ d ino fs, Called st dir d ino fs → fs.blocks = st.fs.blocks →
      Room fs d name ino ftRegFile
  | mkdir dir name _ => ∀ d ino fs, Called st dir d ino fs → TookBlock st.fs fs →
      Room fs d name ino ftDir
  | write ino data len pos => ∀ inode, st.mem ino = some inode →
      Sized (Ext2.write st.fs inode data len pos now).inode ∧
      (paid → ∀ w stop ok, writeLoop data ⟨st.fs, inode.ei, false⟩ pos len 0 len = (w, stop, ok) →
        Tallies st.fs inode.ei → Tallies w.fs w.ei)
  | setattr ino attr => ∀ inode, st.mem ino = some inode → ∀ newSize, attr = some newSize →
      (newSize < signed inode.size → ¬ Underruns st.fs.geo inode.size newSize) ∧
      (newSize ≠ signed inode.size → ∀ ei, Sized { inode with
        size := (newSize % 2 ^ 64).toNat, ei := touch (setISize ei (newSize % 2 ^ 32).toNat) now })
  | _ => True

/-- What has the rules is kept by every operation they are granted for. -/
theorem Rules.step {Room : Fs → Inode → List UInt8 → Nat → Nat → Prop} {Sized : Inode → Prop}
    {paid : Prop} {K : State → Prop} (hr : Rules reserved Room Sized paid K)
    (hk : Kept reserved Room K) (h : K st) {op : Op} {now : Nat}
    (hgranted : op.Granted Room Sized paid now st) (hrun : Op.run now st op = .ok st') : K st' := by
  cases op with
  | create dir name mode =>
    obtain ⟨ok, hrun⟩ := of_map_fst hrun
    exact hr.create h hgranted hrun
  | mkdir dir name mode =>
    obtain ⟨ok, hrun⟩ := of_map_fst hrun
    exact hr.mkdir h hgranted hrun
  | write ino data len pos =>
    rw [Op.run] at hrun
    cases hmem : st.mem ino with
    | none => rw [hmem] at hrun; cases hrun; exact h
    | some inode =>
      rw [hmem] at hrun
      cases hrun
      exact hr.write h hmem data len pos now (hgranted inode hmem).1 (hgranted inode hmem).2
  | setattr ino attr =>
    rw [Op.run] at hrun
    cases hmem : st.mem ino with
    | none => rw [hmem] at hrun; cases hrun; exact h
    | some inode =>
      obtain ⟨fs', inode', heq, hafter⟩ := hr.setattr h hmem attr now
        (fun newSize hattr => (hgranted inode hmem newSize hattr).1)
        (fun newSize hattr => (hgranted inode hmem newSize hattr).2)
      rw [hmem] at hrun
      dsimp only at hrun
      rw [heq] at hrun
      cases hrun
      exact hafter
  | unlink dir ino =>
    obtain ⟨ok, hrun⟩ := of_map_fst hrun
    exact hk.unlink h hrun
  | rmdir dir ino =>
    obtain ⟨ok, hrun⟩ := of_map_fst hrun
    exact hk.rmdir h hrun
  | load ino =>
    cases hrun
    split
    · next hin => exact hr.load_inUse h hin
    · exact h
  | drop ino =>
    cases hrun
    exact hr.drop h ino

/-- Every safe operation keeps the invariant. -/
theorem Inv.step (h : Inv reserved st) (hstep : SafeStep st st') : Inv reserved st' := by
  obtain ⟨op, now, hsafe, hrun⟩ := hstep
  refine (Inv.rules reserved).step (Inv.kept reserved) h ?_ hrun
  cases op with
  | create | mkdir => exact fun _ _ _ _ _ => trivial
  | write ino data len pos => exact fun _ _ => ⟨trivial, False.elim⟩
  | setattr ino attr => exact fun inode hmem newSize hattr =>
    ⟨(hattr ▸ hsafe : Op.Safe st (.setattr ino (some newSize))) inode hmem, fun _ _ => trivial⟩
  | _ => trivial

theorem Inv.run (h : Inv reserved st) (hrun : ReflTransGen SafeStep st st') :
    Inv reserved st' := by
  induction hrun with
  | refl => exact h
  | tail _ hstep ih => exact ih.step hstep

/-- In every state of every run of safe operations from a consistent volume, the blocks
files reach are in use, are no metadata, and are reached once. -/
theorem blocksOwned_of_safe_run (hinit : Consistent reserved st)
    (hrun : Relation.ReflTransGen SafeStep st st') : BlocksOwned reserved st' :=
  (hinit.inv.run hrun).blocksOwned

end Run

/-! ## A small volume -/

/-- One group of 16 blocks of 1024 bytes after the boot block: superblock, descriptors,
two bitmaps, two blocks of inodes, and ten data blocks. -/
def sampleGeo : Geometry where
  blocksCount := 17
  firstDataBlock := 1
  logBlockSize := 0
  blocksPerGroup := 8192
  inodesPerGroup := 16
  inodeSize := 128
  groupCount := 1
  bgBlockBitmap _ := 3
  bgInodeBitmap _ := 4
  bgInodeTable _ := 5
  sectorCount := 34

/-- Its metadata. -/
def sampleReserved (b : Nat) : Prop := b ≤ 6

/-- An inode of the given mode and size with direct blocks only. -/
def sampleInode (mode size : Nat) (slots : List Nat) : Buf :=
  slots.zipIdx.foldl (fun ei (b, k) => setIBlock ei k b)
    (setIBlocks (setISize (newInode mode 1 0) size) (2 * slots.length))

/-- The root directory (inode 2) has block 7, the file `a` (inode 12) the blocks 9 to 12,
and the file `b` (inode 13) block 8. -/
def sampleRoot : Buf :=
  let b := putEntry (putRecLen zero 0 12) 0 2 ftDir [46]
  let b := putEntry (putRecLen b 12 12) 12 2 ftDir [46, 46]
  let b := putEntry (putRecLen b 24 12) 24 12 ftRegFile [97]
  putEntry (putRecLen b 36 988) 36 13 ftRegFile [98]

def sampleDisk : Nat → Buf
  | 2 => zero.put32 8 5
  | 5 => zero.blit 128 (sampleInode 0x41ed 1024 [7]) inodeBytes
  | 6 => (zero.blit 384 (sampleInode 0x81a4 4096 [9, 10, 11, 12]) inodeBytes).blit 512
      (sampleInode 0x81a4 1024 [8]) inodeBytes
  | 7 => sampleRoot
  | _ => zero

/-- The volume right after mounting, with no inode loaded.  Blocks 13 to 16 and the inodes
14 to 16 are free. -/
def sample : State where
  fs :=
    { geo := sampleGeo
      disk := sampleDisk
      blocks := ⟨fun _ j => if j = 1 then 0x0f else 0xff, fun _ => 4, 4⟩
      inodes := ⟨fun _ j => if j = 1 then 0x1f else 0xff, fun _ => 3, 3⟩
      usedDirs := fun _ => 1 }
  mem _ := none

/-- The slots of its inodes. -/
def sampleSlot (ino k : Nat) : Nat :=
  if ino = 12 ∧ k < 4 then 9 + k
  else if ino = 13 ∧ k = 0 then 8
  else if ino = 2 ∧ k = 0 then 7
  else 0

theorem sample_layout : Layout sampleGeo sampleReserved where
  logBlockSize_le := by decide
  inodeSize_ge := by decide
  inodeSize_le := by decide
  blocksPerGroup_pos := by decide
  blocksPerGroup_le := by decide
  inodesPerGroup_pos := by decide
  inodesPerGroup_le := by decide
  inodes_lt := by decide
  covered := by decide
  onDevice := by decide
  sectorCount_lt := by decide
  reserved_lt b hb := by simp only [sampleReserved, sampleGeo] at *; omega
  reserved_zero := by simp [sampleReserved]
  reserved_low b hb := by simp only [sampleReserved, sampleGeo] at *; omega
  reserved_desc := by unfold sampleReserved; decide
  reserved_blockBitmap := by unfold sampleReserved; decide
  reserved_inodeBitmap := by unfold sampleReserved; decide
  reserved_table := by unfold sampleReserved; decide
  blockBitmap_ne_desc := by decide
  inodeBitmap_ne_desc := by decide
  blockBitmap_ne_table := by decide
  inodeBitmap_ne_table := by decide
  table_ne_desc := by decide
  table_disjoint g hg _ _ h hh _ _ hne := by simp only [sampleGeo] at hg hh; omega

/-- A bitmap of ones from its third byte on. -/
theorem bit_of_ge {b : Buf} (hb : ∀ j, 2 ≤ j → b j = 0xff) {i : Nat} (hi : 16 ≤ i) :
    b.bit i = true := by
  have hlt : i % 8 < 8 := mod_lt _ (by decide)
  rw [Buf.bit, hb (i / 8) (by omega)]
  generalize i % 8 = k at hlt
  revert k
  decide

theorem sample_mounted : Mounted sampleReserved sample.fs where
  layout := sample_layout
  paddedBlocks g _ i _ hpad := by
    refine bit_of_ge (fun j hj => if_neg (by omega)) ?_
    simp only [sample, sampleGeo] at *
    omega
  paddedInodes g _ i _ hpad := bit_of_ge (fun j hj => if_neg (by omega)) hpad
  reserved_used := by
    have h : ∀ b < 7, sample.fs.blockUsed b = true := by decide
    exact fun b hb => h b (lt_succ_of_le hb)
  descs := by decide

theorem sample_live {ino : Nat} {ei : Buf} (h : live sample ino = some ei) {k : Nat}
    (hk : k < 14) : iBlock ei k = sampleSlot ino k := by
  have hin : InUse sample.fs ino := by
    by_contra hin
    rw [live_of_not hin] at h
    cases h
  have hslots : ∀ ino < 17, ∀ k < 14,
      ((live sample ino).map fun ei => iBlock ei k).getD (sampleSlot ino k) = sampleSlot ino k := by
    decide +kernel
  have hslot := hslots ino (lt_succ_of_le hin.1.2) k hk
  rwa [h] at hslot

theorem sampleSlot_cases {ino k : Nat} (h : sampleSlot ino k ≠ 0) :
    (ino = 12 ∧ k < 4 ∧ sampleSlot ino k = 9 + k) ∨ (ino = 13 ∧ k = 0 ∧ sampleSlot ino k = 8) ∨
      (ino = 2 ∧ k = 0 ∧ sampleSlot ino k = 7) := by
  unfold sampleSlot at *
  split_ifs at * <;> omega

theorem sample_reaches {ino b : Nat} {p : Pos} (h : Reaches sample ino p b) :
    p = ⟨p.slot, []⟩ ∧ sampleSlot ino p.slot = b ∧ b ≠ 0 := by
  obtain ⟨ei, hlive, hp, heq, hne⟩ := h
  have hslot := sample_live hlive hp.slot_lt
  have h0 : sampleSlot ino p.slot ≠ 0 := fun h0 =>
    hne (heq.symm.trans (ptr_of_slot_eq (hslot.trans h0)))
  have hdirect : p.slot < ndirBlocks := by
    have hcases := sampleSlot_cases h0
    unfold ndirBlocks
    omega
  obtain ⟨slot, path⟩ := p
  have hpath : path = [] := by
    have hlen := hp.depth
    simpa [slotLevel, hdirect] using hlen
  subst hpath
  exact ⟨rfl, hslot.symm.trans heq, hne⟩

theorem sample_reaches_slot {ino k : Nat} (h : sampleSlot ino k ≠ 0) :
    Reaches sample ino ⟨k, []⟩ (sampleSlot ino k) := by
  have hcases := sampleSlot_cases h
  have hlive : ∀ ino ∈ [2, 12, 13], (live sample ino).isSome := by decide +kernel
  obtain ⟨ei, hei⟩ := Option.isSome_iff_exists.mp (hlive ino (by simp; omega))
  have hk : k < 14 := by omega
  exact ⟨ei, hei, ⟨hk, zero_le _, by simp⟩, sample_live hei hk, h⟩

theorem sample_consistent : Consistent sampleReserved sample where
  mounted := sample_mounted
  loaded _ _ h := by cases h
  used_iff := by
    intro b hb
    constructor
    · intro hused
      have hle : ∀ b < 17, sample.fs.blockUsed b = true → b ≤ 12 := by decide
      have hb12 := hle b hb hused
      rcases lt_or_ge b 7 with hlow | hlow
      · exact .inl (le_of_lt_succ hlow)
      obtain ⟨ino, k, hslot⟩ : ∃ ino k, sampleSlot ino k = b := by
        interval_cases b
        exacts [⟨2, 0, rfl⟩, ⟨13, 0, rfl⟩, ⟨12, 0, rfl⟩, ⟨12, 1, rfl⟩, ⟨12, 2, rfl⟩, ⟨12, 3, rfl⟩]
      exact .inr ⟨ino, ⟨k, []⟩, hslot ▸ sample_reaches_slot (by omega)⟩
    · have hall : ∀ b < 13, sample.fs.blockUsed b = true := by decide
      rintro (hres | ⟨ino, p, h⟩)
      · exact sample_mounted.reserved_used b hres
      · obtain ⟨-, heq, hne⟩ := sample_reaches h
        have hcases := sampleSlot_cases (heq ▸ hne)
        exact hall b (by omega)
  data ino p b h := by
    obtain ⟨-, heq, hne⟩ := sample_reaches h
    have hcases := sampleSlot_cases (heq ▸ hne)
    simp only [sample, sampleGeo, sampleReserved]
    omega
  once ino p j q b h h' := by
    obtain ⟨hp, heq, hne⟩ := sample_reaches h
    obtain ⟨hq, heq', -⟩ := sample_reaches h'
    have hcases := sampleSlot_cases (heq ▸ hne)
    have hcases' := sampleSlot_cases (heq' ▸ hne)
    have hslot : ino = j ∧ p.slot = q.slot := by omega
    exact ⟨hslot.1, by rw [hp, hq, hslot.2]⟩

/-- File `a` is extended by one block, with one safe step. -/
theorem blocksOwned_of_safe_run_sample :
    ∃ st', Relation.ReflTransGen SafeStep sample st' ∧ BlocksOwned sampleReserved st' := by
  have hload : SafeStep sample (Ext2.load sample 12) := ⟨.load 12, 0, rfl, rfl⟩
  have hwrite : SafeStep (Ext2.load sample 12) _ :=
    ⟨.write 12 (fun _ => 1) 10 4096, 1, trivial, rfl⟩
  have hrun := (ReflTransGen.single hload).tail hwrite
  exact ⟨_, hrun, blocksOwned_of_safe_run sample_consistent hrun⟩

/-- A function of the state after two calls of `ext2_setattr` on file `a`. -/
def afterTwo {α : Type} (first second : Int) (f : State → α) : Except Fault α :=
  (Op.run 0 (Ext2.load sample 12) (.setattr 12 (some first))).bind fun st =>
    (Op.run 0 st (.setattr 12 (some second))).map f

theorem afterTwo_eq_ok {α : Type} {first second : Int} {f : State → α} {a : α}
    (h : afterTwo first second f = .ok a) :
    ∃ st', ReflTransGen Step sample st' ∧ f st' = a := by
  have hload : Step sample (Ext2.load sample 12) := ⟨.load 12, 0, rfl⟩
  unfold afterTwo at h
  cases hfirst : Op.run 0 (Ext2.load sample 12) (.setattr 12 (some first)) with
  | error e => rw [hfirst] at h; cases h
  | ok st₁ =>
    rw [hfirst, Except.bind] at h
    cases hsecond : Op.run 0 st₁ (.setattr 12 (some second)) with
    | error e => rw [hsecond] at h; cases h
    | ok st₂ =>
      rw [hsecond] at h
      cases h
      exact ⟨st₂, ((ReflTransGen.single hload).tail ⟨_, 0, hfirst⟩).tail
        ⟨_, 0, hsecond⟩, rfl⟩

/-- The sizes -3000 and -4500 free block 8, the only block of file `b`: with the second
one `ext2_truncate_blocks` starts at `i_block[-3]`, which is the field `i_blocks`. -/
theorem not_blocksOwned_of_negative_size : Consistent sampleReserved sample ∧
    ∃ st', Relation.ReflTransGen Step sample st' ∧ ¬ BlocksOwned sampleReserved st' := by
  have hspoil : afterTwo (-3000) (-4500) (fun st => (st.fs.blockUsed 8,
      (live st 13).map fun ei => iBlock ei 0)) = .ok (false, some 8) := by
    decide +kernel
  obtain ⟨st', hrun, hfacts⟩ := afterTwo_eq_ok hspoil
  obtain ⟨hfree, hslot⟩ := mk.inj hfacts
  obtain ⟨ei, hlive, h8⟩ := Option.map_eq_some_iff.mp hslot
  have hreach : Reaches st' 13 ⟨0, []⟩ 8 :=
    ⟨ei, hlive, ⟨by decide, zero_le _, by simp⟩, h8, by decide⟩
  refine ⟨sample_consistent, st', hrun, fun h => ?_⟩
  have hused := (h.used 13 ⟨0, []⟩ 8 hreach).2
  rw [hfree] at hused
  cases hused

end Osx64.Ext2
