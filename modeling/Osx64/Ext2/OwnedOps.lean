import Osx64.Ext2.Live
import Osx64.Ext2.Tally

/-!
# Every operation keeps the blocks owned

Each operation on a mounted volume with loaded inodes keeps `Inv`, whether it succeeds
or not; for `ext2_setattr` this needs that `ext2_truncate_blocks` does not start below
the array `i_block`.

An operation that makes a new inode goes through states in which the number is taken
and nothing is on disk for it yet.  `Drafted` describes these; `Drafted.commit` and
`Drafted.abort` lead back to `Inv`.

The operations on names are made of a few parts.  `Kept` has a rule for each part, and
`Kept.create`, `Kept.mkdir`, `Kept.unlink` and `Kept.rmdir` follow the operations with these
rules alone, for any property of states; `Inv` is one of them (`Inv.kept`).
-/

namespace Osx64.Ext2

open Function Option Finset Buf Nat Ext2.Fs Work

/-! ## Writing and resizing -/

variable {inode' : Inode} {fs₁ fs₂ : Fs} {B : Nat → Prop} {f g : Inode → Inode} {mode : Nat}

section FileOps

variable {reserved : Nat → Prop} {st : State} {ino : Nat} {inode : Inode} {S D : Pos → Prop}
  {fs fs' : Fs}

theorem Grew.subMap {ei ei' : Buf} (h : Grew reserved S D fs ei fs' ei') :
    SubMap ei ei' := by
  intro k hk
  have hroot := @Pos.valid_root fs.geo.perBlock k hk
  by_cases h0 : iBlock ei k = 0
  · exact .inl h0
  · exact .inr (h.keep ⟨k, []⟩ hroot h0).symm

theorem Grew.apart {L : Nat → Option Buf} {ei ei' : Buf} (h : Grew reserved S D fs ei fs' ei')
    (ho : Owned reserved fs (update L ino (some ei))) : Apart fs L ino fs' :=
  ho.apart fun c hc hne => h.disk c hc fun q hq _ => hne q hq

/-- The map of a loaded inode has been extended, in memory only. -/
theorem Inv.extend (h : Inv reserved st) (hmem : st.mem ino = some inode) (inode' : Inode)
    (hi : inode'.ino = ino) {fs' : Fs} (hgrew : Grew reserved S D st.fs inode.ei fs' inode'.ei)
    (howned : Owned reserved fs' (update (live st) ino (some inode'.ei))) :
    Elsewhere st ino ⟨fs', update st.mem ino (some inode')⟩ ∧
      Inv reserved ⟨fs', update st.mem ino (some inode')⟩ := by
  have hin := (h.loaded ino inode hmem).2
  have htables : ∀ j, ValidIno st.fs.geo j → j ≠ ino → fs'.readInode j = st.fs.readInode j :=
    fun j hj _ => hgrew.tables j hj
  refine ⟨Elsewhere.store st ino _ hgrew.geo hgrew.inodes htables,
    h.amend hin hi howned hgrew.geo hgrew.inodes htables fun ei hread => ?_⟩
  rw [hgrew.tables ino hin.1] at hread
  exact (h.synced ino inode ei hmem hread).trans hgrew.subMap

/-- Data of inode `ino` has been written; its copy in memory is going to be `inode'`, which is not
yet on disk. -/
structure Staged (reserved : Nat → Prop) (st : State) (ino : Nat) (inode' : Inode) (fs₁ : Fs) :
    Prop where
  ino_eq : inode'.ino = ino
  owned : Owned reserved fs₁ (update (live st) ino (some inode'.ei))
  geo : fs₁.geo = st.fs.geo
  inodes : fs₁.inodes = st.fs.inodes
  tables : ∀ j, ValidIno st.fs.geo j → fs₁.readInode j = st.fs.readInode j
  apart : Apart st.fs (live st) ino fs₁

section

variable (hs : Staged reserved st ino inode' fs₁) (h : Inv reserved st)
  (hmem : st.mem ino = some inode)
include hs h hmem

theorem Staged.stored :
    ∃ fs', fs₁.writeInode ino inode'.ei = some fs' ∧
      Elsewhere st ino ⟨fs', update st.mem ino (some inode')⟩ ∧
      Inv reserved ⟨fs', update st.mem ino (some inode')⟩ :=
  h.commit hmem inode' hs.ino_eq hs.owned hs.geo hs.inodes fun j hj _ => hs.tables j hj

theorem Staged.commit {fs' : Fs} (hrun : fs₁.writeInode ino inode'.ei = some fs') :
    Elsewhere st ino ⟨fs', update st.mem ino (some inode')⟩ ∧
      Inv reserved ⟨fs', update st.mem ino (some inode')⟩ := by
  obtain ⟨fs'', hrun', hdone⟩ := hs.stored h hmem
  obtain rfl : fs' = fs'' := some_inj.mp (hrun.symm.trans hrun')
  exact hdone

end

theorem Fs.putInode_eq {ei : Buf} (h : fs.writeInode ino ei = some fs') :
    fs.putInode ino ei = fs' := by
  rw [putInode, h, getD_some]

end FileOps

/-! ## Bitmaps and the inode table -/

section Frames

variable {reserved : Nat → Prop} {st : State} {ino j : Nat} {inode : Inode} {fs fs' : Fs}
  {L : Nat → Option Buf}

theorem OnlyBlockBitmap.tables (h : OnlyBlockBitmap fs fs') (hm : Mounted reserved fs)
    (hm' : Mounted reserved fs') (hj : ValidIno fs.geo j) :
    fs'.readInode j = fs.readInode j :=
  hm.tables hm' h.geo (fun c _ hc => h.disk c hc) hj

section

variable (h : OnlyInodeBitmap fs fs')
include h

theorem OnlyInodeBitmap.tables (hm : Mounted reserved fs)
    (hm' : Mounted reserved fs') (hj : ValidIno fs.geo j) :
    fs'.readInode j = fs.readInode j := by
  refine readInode_congr hm hm' h.geo (fun g hg k hk => ?_) hj
  exact h.disk _ fun i hi => (hm.layout.inodeBitmap_ne_table i hi g hg k hk).symm

theorem OnlyInodeBitmap.disk_data (hgeo : Layout fs.geo reserved)
    {c : Nat} (hc : ¬ reserved c) : fs'.disk c = fs.disk c := by
  apply h.disk c
  intro g hg heq
  exact hc (heq ▸ hgeo.reserved_inodeBitmap g hg)

theorem OnlyInodeBitmap.owned (hm' : Mounted reserved fs')
    (ho : Owned reserved fs L) : Owned reserved fs' L := by
  refine ho.sameData hm' h.geo (fun c hc => ?_) fun c hc => ?_
  · exact h.disk_data ho.mounted.layout hc.notReserved
  · rw [blockUsed, h.blocks, h.geo]
    exact hc

end

/-- Blocks of inode `ino` are freed, and then its number. -/
theorem Inv.giveUp (h : Inv reserved st) (hin : InUse st.fs ino) {ei : Buf}
    (hlive : live st ino = some ei) (hfreed : Freed reserved st.fs B fs₁)
    (hB : ∀ c, B c → ∃ p : Pos, p.Valid st.fs.geo.perBlock ∧ ptr st.fs ei p = c)
    (hm₂ : Mounted reserved fs₂) (hgeo : fs₂.geo = fs₁.geo) (hblocks : fs₂.blocks = fs₁.blocks)
    (hinodes : fs₂.inodes = fs₁.inodes) (hdisk : ∀ c, ¬ reserved c → fs₂.disk c = fs₁.disk c)
    (htables : ∀ j, ValidIno fs₁.geo j → j ≠ ino → fs₂.readInode j = fs₁.readInode j) :
    Gone st ino ⟨fs₂.freeInode ino, update st.mem ino none⟩ ∧
      Inv reserved ⟨fs₂.freeInode ino, update st.mem ino none⟩ := by
  have hm := h.owned.mounted
  have hgeo₂ := hgeo.trans hfreed.frame.geo
  obtain ⟨hused, hframe, hm'⟩ := freeInode_spec hm₂ hin.1.1 (hgeo₂ ▸ hin.1.2)
  have hsame : ∀ c, DataUsed reserved st.fs c → fs₂.disk c = st.fs.disk c := fun c hc => by
    rw [hdisk c hc.notReserved, hfreed.disk hm hc.notReserved]
  refine h.forget (fun j => ?_) (hframe.geo.trans hgeo₂) ?_ (fun j hj hne => ?_)
    (hframe.owned hm' ?_)
  · rw [hused, inodeUsed, inodeUsed, hinodes, hfreed.frame.inodes, hgeo₂]
  · exact h.owned.apart_of_data fun c hc =>
      (hframe.disk_data hm₂.layout hc.notReserved).trans (hsame c hc)
  · rw [hframe.tables hm₂ hm' (hgeo₂ ▸ hj), htables j (hfreed.frame.geo ▸ hj) hne,
      hfreed.frame.tables hm hfreed.mounted hj]
  · have howned : Owned reserved st.fs (update (live st) ino (some ei)) := by
      rw [← hlive, update_eq_self]
      exact h.owned
    refine howned.discard hm₂ hgeo₂ hsame fun c hc hne => ?_
    have hkept := (hfreed.used c).mpr ⟨hc, fun hb => ?_⟩
    · rw [blockUsed, hblocks, hgeo]
      exact hkept
    · obtain ⟨p, hp, heq⟩ := hB c hb
      exact hne p hp heq

/-- `ext2_free_inode` of an inode that is not loaded, after freeing blocks of it. -/
theorem Inv.giveBack (h : Inv reserved st) (hin : InUse st.fs ino) (hmem : st.mem ino = none)
    {ei : Buf} (hread : st.fs.readInode ino = some ei) (hfreed : Freed reserved st.fs B fs₁)
    (hB : ∀ c, B c → ∃ p : Pos, p.Valid st.fs.geo.perBlock ∧ ptr st.fs ei p = c) :
    Gone st ino ⟨fs₁.freeInode ino, st.mem⟩ ∧ Inv reserved ⟨fs₁.freeInode ino, st.mem⟩ := by
  have hlive := (live_of_disk hin hmem).trans hread
  have hinv := h.giveUp hin hlive hfreed hB hfreed.mounted rfl rfl rfl (fun _ _ => rfl)
    fun _ _ _ => rfl
  rwa [← hmem, update_eq_self] at hinv

/-- `ext2_delete` of a loaded inode without links. -/
theorem Inv.delete (h : Inv reserved st) (hmem : st.mem ino = some inode)
    (hlinks : inode.linkCount = 0) :
    Gone st ino ⟨Ext2.delete st.fs inode, update st.mem ino none⟩ ∧
      Inv reserved ⟨Ext2.delete st.fs inode, update st.mem ino none⟩ := by
  obtain ⟨rfl, hin⟩ := h.loaded ino inode hmem
  rw [Ext2.delete, if_pos hlinks]
  have hfreed := freeAllBlocks_spec (h.owned_self hmem)
  obtain ⟨fs₂, hrun, hw⟩ := writeInode_spec hfreed.mounted (hfreed.frame.geo ▸ hin.1) zero
  rw [putInode_eq hrun]
  exact h.giveUp hin (live_of_mem hin hmem) hfreed (fun c ⟨p, hp, heq, _⟩ => ⟨p, hp, heq⟩)
    hw.mounted hw.geo hw.blocks hw.inodes hw.disk hw.other

end Frames

/-! ## Directories -/

section Directory

variable {reserved : Nat → Prop} {st : State} {dirIno ino type l block : Nat} {dir dir' : Inode}
  {name : List UInt8} {fs' : Fs} {ok : Bool}

/-- The block number `-1` is never on the device. -/
theorem Fs.readBlock_minusOne {fs : Fs} (hgeo : Layout fs.geo reserved) :
    fs.readBlock minusOne = none := by
  have hlba : fs.geo.lba minusOne + fs.geo.sectorsPerBlock = 2 ^ 32 := by
    have hcases := hgeo.blockSize_cases
    simp only [Geometry.lba, Geometry.sectorsPerBlock, minusOne, u32]
    omega
  have hlt := hgeo.sectorCount_lt
  rw [readBlock, if_neg]
  rw [Geometry.inPartition]
  omega

/-- A block of a directory that can be read is at the position of its logical block. -/
theorem Owned.bmap_leaf {L : Nat → Option Buf} {fs : Fs} {ei b : Buf}
    (h : Owned reserved fs L) (hlive : L ino = some ei)
    (hread : fs.readBlock (bmap fs ei l) = some b) :
    l < mapBlocks fs.geo.perBlock ∧ ptr fs ei (leafPos fs.geo.perBlock l) = bmap fs ei l := by
  by_cases hl : l < mapBlocks fs.geo.perBlock
  · exact ⟨hl, (h.bmap_eq hlive hl).symm⟩
  · rw [Owned.bmap_beyond (Nat.le_of_not_lt hl), readBlock_minusOne h.mounted.layout] at hread
    cases hread

/-- Blocks of the map have been written, and no pointer has changed. -/
structure Rewrote (reserved : Nat → Prop) (live : Nat → Option Buf) (ino : Nat) (fs : Fs)
    (ei : Buf) (fs' : Fs) : Prop where
  grew : Grew reserved (fun _ => False) (fun _ => True) fs ei fs' ei
  owned : Owned reserved fs' (update live ino (some ei))

/-- Writing back a block a directory search has found. -/
theorem Inv.writeFound (h : Inv reserved st) (hmem : st.mem dirIno = some dir) {α : Type}
    {visit : Buf → Option Nat → Nat → Except Fault (Option α)} {blocks : List Nat} {a : α}
    (hscan : scanDir st.fs dir.ei visit blocks = .ok (.here (block, a))) (buf : Buf) :
    ∃ fs', st.fs.writeBlock block buf = some fs' ∧
      Rewrote reserved (live st) dirIno st.fs dir.ei fs' := by
  have howned := h.owned_self hmem
  have hlive : update (live st) dirIno (some dir.ei) dirIno = some dir.ei :=
    update_self _ _ _
  obtain ⟨l, -, rfl, hne, b, hread, -⟩ := scanDir_here hscan
  obtain ⟨hl, hptr⟩ := howned.bmap_leaf hlive hread
  have hvalid := leafPos_valid hl
  have hdata := howned.dataUsed hlive hvalid (hptr ▸ hne)
  obtain ⟨hgrew, howned'⟩ := writeLeaf_spec (S := fun _ => False) (D := fun _ => True) howned
    hvalid (leafPos_leaf _ l) (hptr ▸ hne) trivial buf rfl
  rw [hptr] at hdata hgrew howned'
  exact ⟨_, writeBlock_eq h.owned.mounted.layout hdata.lt buf, hgrew, howned'⟩

/-- `ext2_dir_add_entry` finds no place for the record in the blocks of the directory. -/
def NoPlace (fs : Fs) (dir : Inode) (name : List UInt8) (ino type : Nat) : Prop :=
  scanDir fs dir.ei (placeEntry fs.geo.blockSize ino type name) (dirBlocks fs dir) = .ok .missing

/-- What `ext2_dir_add_entry` comes to: it writes a block of the directory or nothing; or it
asks for a new block and gets none; or it writes the new block, and the inode. -/
theorem Inv.dirAddEntry_cases (h : Inv reserved st) (hmem : st.mem dirIno = some dir)
    {w : Work} {result : Option Nat}
    (hbmap : (⟨st.fs, dir.ei, false⟩ : Work).bmapAlloc (sizeBlocks st.fs.geo dir.size) =
      (w, result))
    (hrun : Ext2.dirAddEntry st.fs dir name ino type = .ok (fs', dir', ok)) :
    (dir' = dir ∧ Rewrote reserved (live st) dirIno st.fs dir.ei fs') ∨
    (NoPlace st.fs dir name ino type ∧ result = none ∧ fs' = w.fs ∧
      dir' = { dir with ei := w.ei }) ∨
    (result ≠ none ∧ dir' =
        { dir with
          size := u64 (dir.size + st.fs.geo.blockSize)
          ei := setISize w.ei (u32 (u64 (dir.size + st.fs.geo.blockSize))) } ∧
      ∃ fs₁, Rewrote reserved (live st) dirIno w.fs w.ei fs₁ ∧
        fs' = fs₁.putInode dirIno dir'.ei) := by
  obtain ⟨rfl, hin⟩ := h.loaded dirIno dir hmem
  have howned := h.owned_self hmem
  unfold Ext2.dirAddEntry at hrun
  cases hscan : scanDir st.fs dir.ei (placeEntry st.fs.geo.blockSize ino type name)
      (dirBlocks st.fs dir) with
  | error e => simp only [hscan] at hrun; cases hrun
  | ok found =>
    simp only [hscan, hbmap] at hrun
    cases found with
    | here a =>
      obtain ⟨fs₁, hwrite, hre⟩ := h.writeFound hmem hscan a.2
      simp only [hwrite] at hrun
      cases hrun
      exact .inl ⟨rfl, hre⟩
    | ioError =>
      cases hrun
      exact .inl ⟨rfl, Grew.refl reserved _ _ _ _, howned⟩
    | missing =>
      have hens := bmapAlloc_spec (w := ⟨st.fs, dir.ei, false⟩) howned
        (sizeBlocks st.fs.geo dir.size)
      have hlt := @bmapAlloc_lt ⟨st.fs, dir.ei, false⟩ (sizeBlocks st.fs.geo dir.size)
      rw [hbmap] at hens hlt
      generalize hl : sizeBlocks st.fs.geo dir.size = l at hens hlt
      cases result with
      | none =>
        cases hrun
        exact .inr (.inl ⟨hscan, rfl, rfl, rfl⟩)
      | some b =>
        obtain ⟨hb0, hptr⟩ := hens.result b rfl
        have hgeo : w.fs.geo = st.fs.geo := hens.grew.geo
        have hvalid : (leafPos st.fs.geo.perBlock l).Valid w.fs.geo.perBlock := by
          rw [hgeo]
          exact leafPos_valid (hlt rfl)
        have hne : ptr w.fs w.ei (leafPos st.fs.geo.perBlock l) ≠ 0 := hptr ▸ hb0
        have hdata := hens.owned.data hvalid hne
        have hb : b ≠ minusOne :=
          (bmapAlloc_data (w := ⟨st.fs, dir.ei, false⟩) howned (by rw [hbmap])).2
        simp only [getD_some, hb, if_false] at hrun
        by_cases hlong : st.fs.geo.blockSize < 8 + name.length
        · simp only [hlong, if_true] at hrun
          cases hrun
        simp only [hlong, if_false] at hrun
        generalize newDirBlock st.fs.geo.blockSize ino type name = buf at hrun
        obtain ⟨hgrew, howned'⟩ := writeLeaf_spec (S := fun _ => False)
          (D := fun _ => True) hens.owned hvalid (leafPos_leaf _ l) hne trivial buf rfl
        rw [hptr] at hdata hgrew howned'
        simp only [writeBlock_eq hens.owned.mounted.layout hdata.lt] at hrun
        cases hrun
        exact .inr (.inr ⟨by simp, rfl, _, ⟨hgrew, howned'⟩, rfl⟩)

/-- The directory has grown by one block, and the new record has been written there. -/
theorem Ensured.staged {S : Pos → Prop} {target : Pos} {r : Work × Option Nat}
    (h : Ensured reserved (live st) dirIno S target ⟨st.fs, dir.ei, false⟩ r)
    (howned : Owned reserved st.fs (update (live st) dirIno (some dir.ei)))
    (hi : dir.ino = dirIno) (hre : Rewrote reserved (live st) dirIno r.1.fs r.1.ei fs₁)
    (size v : Nat) : Staged reserved st dirIno { dir with size, ei := setISize r.1.ei v } fs₁ where
  ino_eq := hi
  owned := hre.owned.sameSlots (sameSlots_setISize _ _)
  geo := hre.grew.geo.trans h.grew.geo
  inodes := hre.grew.inodes.trans h.grew.inodes
  tables j hj := by
    have hgeo : r.1.fs.geo = st.fs.geo := h.grew.geo
    rw [hre.grew.tables j (hgeo.symm ▸ hj), h.grew.tables j hj]
  apart := (h.grew.apart howned).trans (hre.grew.apart h.owned) h.grew.geo

section

variable (h : Inv reserved st) (hmem : st.mem dirIno = some dir)
include h hmem

theorem Inv.dirAddEntry (hrun : Ext2.dirAddEntry st.fs dir name ino type = .ok (fs', dir', ok)) :
    Elsewhere st dirIno ⟨fs', update st.mem dirIno (some dir')⟩ ∧
      Inv reserved ⟨fs', update st.mem dirIno (some dir')⟩ := by
  have hi := (h.loaded dirIno dir hmem).1
  have hens := bmapAlloc_spec (w := ⟨st.fs, dir.ei, false⟩) (h.owned_self hmem)
    (sizeBlocks st.fs.geo dir.size)
  cases hbmap : (⟨st.fs, dir.ei, false⟩ : Work).bmapAlloc (sizeBlocks st.fs.geo dir.size) with
  | mk w result =>
  rw [hbmap] at hens
  rcases h.dirAddEntry_cases hmem hbmap hrun with
    ⟨rfl, hre⟩ | ⟨-, -, rfl, rfl⟩ | ⟨-, rfl, fs₁, hre, rfl⟩
  · exact h.extend hmem dir' hi hre.grew hre.owned
  · -- failing after the search changes the copy in memory only
    exact h.extend hmem { dir with ei := w.ei } hi hens.grew hens.owned
  · have hstaged := hens.staged (h.owned_self hmem) hi hre (u64 (dir.size + st.fs.geo.blockSize))
      (u32 (u64 (dir.size + st.fs.geo.blockSize)))
    obtain ⟨fs₂, hput, hdone⟩ := hstaged.stored h hmem
    rw [putInode_eq hput]
    exact hdone

section

variable (hrun : Ext2.dirRemoveEntry st.fs dir ino = .ok (fs', ok))
include hrun

/-- `ext2_dir_remove_entry` writes a block of the directory, or nothing. -/
theorem Inv.dirRemoveEntry_cases :
    Rewrote reserved (live st) dirIno st.fs dir.ei fs' := by
  have hsame : Rewrote reserved (live st) dirIno st.fs dir.ei st.fs :=
    ⟨Grew.refl reserved _ _ _ _, h.owned_self hmem⟩
  unfold Ext2.dirRemoveEntry at hrun
  cases hscan : scanDir st.fs dir.ei (dropEntry st.fs.geo.blockSize ino)
      (dirBlocks st.fs dir) with
  | error e => simp only [hscan] at hrun; cases hrun
  | ok found =>
    simp only [hscan] at hrun
    cases found with
    | here a =>
      obtain ⟨fs₁, hwrite, hre⟩ := h.writeFound hmem hscan a.2
      simp only [hwrite] at hrun
      cases hrun
      exact hre
    | ioError | missing => cases hrun; exact hsame

theorem Inv.dirRemoveEntry : Inv reserved ⟨fs', st.mem⟩ := by
  have hre := h.dirRemoveEntry_cases hmem hrun
  have hinv := (h.extend hmem dir (h.loaded dirIno dir hmem).1 hre.grew hre.owned).2
  rwa [← hmem, update_eq_self] at hinv

end

end

end Directory

/-! ## New inodes -/

/-- The number `ino` has been taken and `ei` is going to be its inode, but is not on
disk yet. -/
structure Drafted (reserved : Nat → Prop) (st : State) (ino : Nat) (ei : Buf) (fs : Fs) :
    Prop where
  valid : ValidIno st.fs.geo ino
  free : st.fs.inodeUsed ino = false
  owned : Owned reserved fs (update (live st) ino (some ei))
  geo : fs.geo = st.fs.geo
  used : ∀ j, fs.inodeUsed j = (decide (j = ino) || st.fs.inodeUsed j)
  tables : ∀ j, ValidIno st.fs.geo j → j ≠ ino → fs.readInode j = st.fs.readInode j

section Draft

variable {reserved : Nat → Prop} {st : State} {ino : Nat} {ei : Buf} {fs : Fs} {S D : Pos → Prop}

/-- An inode without pointers owns nothing. -/
theorem Owned.empty {L : Nat → Option Buf} (h : Owned reserved fs L) (hL : L ino = none)
    (hempty : ∀ k < 14, iBlock ei k = 0) :
    Owned reserved fs (update L ino (some ei)) := by
  refine ⟨h.mounted, h.exclusive.release (fun ⟨j, p⟩ => .inl ?_) fun _ _ hc => hc⟩
  by_cases hj : j = ino
  · subst hj
    by_cases hp : p.Valid fs.geo.perBlock
    · rw [own_eq fs (update_self _ _ _) hp, ptr_of_slot_eq (hempty _ hp.slot_lt), own, hL]
    · rw [own_of_not_valid hp, own_of_not_valid hp]
  · rw [own, own, update_of_ne hj]

/-- A number is taken for an inode without pointers. -/
theorem Inv.draft (h : Inv reserved st) (halloc : st.fs.allocInode = some (ino, fs))
    (hempty : ∀ k < 14, iBlock ei k = 0) :
    Drafted reserved st ino ei fs ∧ Apart st.fs (live st) ino fs := by
  obtain ⟨hpos, hle, hfree, hused, hframe, hm⟩ := allocInode_spec h.owned.mounted halloc
  have hnot : ¬ InUse st.fs ino := fun hin => by
    rw [hin.2] at hfree
    cases hfree
  refine ⟨⟨⟨hpos, hle⟩, hfree, (hframe.owned hm h.owned).empty (live_of_not hnot) hempty,
    hframe.geo, hused, fun j hj _ => hframe.tables h.owned.mounted hm hj⟩, ?_⟩
  exact h.owned.apart_of_data fun c hc => hframe.disk_data h.owned.mounted.layout hc.notReserved

section

variable (h : Drafted reserved st ino ei fs)
include h

/-- The map of a draft grows. -/
theorem Drafted.extend (hapart : Apart st.fs (live st) ino fs)
    {fs' : Fs} {ei' : Buf} (hgrew : Grew reserved S D fs ei fs' ei')
    (howned : Owned reserved fs' (update (live st) ino (some ei'))) :
    Drafted reserved st ino ei' fs' ∧ Apart st.fs (live st) ino fs' := by
  constructor
  · exact
      { valid := h.valid
        free := h.free
        owned := howned
        geo := hgrew.geo.trans h.geo
        used := fun j => by rw [← h.used, inodeUsed, inodeUsed, hgrew.inodes, hgrew.geo]
        tables := fun j hj hne => by rw [hgrew.tables j (h.geo ▸ hj), h.tables j hj hne] }
  · exact hapart.trans (hgrew.apart h.owned) h.geo

/-- The draft is written to disk. -/
theorem Drafted.commit (hinv : Inv reserved st) :
    ∃ fs', fs.writeInode ino ei = some fs' ∧ InodeWritten reserved fs ino ei fs' ∧
      InUse fs' ino ∧ Elsewhere st ino ⟨fs', st.mem⟩ ∧ Inv reserved ⟨fs', st.mem⟩ := by
  obtain ⟨fs', hrun, hw⟩ := writeInode_spec h.owned.mounted (h.geo ▸ h.valid) ei
  have hused : ∀ j, fs'.inodeUsed j = (decide (j = ino) || st.fs.inodeUsed j) := fun j => by
    rw [← h.used, inodeUsed, inodeUsed, hw.inodes, hw.geo]
  have hgeo := hw.geo.trans h.geo
  refine ⟨fs', hrun, hw, ⟨hgeo ▸ h.valid, by simp [hused]⟩,
    hinv.adopt h.valid h.free hused hgeo (fun j hj hne => ?_) hw.self
      ((hw.owned h.owned).sameSlots (sameSlots_clip ei))⟩
  rw [hw.other j (h.geo ▸ hj) hne, h.tables j hj hne]

/-- The draft is given up, and the number freed. -/
theorem Drafted.abort (hapart : Apart st.fs (live st) ino fs)
    (hinv : Inv reserved st) :
    Gone st ino ⟨fs.freeInode ino, st.mem⟩ ∧ Inv reserved ⟨fs.freeInode ino, st.mem⟩ := by
  have hm := h.owned.mounted
  have hvalid : ValidIno fs.geo ino := h.geo ▸ h.valid
  obtain ⟨hused, hframe, hm'⟩ := freeInode_spec hm hvalid.1 hvalid.2
  have hgone : Gone st ino ⟨fs.freeInode ino, update st.mem ino none⟩ ∧
      Inv reserved ⟨fs.freeInode ino, update st.mem ino none⟩ := by
    refine hinv.forget (fun j => ?_) (hframe.geo.trans h.geo) ?_ (fun j hj hne => ?_) ?_
    · rw [hused, h.used]
      by_cases hj : j = ino <;> simp [hj]
    · refine hapart.trans ?_ h.geo
      intro j ej hne hj p hp h0
      have hj' : update (live st) ino (some ei) j = some ej := by
        rw [update_of_ne hne, hj]
      exact hframe.disk_data hm.layout (h.owned.dataUsed hj' hp h0).notReserved
    · rw [hframe.tables hm hm' (h.geo ▸ hj), h.tables j hj hne]
    · exact hframe.owned hm' (h.owned.discard hm rfl (fun _ _ => rfl) fun _ hc _ => hc)
  rwa [← hinv.not_loaded h.free, update_eq_self] at hgone

end

/-- A new inode is empty behind the number of links. -/
theorem get32_newInode (mode links now : Nat) {o : Nat} (ho : 28 ≤ o) :
    (newInode mode links now).get32 o = 0 := by
  rw [newInode, get32_put16_of_disjoint (by omega), get32_put32_of_disjoint (by omega),
    get32_put32_of_disjoint (by omega), get32_put32_of_disjoint (by omega),
    get32_put16_of_disjoint (by omega), get32_zero]

theorem iBlock_newInode (mode links now : Nat) (k : Nat) : iBlock (newInode mode links now) k = 0 :=
  get32_newInode mode links now (by omega)

end Draft

/-! ## What the operations are made of -/

/-- Pointers and block count of two inode copies agree. -/
def SameMap (ei ei' : Buf) : Prop := SameSlots ei ei' ∧ iBlocks ei' = iBlocks ei

section SameMap

variable {ei ei₁ ei₂ : Buf}

theorem SameMap.refl (ei : Buf) : SameMap ei ei := ⟨SameSlots.refl ei, rfl⟩

theorem SameMap.trans (h : SameMap ei ei₁) (h' : SameMap ei₁ ei₂) : SameMap ei ei₂ :=
  ⟨h.1.trans h'.1, h'.2.trans h.2⟩

theorem SameMap.symm (h : SameMap ei ei₁) : SameMap ei₁ ei := ⟨h.1.symm, h.2.symm⟩

theorem sameMap_clip (ei : Buf) : SameMap ei (ei.clip inodeBytes) :=
  ⟨sameSlots_clip ei, get32_clip (by decide)⟩

/-- The block count is behind the times and the number of links. -/
theorem sameMap_put32 (ei : Buf) (o v : Nat) (ho : o + 4 ≤ 28) : SameMap ei (ei.put32 o v) :=
  ⟨sameSlots_put32 _ _ _ (by omega), get32_put32_of_disjoint (by omega)⟩

theorem sameMap_touch (ei : Buf) (now : Nat) : SameMap ei (touch ei now) :=
  (sameMap_put32 _ _ _ (by decide)).trans (sameMap_put32 _ _ _ (by decide))

theorem sameMap_setISize (ei : Buf) (size : Nat) : SameMap ei (setISize ei size) :=
  sameMap_put32 _ _ _ (by decide)

theorem sameMap_setILinksCount (ei : Buf) (count : Nat) :
    SameMap ei (setILinksCount ei count) :=
  ⟨sameSlots_setILinksCount _ _, get32_put16_of_disjoint (by decide)⟩

end SameMap

/-- The changes the operations make to inodes in memory leave slots and number alone. -/
def Tame (f : Inode → Inode) : Prop :=
  ∀ inode, (f inode).ino = inode.ino ∧ SameSlots inode.ei (f inode).ei

/-- They leave the block count alone, too. -/
def Steady (f : Inode → Inode) : Prop :=
  ∀ inode, (f inode).ino = inode.ino ∧ SameMap inode.ei (f inode).ei

theorem Steady.tame (h : Steady f) : Tame f :=
  fun inode => ⟨(h inode).1, (h inode).2.1⟩

theorem Steady.comp (hf : Steady f) (hg : Steady g) :
    Steady fun i => f (g i) :=
  fun i => ⟨(hf _).1.trans (hg i).1, (hg i).2.trans (hf _).2⟩

theorem steady_setMtime (now : Nat) : Steady (Inode.setMtime now) :=
  fun _ => ⟨rfl, sameMap_put32 _ _ _ (by decide)⟩

theorem steady_addLinks (count : Nat) : Steady (Inode.addLinks count) :=
  fun _ => ⟨rfl, sameMap_setILinksCount _ _⟩

theorem steady_touch (now : Nat) : Steady (Inode.touch now) := fun _ => ⟨rfl, sameMap_touch _ _⟩

/-- What `i_blocks` should be. -/
def Tallies (fs : Fs) (ei : Buf) : Prop := iBlocks ei = fs.geo.delta * (held fs ei).card

section Tallies

variable {reserved : Nat → Prop} {L : Nat → Option Buf} {ino : Nat} {fs fs' : Fs}
  {ei ei' : Buf} {Cut : Pos → Prop}

theorem Tallies.sameMap (h : Tallies fs ei) (hmap : SameMap ei ei') : Tallies fs ei' := by
  have hheld : held fs ei' = held fs ei :=
    held_congr rfl fun p hp => ptr_congr hmap.1 (fun _ _ _ _ => rfl) hp
  rw [Tallies, hheld, hmap.2]
  exact h

/-- The count does not look at metadata, nor at blocks of other inodes. -/
theorem Tallies.congr (h : Tallies fs ei) (hgeo : fs'.geo = fs.geo)
    (hptr : ∀ p : Pos, p.Valid fs.geo.perBlock → ptr fs' ei p = ptr fs ei p) :
    Tallies fs' ei := by
  rw [Tallies, hgeo, held_congr hgeo hptr]
  exact h

theorem InodeWritten.tallies {written : Buf} (hw : InodeWritten reserved fs ino written fs')
    (ho : Owned reserved fs (update L ino (some ei))) (h : Tallies fs ei) :
    Tallies fs' ei := by
  apply h.congr hw.geo
  intro p hp
  refine ptr_congr (fun _ _ => rfl) (fun q hq _ h0 => ?_) hp
  exact hw.disk _ (ho.data hq h0).notReserved

end Tallies

section Growth

variable {reserved : Nat → Prop} {L : Nat → Option Buf} {ino : Nat} {fs fs' : Fs}
  {ei ei' : Buf} {w w' : Work} {S D Cut : Pos → Prop}

/-- A block count and the blocks a map holds, both in 32 bits. -/
theorem tallies_of_congr (hgeo : Layout fs.geo reserved)
    (h : u32 (iBlocks ei) = u32 (fs.geo.delta * (held fs ei).card)) : Tallies fs ei := by
  have hcard := card_held_lt hgeo ei
  have hbound : fs.geo.delta * (held fs ei).card < 2 ^ 32 :=
    calc fs.geo.delta * (held fs ei).card
        ≤ 8 * 2 ^ 24 := Nat.mul_le_mul (delta_le hgeo) hcard.le
      _ < 2 ^ 32 := by decide
  have hlt := iBlocks_lt ei
  rw [Tallies]
  rw [u32, u32, mod_eq_of_lt hlt, mod_eq_of_lt hbound] at h
  exact h

/-- A map that has paid for what it has taken. -/
theorem tallies_of_credit (hgrew : Grew reserved S D w.fs w.ei w'.fs w'.ei)
    (ho' : Owned reserved w'.fs (update L ino (some w'.ei)))
    (hcredit : u32 w'.credit = u32 w.credit) (h : Tallies w.fs w.ei) : Tallies w'.fs w'.ei := by
  have hcards := congrArg (w.fs.geo.delta * ·) (hgrew.card_add_card ho')
  simp only [mul_add] at hcards
  apply tallies_of_congr ho'.mounted.layout
  rw [credit, credit, h, hgrew.geo] at hcredit
  rw [hgrew.geo]
  rw [u32, u32] at hcredit ⊢
  omega

/-- A map that has been credited with what it has given back. -/
theorem Trimmed.tallies {s s' : Trace} (h : Trimmed reserved Cut s s')
    (ho : Owned reserved s.fs (update L ino (some s.ei))) (htally : Tallies s.fs s.ei) :
    Tallies s'.fs s'.ei := by
  obtain ⟨T, -, hnodup, hmem, hcount⟩ := h.record
  -- the record lists the blocks of the positions that were cut, each once
  have hcut : T.length = (held s.fs s.ei \ held s'.fs s'.ei).card := by
    rw [← List.toFinset_card_of_nodup hnodup]
    symm
    apply card_bij fun p _ => ptr s.fs s.ei p
    · intro p hp
      rw [mem_sdiff, h.shrunk.held_eq, mem_held] at hp
      rw [List.mem_toFinset, hmem]
      exact ⟨p, hp.1.1, by_contra fun hc => hp.2 ⟨hp.1, hc⟩, rfl, hp.1.2⟩
    · intro p hp q hq heq
      rw [mem_sdiff, mem_held] at hp hq
      exact ho.pos_eq hp.1.1 hq.1.1 hp.1.2 heq
    · intro c hc
      rw [List.mem_toFinset, hmem] at hc
      obtain ⟨p, hp, hcut, rfl, hne⟩ := hc
      refine ⟨p, ?_, rfl⟩
      rw [mem_sdiff, h.shrunk.held_eq, mem_held]
      exact ⟨⟨hp, hne⟩, fun hkept => hkept.2 hcut⟩
  have hsub : held s'.fs s'.ei ⊆ held s.fs s.ei := fun p hp => (h.shrunk.held_eq.mp hp).1
  have hcards := congrArg (s.fs.geo.delta * ·) (card_sdiff_add_card_eq_card hsub)
  simp only [mul_add, ← hcut] at hcards
  apply tallies_of_congr h.shrunk.mounted.layout
  rw [htally] at hcount
  rw [h.shrunk.geo]
  rw [u32] at hcount ⊢
  rw [u32]
  omega

end Growth

/-- Rules for the parts of the operations on names.  A property of states that has them is
kept by the operations.  `Room` is what is known of a call of `ext2_dir_add_entry`. -/
structure Kept (reserved : Nat → Prop) (Room : Fs → Inode → List UInt8 → Nat → Nat → Prop)
    (K : State → Prop) : Prop where
  inv : ∀ {st}, K st → Inv reserved st
  modify : ∀ {st f}, K st → ∀ ino, Steady f → K (st.modify ino f)
  putBack : ∀ {st}, K st → ∀ ino, K (st.putBack ino)
  usedDirs : ∀ {st}, K st → ∀ usedDirs, K ⟨{ st.fs with usedDirs }, st.mem⟩
  load : ∀ {st ino ei}, K st → InUse st.fs ino → st.mem ino = none →
    st.fs.readInode ino = some ei → ∀ inode : Inode, inode.ino = ino → SameMap ei inode.ei →
    K ⟨st.fs, update st.mem ino (some inode)⟩
  addEntry : ∀ {st dirIno dir name ino type fs' dir' ok}, K st → st.mem dirIno = some dir →
    Room st.fs dir name ino type → dirAddEntry st.fs dir name ino type = .ok (fs', dir', ok) →
    K ⟨fs', update st.mem dirIno (some dir')⟩
  removeEntry : ∀ {st dirIno dir ino fs' ok}, K st → st.mem dirIno = some dir →
    dirRemoveEntry st.fs dir ino = .ok (fs', ok) → K ⟨fs', st.mem⟩
  commit : ∀ {st ino ei fs fs'}, K st → Drafted reserved st ino ei fs →
    Apart st.fs (live st) ino fs → Tallies fs ei → fs.writeInode ino ei = some fs' →
    K ⟨fs', st.mem⟩
  abort : ∀ {st ino ei fs}, K st → Drafted reserved st ino ei fs →
    Apart st.fs (live st) ino fs → K ⟨fs.freeInode ino, st.mem⟩
  giveBack : ∀ {st ino ei B fs₁}, K st → InUse st.fs ino → st.mem ino = none →
    st.fs.readInode ino = some ei → Freed reserved st.fs B fs₁ →
    (∀ c, B c → ∃ p : Pos, p.Valid st.fs.geo.perBlock ∧ ptr st.fs ei p = c) →
    K ⟨fs₁.freeInode ino, st.mem⟩

/-- They leave the size alone, in both places. -/
def Gentle (f : Inode → Inode) : Prop :=
  Steady f ∧ ∀ inode, (f inode).size = inode.size ∧ iSize (f inode).ei = iSize inode.ei

theorem Gentle.comp (hf : Gentle f) (hg : Gentle g) :
    Gentle fun i => f (g i) :=
  ⟨hf.1.comp hg.1, fun i => ⟨(hf.2 _).1.trans (hg.2 i).1, (hf.2 _).2.trans (hg.2 i).2⟩⟩

theorem gentle_setMtime (now : Nat) : Gentle (Inode.setMtime now) :=
  ⟨steady_setMtime now, fun _ => ⟨rfl, get32_put32_of_disjoint (by decide)⟩⟩

theorem gentle_addLinks (count : Nat) : Gentle (Inode.addLinks count) :=
  ⟨steady_addLinks count, fun _ => ⟨rfl, get32_put16_of_disjoint (by decide)⟩⟩

theorem iSize_touch (ei : Buf) (now : Nat) : iSize (touch ei now) = iSize ei :=
  (get32_put32_of_disjoint (by decide)).trans (get32_put32_of_disjoint (by decide))

theorem gentle_touch (now : Nat) : Gentle (Inode.touch now) :=
  ⟨steady_touch now, fun _ => ⟨rfl, iSize_touch _ _⟩⟩

/-- Rules for the operations that write files or make new inodes.  `Sized` is what is known of an
inode when it is stored, `paid` says that the block counts are followed. -/
structure Rules (reserved : Nat → Prop) (Room : Fs → Inode → List UInt8 → Nat → Nat → Prop)
    (Sized : Inode → Prop) (paid : Prop) (K : State → Prop) : Prop where
  inv : ∀ {st}, K st → Inv reserved st
  amend : ∀ {st f}, K st → ∀ ino, Gentle f → K ((st.modify ino f).putBack ino)
  usedDirs : ∀ {st}, K st → ∀ usedDirs, K ⟨{ st.fs with usedDirs }, st.mem⟩
  load : ∀ {st ino}, K st → InUse st.fs ino → st.mem ino = none → ∀ inode : Inode,
    inode.ino = ino → st.fs.readInode ino = some (inode.ei.clip inodeBytes) →
    inode.size = iSize inode.ei → K ⟨st.fs, update st.mem ino (some inode)⟩
  addEntry : ∀ {st dirIno dir name ino type fs' dir' ok}, K st → st.mem dirIno = some dir →
    Room st.fs dir name ino type → dirAddEntry st.fs dir name ino type = .ok (fs', dir', ok) →
    K ⟨fs', update st.mem dirIno (some dir')⟩
  commit : ∀ {st ino ei fs fs'}, K st → Drafted reserved st ino ei fs →
    Apart st.fs (live st) ino fs → Tallies fs ei → fs.writeInode ino ei = some fs' →
    K ⟨fs', st.mem⟩
  unload : ∀ {st ino inode}, K st → st.mem ino = some inode →
    K ⟨st.fs, update st.mem ino none⟩
  gone : ∀ {st ino st'}, K st → Gone st ino st' → Inv reserved st' → K st'
  store : ∀ {st ino inode inode' fs₁ fs'}, K st → st.mem ino = some inode →
    Staged reserved st ino inode' fs₁ → Sized inode' →
    (paid → Tallies st.fs inode.ei → Tallies fs₁ inode'.ei) →
    fs₁.writeInode ino inode'.ei = some fs' → K ⟨fs', update st.mem ino (some inode')⟩
  data : ∀ {st ino inode S D fs'}, K st → st.mem ino = some inode →
    Grew reserved S D st.fs inode.ei fs' inode.ei →
    Owned reserved fs' (update (live st) ino (some inode.ei)) →
    (paid → Tallies st.fs inode.ei → Tallies fs' inode.ei) → K ⟨fs', st.mem⟩

/-- The numbers of used directories are not part of the invariant. -/
theorem Inv.withUsedDirs {reserved : Nat → Prop} {st : State} (h : Inv reserved st)
    (usedDirs : Nat → Nat) : Inv reserved ⟨{ st.fs with usedDirs }, st.mem⟩ := by
  obtain ⟨⟨hm, hex⟩, hloaded, hsynced⟩ := h
  exact ⟨⟨{ hm with }, { hex with used := fun x hx => { hex.used x hx with } }⟩, hloaded, hsynced⟩

/-- The invariant has the rules, whatever is known of the room in directories. -/
theorem Inv.kept (reserved : Nat → Prop) :
    Kept reserved (fun _ _ _ _ _ => True) (Inv reserved) where
  inv h := h
  modify h ino hf := h.modify ino hf.tame
  putBack h ino := (h.putBack ino).1
  usedDirs h usedDirs := h.withUsedDirs usedDirs
  load h hin hmem hread inode hi hmap := h.load hin hmem hread inode hi hmap.1
  addEntry h hmem _ hrun := (h.dirAddEntry hmem hrun).2
  removeEntry h hmem hrun := h.dirRemoveEntry hmem hrun
  commit h hdraft _ _ hrun := by
    obtain ⟨fs', hwrite, -, -, -, hinv⟩ := hdraft.commit h
    rw [hrun, some_inj] at hwrite
    exact hwrite ▸ hinv
  abort h hdraft hapart := (hdraft.abort hapart h).2
  giveBack h hin hmem hread hfreed hB := (h.giveBack hin hmem hread hfreed hB).2

/-- The invariant has the rules, whatever is known of sizes and counts. -/
theorem Inv.rules (reserved : Nat → Prop) :
    Rules reserved (fun _ _ _ _ _ => True) (fun _ => True) False (Inv reserved) where
  inv h := h
  amend h ino hf := ((h.modify ino hf.1.tame).putBack ino).1
  usedDirs h usedDirs := h.withUsedDirs usedDirs
  load h hin hmem inode hi hread _ := h.load hin hmem hread inode hi (sameSlots_clip _).symm
  addEntry h hmem _ hrun := (h.dirAddEntry hmem hrun).2
  commit h hdraft hapart htally hrun := (Inv.kept reserved).commit h hdraft hapart htally hrun
  unload h hmem := h.unload hmem
  gone _ _ hinv := hinv
  store h hmem hs _ _ hrun := (hs.commit h hmem hrun).2
  data {st ino inode _ _ _} h hmem hgrew howned _ := by
    have hinv := (h.extend hmem inode (h.loaded ino inode hmem).1 hgrew howned).2
    rwa [← hmem, update_eq_self] at hinv

/-! ## Operations on files -/

section Files

variable {reserved : Nat → Prop} {Room : Fs → Inode → List UInt8 → Nat → Nat → Prop}
  {Sized : Inode → Prop} {paid : Prop} {K : State → Prop} {st : State} {ino : Nat} {inode : Inode}

section

variable (hr : Rules reserved Room Sized paid K)
include hr

theorem Rules.write (h : K st) (hmem : st.mem ino = some inode) (data : Buf) (len pos now : Nat)
    (hsized : Sized (Ext2.write st.fs inode data len pos now).inode)
    (hpaid : paid → ∀ w stop ok, writeLoop data ⟨st.fs, inode.ei, false⟩ pos len 0 len =
      (w, stop, ok) →
      Tallies st.fs inode.ei → Tallies w.fs w.ei) :
    K ⟨(Ext2.write st.fs inode data len pos now).fs,
      update st.mem ino (some (Ext2.write st.fs inode data len pos now).inode)⟩ := by
  have hinv := hr.inv h
  obtain ⟨rfl, hin⟩ := hinv.loaded ino inode hmem
  have howned := hinv.owned_self hmem
  have hloop : LoopWritten reserved (live st) inode.ino (fun _ => True) ⟨st.fs, inode.ei, false⟩
      (writeLoop data ⟨st.fs, inode.ei, false⟩ pos len 0 len).1 :=
    writeLoop_spec data howned fun _ _ _ => trivial
  unfold Ext2.write at hsized ⊢
  generalize writeLoop data ⟨st.fs, inode.ei, false⟩ pos len 0 len = r at hloop hpaid hsized ⊢
  obtain ⟨w, stop, ok⟩ := r
  dsimp only at hloop hsized ⊢
  have htally := fun hp => hpaid hp w stop ok rfl
  split
  · next hcond =>
    rw [if_pos hcond] at hsized
    generalize (if (stop : Int) > signed inode.size then stop else inode.size) = size at hsized ⊢
    have hmap : SameMap w.ei (touch (setISize w.ei (u32 size)) now) :=
      (sameMap_setISize _ _).trans (sameMap_touch _ _)
    have hstaged : Staged reserved st inode.ino
        { inode with size, ei := touch (setISize w.ei (u32 size)) now } w.fs :=
      ⟨rfl, hloop.owned.sameSlots hmap.1, hloop.grew.geo, hloop.grew.inodes, hloop.grew.tables,
        hloop.grew.apart howned⟩
    obtain ⟨fs', hrun, -⟩ := writeInode_spec hloop.owned.mounted (hloop.grew.geo.symm ▸ hin.1)
      (touch (setISize w.ei (u32 size)) now)
    rw [hrun] at hsized ⊢
    exact hr.store h hmem hstaged hsized (fun hp ht => (htally hp ht).sameMap hmap) hrun
  · next hclean =>
    -- nothing has been charged, so the copy in memory is the old one
    rcases hloop.dirty with hdirty | ⟨hei, -⟩
    · exact absurd (.inr hdirty) hclean
    · obtain ⟨wfs, wei, wdirty⟩ := w
      obtain rfl : wei = inode.ei := hei
      have hdata := hr.data h hmem hloop.grew hloop.owned htally
      rw [← update_eq_self inode.ino st.mem, hmem] at hdata
      exact hdata

/-- `ext2_setattr` succeeds, unless it makes `ext2_truncate_blocks` start below the array. -/
theorem Rules.setattr (h : K st) (hmem : st.mem ino = some inode) (attr : Option Int) (now : Nat)
    (hsize : ∀ newSize, attr = some newSize → newSize < signed inode.size →
      ¬ Underruns st.fs.geo inode.size newSize)
    (hsized : ∀ newSize, attr = some newSize → newSize ≠ signed inode.size → ∀ ei,
      Sized { inode with
        size := (newSize % 2 ^ 64).toNat
        ei := touch (setISize ei (newSize % 2 ^ 32).toNat) now }) :
    ∃ fs' inode', Ext2.setattr st.fs inode attr now = .ok (fs', inode', true) ∧
      K ⟨fs', update st.mem ino (some inode')⟩ := by
  have hinv := hr.inv h
  obtain ⟨rfl, hin⟩ := hinv.loaded ino inode hmem
  have howned := hinv.owned_self hmem
  have hsame : K ⟨st.fs, update st.mem inode.ino (some inode)⟩ := by
    rw [← hmem, update_eq_self]
    exact h
  cases attr with
  | none => exact ⟨st.fs, inode, rfl, hsame⟩
  | some newSize =>
    unfold Ext2.setattr
    dsimp only
    by_cases heq : newSize = signed inode.size
    · rw [if_pos heq]
      exact ⟨st.fs, inode, rfl, hsame⟩
    rw [if_neg heq]
    -- the end of the function: the size changes, and the inode is written to disk
    have hresize : ∀ fs₁ ei₁, Staged reserved st inode.ino { inode with ei := ei₁ } fs₁ →
        (Tallies st.fs inode.ei → Tallies fs₁ ei₁) →
        let ei := touch (setISize ei₁ (newSize % 2 ^ 32).toNat) now
        K ⟨fs₁.putInode inode.ino ei, update st.mem inode.ino
          (some { inode with size := (newSize % 2 ^ 64).toNat, ei })⟩ := by
      intro fs₁ ei₁ hs htally ei
      have hmap : SameMap ei₁ ei := (sameMap_setISize _ _).trans (sameMap_touch _ _)
      obtain ⟨fs', hrun, -⟩ := writeInode_spec hs.owned.mounted (hs.geo.symm ▸ hin.1) ei
      rw [putInode_eq hrun]
      exact hr.store h hmem { hs with owned := hs.owned.sameSlots hmap.1 }
        (hsized newSize rfl heq ei₁) (fun _ ht => (htally ht).sameMap hmap) hrun
    by_cases hlt : newSize < signed inode.size
    · rw [if_pos hlt]
      obtain ⟨s, hrun, hcut⟩ := trimBlocks howned (hsize newSize rfl hlt)
      have hshrunk := hcut.shrunk
      refine ⟨_, _, ?_, hresize s.fs s.ei ⟨rfl, hshrunk.owned howned, hshrunk.geo, hshrunk.inodes,
        hshrunk.tables, ?_⟩ (hcut.tallies howned)⟩
      · simp only [Trace.plain_truncateBlocks, hrun, Except.map, if_true]
      · exact howned.apart fun c hc hne => hshrunk.disk c hc.notReserved fun q hq _ => hne q hq
    · rw [if_neg hlt]
      exact ⟨_, _, rfl, hresize st.fs inode.ei ⟨rfl, howned, rfl, rfl, fun _ _ => rfl,
        Apart.refl _ _ _⟩
        id⟩

theorem Rules.drop (h : K st) (ino : Nat) : K (Ext2.drop st ino) := by
  unfold Ext2.drop
  cases hmem : st.mem ino with
  | none => exact h
  | some inode =>
    dsimp only
    by_cases hlinks : inode.linkCount = 0
    · obtain ⟨hgone, hinv⟩ := (hr.inv h).delete hmem hlinks
      exact hr.gone h hgone hinv
    · rw [Ext2.delete, if_neg hlinks]
      exact hr.unload h hmem

theorem Rules.load_inUse (h : K st) (hin : InUse st.fs ino) : K (Ext2.load st ino) := by
  have hread := readInode_eq (hr.inv h).owned.mounted hin.1
  unfold Ext2.load
  cases hmem : st.mem ino with
  | some inode => exact h
  | none =>
    rw [iget, hread]
    exact hr.load h hin hmem (createVfsInode _ ino) rfl
      (hread.trans (congrArg some (clip_clip _ _).symm)) rfl

end

end Files

/-! ## Operations on names -/

/-- The directory, the number of the new inode and the volume with which `ext2_create` or
`ext2_mkdir` calls `ext2_dir_add_entry`: nothing of the directory has changed. -/
structure Called (st : State) (dirIno : Nat) (dir : Inode) (ino : Nat) (fs : Fs) : Prop where
  mem : st.mem dirIno = some dir
  ne : ino ≠ dirIno
  geo : fs.geo = st.fs.geo
  apart : Apart st.fs (live st) ino fs

/-- In between `ext2_mkdir` has taken a block for the new directory. -/
def TookBlock (fs fs' : Fs) : Prop :=
  ∃ (fs₁ : Fs) (b : Nat) (fs₂ : Fs), fs₁.geo = fs.geo ∧ fs₁.blocks = fs.blocks ∧
    fs₁.allocBlock = some (b, fs₂) ∧ fs'.geo = fs₂.geo ∧ fs'.blocks = fs₂.blocks

/-- The first block of an inode without pointers is a new one. -/
theorem Work.bmapAlloc_zero {w : Work} (hempty : iBlock w.ei 0 = 0) (b : Nat)
    (hb : (w.bmapAlloc 0).2 = some b) : ∃ fs, w.fs.allocBlock = some (b, fs) ∧
      (w.bmapAlloc 0).1.fs.geo = fs.geo ∧ (w.bmapAlloc 0).1.fs.blocks = fs.blocks := by
  simp only [bmapAlloc, ndirBlocks, Nat.ofNat_pos, if_true, ensureSlot, hempty] at hb ⊢
  cases halloc : w.fs.allocBlock with
  | none => simp [halloc] at hb
  | some r =>
    obtain ⟨c, fs⟩ := r
    simp only [halloc, some_inj] at hb ⊢
    exact ⟨fs, hb ▸ rfl, rfl, rfl⟩

section Names

variable {reserved : Nat → Prop} {Room : Fs → Inode → List UInt8 → Nat → Nat → Prop}
  {Sized : Inode → Prop} {paid : Prop} {K : State → Prop} {st st' : State} {dirIno ino now : Nat}
  {dir : Inode} {name : List UInt8} {ok : Bool} {fs : Fs}

/-- A loaded inode is changed and written back. -/
theorem Rules.amend_elsewhere (hr : Rules reserved Room Sized paid K) (h : K st) (ino : Nat)
    (hf : Gentle f) :
    K ((st.modify ino f).putBack ino) ∧ Elsewhere st ino ((st.modify ino f).putBack ino) := by
  have he := (((hr.inv h).modify ino hf.1.tame).putBack ino).2
  exact ⟨hr.amend h ino hf, (Elsewhere.modify st ino f).trans he⟩

/-- An inode without pointers and without blocks. -/
theorem tallies_newInode {links : Nat} : Tallies fs (newInode mode links now) := by
  have hcount : iBlocks (newInode mode links now) = 0 := get32_newInode mode links now (by decide)
  have hheld : held fs (newInode mode links now) = ∅ := by
    ext p
    simp [mem_held, ptr_of_slot_eq (iBlock_newInode mode links now _)]
  rw [Tallies, hcount, hheld, card_empty, mul_zero]

/-- A free inode is not that of a directory in memory. -/
theorem Inv.ne_of_free (hinv : Inv reserved st) (hmem : st.mem dirIno = some dir)
    (hfree : st.fs.inodeUsed ino = false) : ino ≠ dirIno := by
  rintro rfl
  cases (hinv.not_loaded hfree).symm.trans hmem

/-- A drafted inode is written. -/
theorem Drafted.called {ei : Buf} {fs' : Fs} (hinv : Inv reserved st)
    (hmem : st.mem dirIno = some dir)
    (hdraft : Drafted reserved st ino ei fs) (hapart : Apart st.fs (live st) ino fs)
    (hw : InodeWritten reserved fs ino ei fs') : Called st dirIno dir ino fs' where
  mem := hmem
  ne := hinv.ne_of_free hmem hdraft.free
  geo := hw.geo.trans hdraft.geo
  apart := hapart.trans (hdraft.owned.apart fun c hc _ => hw.disk c hc.notReserved) hdraft.geo

section

variable (hr : Rules reserved Room Sized paid K) (h : K st)
include hr h

/-- A drafted inode is written, and an entry for it is added to a directory. -/
theorem Rules.linkNew {ei : Buf} {fs fs₃ : Fs} {type : Nat} {dir' : Inode}
    (hmem : st.mem dirIno = some dir)
    (hdraft : Drafted reserved st ino ei fs) (hapart : Apart st.fs (live st) ino fs)
    (htally : Tallies fs ei) (hwrite : fs.writeInode ino ei = some fs₂)
    (hroom : Room fs₂ dir name ino type)
    (hadd : Ext2.dirAddEntry fs₂ dir name ino type = .ok (fs₃, dir', ok)) :
    dir'.ino = dirIno ∧ K ⟨fs₃, update st.mem dirIno (some dir')⟩ ∧ ino ≠ dirIno ∧ InUse fs₃ ino ∧
      update st.mem dirIno (some dir') ino = none ∧
      fs₃.readInode ino = some (ei.clip inodeBytes) := by
  have hinv := hr.inv h
  obtain ⟨fs', hwrite', hw, hin, -, -⟩ := hdraft.commit hinv
  obtain rfl : fs' = fs₂ := some_inj.mp (hwrite'.symm.trans hwrite)
  have hk₂ := hr.commit h hdraft hapart htally hwrite
  have hnone : st.mem ino = none := hinv.not_loaded hdraft.free
  have hne := hinv.ne_of_free hmem hdraft.free
  have hk₃ := @Rules.addEntry _ _ _ _ _ hr ⟨fs', st.mem⟩ _ _ _ _ _ _ _ _ hk₂ hmem hroom hadd
  obtain ⟨he, hinv₃⟩ := @Inv.dirAddEntry _ ⟨fs', st.mem⟩ _ _ _ _ _ _ _ _ (hr.inv hk₂) hmem hadd
  exact ⟨(hinv₃.loaded dirIno dir' (update_self _ _ _)).1, hk₃, hne, (he.inUse_iff hne).mpr hin,
    (he.mem ino hne).trans hnone, (he.tables ino hin.1 hne).trans hw.self⟩

theorem Rules.create
    (hroom : ∀ dir ino fs, Called st dirIno dir ino fs → fs.blocks = st.fs.blocks →
      Room fs dir name ino ftRegFile)
    (hrun : Ext2.create st dirIno name mode now = .ok (st', ok)) : K st' := by
  unfold Ext2.create at hrun
  cases hmem : st.mem dirIno with
  | none => rw [hmem] at hrun; cases hrun; exact h
  | some dir =>
  cases halloc : st.fs.allocInode with
  | none => rw [hmem, halloc] at hrun; cases hrun; exact h
  | some r =>
    obtain ⟨ino, fs₁⟩ := r
    have hinv := hr.inv h
    obtain ⟨hdraft, hapart⟩ := hinv.draft halloc fun k _ =>
      iBlock_newInode (mode ||| sIfReg) 1 now k
    obtain ⟨fs₂, hwrite, hw, -⟩ := hdraft.commit hinv
    have hblocks := (allocInode_spec hinv.owned.mounted halloc).frame.blocks
    have hcall : Room fs₂ dir name ino ftRegFile :=
      hroom dir ino fs₂ (hdraft.called hinv hmem hapart hw) (hw.blocks.trans hblocks)
    simp only [hmem, halloc, hwrite] at hrun
    cases hadd : Ext2.dirAddEntry fs₂ dir name ino ftRegFile with
    | error e => simp only [hadd, reduceCtorEq] at hrun
    | ok r =>
      obtain ⟨fs₃, dir', ok'⟩ := r
      obtain ⟨rfl, hk₃, -, hin₃, hnone₃, hread₃⟩ := hr.linkNew h hmem hdraft hapart
        tallies_newInode hwrite hcall hadd
      cases ok' with
      | false =>
        simp only [hadd] at hrun
        cases hrun
        obtain ⟨hgone, hinv'⟩ := (hr.inv hk₃).giveBack hin₃ hnone₃ hread₃
          (Freed.refl (hr.inv hk₃).owned.mounted fun _ => not_false) fun _ hc => hc.elim
        exact hr.gone hk₃ hgone hinv'
      | true =>
        have hload := hr.load hk₃ hin₃ hnone₃ (createVfsInode _ ino) rfl
          (hread₃.trans (congrArg some (clip_clip _ _).symm)) rfl
        simp only [hadd, iget, hread₃, map_some] at hrun
        cases hrun
        exact hr.amend hload dir'.ino (gentle_setMtime now)

/-- The end of `ext2_mkdir`, from the inode and the first block on. -/
theorem Rules.mkdirLink (hmem : st.mem dirIno = some dir)
    (inode : Inode) (hdraft : Drafted reserved st inode.ino inode.ei fs)
    (hapart : Apart st.fs (live st) inode.ino fs) (htally : Tallies fs inode.ei)
    (hblock : iBlock inode.ei 0 ≠ 0) (hsize : inode.size = iSize inode.ei)
    (hroom : ∀ fs', Called st dirIno dir inode.ino fs' → fs'.geo = fs.geo → fs'.blocks = fs.blocks →
      Room fs' dir name inode.ino ftDir)
    (hrun : Ext2.mkdirLink ⟨fs, st.mem⟩ dirIno name now inode
      (fun fs => (fs.freeBlock (iBlock inode.ei 0)).freeInode inode.ino) = .ok (st', ok)) :
    K st' := by
  obtain ⟨fs₂, hwrite, hw, -⟩ := hdraft.commit (hr.inv h)
  have hcall := hroom fs₂ (hdraft.called (hr.inv h) hmem hapart hw) hw.geo hw.blocks
  unfold Ext2.mkdirLink at hrun
  simp only [hmem, hwrite] at hrun
  cases hadd : Ext2.dirAddEntry fs₂ dir name inode.ino ftDir with
  | error e => simp only [hadd, reduceCtorEq] at hrun
  | ok r =>
    obtain ⟨fs₃, dir', ok'⟩ := r
    obtain ⟨rfl, hk₃, hne, hin₃, hnone₃, hread₃⟩ := hr.linkNew h hmem hdraft hapart htally hwrite
      hcall hadd
    have hinv₃ := hr.inv hk₃
    cases ok' with
    | false =>
      simp only [hadd] at hrun
      cases hrun
      have hroot := @Pos.valid_root fs₃.geo.perBlock 0 (by decide)
      have hslot : ptr fs₃ (inode.ei.clip inodeBytes) ⟨0, []⟩ = iBlock inode.ei 0 :=
        sameSlots_clip inode.ei 0 (by decide)
      have hdata := hinv₃.owned.dataUsed ((live_of_disk hin₃ hnone₃).trans hread₃) hroot
        (hslot ▸ hblock)
      rw [hslot] at hdata
      obtain ⟨hgone, hinv'⟩ := hinv₃.giveBack hin₃ hnone₃ hread₃
        (freeBlock_freed hinv₃.owned.mounted hdata.lt hdata.notReserved)
        fun c hc => ⟨⟨0, []⟩, hroot, hslot.trans hc.symm⟩
      exact hr.gone hk₃ hgone hinv'
    | true =>
      simp only [hadd] at hrun
      generalize update fs₃.usedDirs _ _ = usedDirs at hrun
      cases hrun
      obtain ⟨hk₄, he₄⟩ := hr.amend_elsewhere hk₃ dir'.ino
        ((gentle_addLinks 1).comp (gentle_touch now))
      refine hr.load (hr.usedDirs hk₄ usedDirs) ((he₄.inUse_iff hne).mpr hin₃)
        ((he₄.mem _ hne).trans hnone₃) inode rfl ?_ hsize
      exact (he₄.tables _ hin₃.1 hne).trans hread₃

end

theorem Layout.blockSize_lt {geo : Geometry} (h : Layout geo reserved) :
    geo.blockSize < 2 ^ 32 := by
  rw [Geometry.blockSize]
  have hle := h.logBlockSize_le
  generalize geo.logBlockSize = k at hle
  interval_cases k <;> decide

/-- The count `ext2_mkdir` sets is that of an inode with one block, the first. -/
theorem tallies_firstBlock {ei : Buf} (hgeo : Layout fs.geo reserved) (hfirst : iBlock ei 0 ≠ 0)
    (hrest : ∀ p : Pos, p.Valid fs.geo.perBlock → p ≠ ⟨0, []⟩ → ptr fs ei p = 0)
    (hcount : iBlocks ei = u32 (fs.geo.blockSize / 512)) : Tallies fs ei := by
  have hheld : held fs ei = {⟨0, []⟩} := by
    ext p
    rw [mem_held, mem_singleton]
    constructor
    · rintro ⟨hp, hne⟩
      by_contra hroot
      exact hne (hrest p hp hroot)
    · rintro rfl
      exact ⟨⟨by decide, zero_le _, by simp⟩, hfirst⟩
  rw [Tallies, hheld, card_singleton, mul_one, hcount, Geometry.delta,
    Geometry.blockSize]
  have hle := hgeo.logBlockSize_le
  generalize fs.geo.logBlockSize = k at hle
  interval_cases k <;> decide

theorem Rules.mkdir (hr : Rules reserved Room Sized paid K) (h : K st)
    (hroom : ∀ dir ino fs, Called st dirIno dir ino fs → TookBlock st.fs fs →
      Room fs dir name ino ftDir)
    (hrun : Ext2.mkdir st dirIno name mode now = .ok (st', ok)) : K st' := by
  unfold Ext2.mkdir at hrun
  cases hmem : st.mem dirIno with
  | none => rw [hmem] at hrun; cases hrun; exact h
  | some dir =>
  cases halloc : st.fs.allocInode with
  | none => rw [hmem, halloc] at hrun; cases hrun; exact h
  | some r =>
    obtain ⟨ino, fs₁⟩ := r
    simp only [hmem, halloc] at hrun
    have hempty : ∀ k < 14, iBlock (newInode (mode ||| sIfDir) 2 now) k = 0 := fun k _ =>
      iBlock_newInode (mode ||| sIfDir) 2 now k
    obtain ⟨hdraft, hapart⟩ := (hr.inv h).draft halloc hempty
    have hblocks := (allocInode_spec (hr.inv h).owned.mounted halloc).frame.blocks
    have hens := bmapAlloc_spec (w := ⟨fs₁, newInode (mode ||| sIfDir) 2 now, false⟩)
      hdraft.owned 0
    have htook := @bmapAlloc_zero ⟨fs₁, newInode (mode ||| sIfDir) 2 now, false⟩
      (hempty 0 (by decide))
    generalize hvfs : createVfsInode (newInode (mode ||| sIfDir) 2 now) ino = inode at hrun
    obtain ⟨rfl, hei⟩ : inode.ino = ino ∧ inode.ei = newInode (mode ||| sIfDir) 2 now := by
      rw [← hvfs]
      exact ⟨rfl, rfl⟩
    rw [hei] at hrun
    generalize (⟨fs₁, newInode (mode ||| sIfDir) 2 now, false⟩ : Work).bmapAlloc 0 = r
      at hens htook hrun
    obtain ⟨w, result⟩ := r
    obtain ⟨hdraft₂, hapart₂⟩ := hdraft.extend hapart hens.grew hens.owned
    have hgone := hdraft₂.abort hapart₂ (hr.inv h)
    cases result with
    | none =>
      cases hrun
      exact hr.gone h hgone.1 hgone.2
    | some b =>
      rw [getD_some] at hrun
      by_cases hb : b = minusOne
      · simp only [hb, if_true] at hrun
        cases hrun
        exact hr.gone h hgone.1 hgone.2
      simp only [hb, if_false] at hrun
      obtain ⟨hb0, hptr⟩ := hens.result b rfl
      have hpos : leafPos fs₁.geo.perBlock 0 = ⟨0, []⟩ := rfl
      rw [hpos, ptr_root] at hptr
      have hroot := @Pos.valid_root w.fs.geo.perBlock 0 (by decide)
      have hne : ptr w.fs w.ei ⟨0, []⟩ ≠ 0 := fun h0 => hb0 (hptr.symm.trans h0)
      have hdata := hens.owned.data hroot hne
      generalize dotBlock w.fs.geo.blockSize inode.ino dir.ino = buf at hrun
      obtain ⟨hgrew, howned⟩ := writeLeaf_spec (S := fun _ => False) (D := fun _ => True)
        hens.owned hroot (by decide) hne trivial buf rfl
      obtain ⟨hdraft₃, hapart₃⟩ := hdraft₂.extend hapart₂ hgrew howned
      rw [ptr_root, hptr] at hdata hdraft₃ hapart₃ hgrew
      simp only [writeBlock_eq hens.owned.mounted.layout hdata.lt] at hrun
      have hslots : SameSlots w.ei (setIBlocks (setISize w.ei w.fs.geo.blockSize)
          (w.fs.geo.blockSize / 512)) :=
        (sameSlots_setISize _ _).trans (sameSlots_setIBlocks _ _)
      have hcount : iBlocks (setIBlocks (setISize w.ei w.fs.geo.blockSize)
          (w.fs.geo.blockSize / 512)) = u32 (w.fs.geo.blockSize / 512) :=
        get32_put32 (u32_lt _)
      have hsize : iSize (setIBlocks (setISize w.ei w.fs.geo.blockSize)
          (w.fs.geo.blockSize / 512)) = w.fs.geo.blockSize :=
        (get32_put32_of_disjoint (by decide)).trans
          (get32_put32 hens.owned.mounted.layout.blockSize_lt)
      have hslot := hslots 0 (by decide)
      rw [← hptr, ← hslot] at hrun hdraft₃ hapart₃ hgrew
      generalize setIBlocks (setISize w.ei w.fs.geo.blockSize) (w.fs.geo.blockSize / 512) = ei
        at hslots hcount hsize hslot hrun hdraft₃ hapart₃ hgrew
      have hfirst : iBlock ei 0 ≠ 0 := hslot.trans hptr ▸ hb0
      refine hr.mkdirLink h hmem { inode with size := w.fs.geo.blockSize, ei } ?_ hapart₃ ?_
        hfirst hsize.symm (fun fs' hcall hgeo' hblocks' => ?_) hrun
      · exact { hdraft₃ with owned := hdraft₃.owned.sameSlots hslots }
      · refine tallies_firstBlock hens.owned.mounted.layout hfirst (fun p hp hne => ?_) hcount
        -- away from the first slot nothing has been filled since the inode was empty
        have hp₁ : p.Valid fs₁.geo.perBlock := hens.grew.geo ▸ hp
        have hoff : ¬ OnChain (leafPos fs₁.geo.perBlock 0) p := by
          rintro ⟨hzero, hpath⟩
          obtain ⟨slot, path⟩ := p
          obtain rfl : path = [] := List.suffix_nil.mp hpath
          obtain rfl : slot = 0 := hzero
          exact hne rfl
        rw [ptr_of_slot (hslots _ hp.slot_lt), hgrew.only p hp not_false,
          hens.grew.only p hp₁ hoff]
        exact ptr_of_slot_eq (hempty _ hp.slot_lt)
      · obtain ⟨fs₂, halloc₂, hgeo₂, hblocks₂⟩ := htook b rfl
        exact hroom dir inode.ino fs' hcall ⟨fs₁, b, fs₂, hdraft.geo, hblocks, halloc₂,
          hgeo'.trans hgeo₂, hblocks'.trans hblocks₂⟩

section

variable (hk : Kept reserved Room K) (h : K st)
include hk h

theorem Kept.removeLink {update : Inode → Inode}
    (hupdate : Steady update)
    (hrun : Ext2.removeLink st dirIno ino update = .ok (st', ok)) : K st' := by
  unfold Ext2.removeLink at hrun
  cases hmem : st.mem dirIno with
  | none => rw [hmem] at hrun; cases hrun; exact h
  | some dir =>
    simp only [hmem] at hrun
    cases hrem : Ext2.dirRemoveEntry st.fs dir ino with
    | error e => simp only [hrem] at hrun; cases hrun
    | ok r =>
      obtain ⟨fs', ok'⟩ := r
      have hk₁ := hk.removeEntry h hmem hrem
      cases ok' with
      | false => simp only [hrem] at hrun; cases hrun; exact hk₁
      | true =>
        simp only [hrem] at hrun
        have hdrop : K (State.modify ⟨fs', st.mem⟩ ino Inode.dropLink) :=
          hk.modify hk₁ ino (steady_addLinks _)
        generalize State.modify ⟨fs', st.mem⟩ ino Inode.dropLink = st₁ at hdrop hrun
        cases hback : st₁.writeBack ino with
        | none => simp only [hback] at hrun; cases hrun; exact hdrop
        | some st₂ =>
          have hk₂ : K st₂ := by
            have hput := hk.putBack hdrop ino
            rwa [State.putBack, hback, getD_some] at hput
          simp only [hback] at hrun
          cases hrun
          exact hk.modify (hk.putBack (hk.modify hk₂ dirIno hupdate) dirIno) ino fun _ =>
            ⟨rfl, SameMap.refl _⟩

theorem Kept.unlink
    (hrun : Ext2.unlink st dirIno ino now = .ok (st', ok)) : K st' := by
  unfold Ext2.unlink at hrun
  split at hrun
  · cases hrun; exact h
  · split at hrun
    · cases hrun; exact h
    · exact hk.removeLink h (steady_setMtime now) hrun

theorem Kept.rmdir
    (hrun : Ext2.rmdir st dirIno ino now = .ok (st', ok)) : K st' := by
  unfold Ext2.rmdir at hrun
  split at hrun
  · cases hrun; exact h
  · split at hrun
    · cases hrun; exact h
    · split at hrun
      · cases hrun
      · cases hrun; exact h
      · cases hrun; exact h
      · cases hremove : Ext2.removeLink st dirIno ino (fun dir => (dir.touch now).dropLink) with
        | error e => rw [hremove] at hrun; cases hrun
        | ok r =>
          obtain ⟨st₁, ok₁⟩ := r
          have hk₁ := hk.removeLink h ((steady_addLinks _).comp (steady_touch now)) hremove
          rw [hremove] at hrun
          cases ok₁ with
          | false => cases hrun; exact hk₁
          | true => cases hrun; exact hk.usedDirs hk₁ _

end

end Names

end Osx64.Ext2
