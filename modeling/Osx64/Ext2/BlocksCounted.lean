import Osx64.Ext2.Supply

/-!
# `i_blocks` counts the blocks of an inode

`i_blocks` is kept beside the block map: `ext2_bmap_alloc` adds to it at every block it asks
for, `ext2_truncate_blocks` takes off at every block it frees, and `ext2_mkdir` sets it.  As
long as there are blocks for what is missing, it is the number of blocks the map holds, in
sectors, over every run.

`ext2_bmap_alloc` adds before it looks at the answer.  When the volume is full, `i_blocks`
counts a block that is not there.
-/

namespace Osx64.Ext2

open Function Option Finset Relation State

/-! ## The invariant -/

/-- The copy of inode `ino` that counts has the right block count; while the inode is loaded,
its copy on disk has the same pointers and the same count. -/
structure Tallied (st : State) (ino : Nat) : Prop where
  count : ∀ ei, live st ino = some ei → Tallies st.fs ei
  stored : ∀ inode ei, st.mem ino = some inode → st.fs.readInode ino = some ei →
    SameMap ei inode.ei

/-- What the operations keep as long as they find the blocks they ask for. -/
structure CountInv (reserved : Nat → Prop) (st : State) : Prop extends Inv reserved st where
  tallied : ∀ ino, Tallied st ino

section Changes

variable {reserved : Nat → Prop} {st st' : State} {fs' : Fs} {ino : Nat} {inode inode' : Inode}
  {ei : Buf} {S D : Pos → Prop}

section

variable (h : CountInv reserved st)
include h

/-- How an operation on one inode is shown to keep the counts. -/
theorem CountInv.change (he : Elsewhere st ino st')
    (hapart : Apart st.fs (live st) ino st'.fs) (hinv : Inv reserved st')
    (hself : Tallied st' ino) : CountInv reserved st' := by
  refine ⟨hinv, fun j => ?_⟩
  by_cases hj : j = ino
  · rw [hj]
    exact hself
  refine ⟨fun ej hlive => ?_, fun inode ej hmem hread => ?_⟩
  · rw [he.live_eq, update_of_ne hj] at hlive
    exact ((h.tallied j).count ej hlive).congr he.geo fun p hp => hapart.ptr_eq hj hlive hp
  · rw [he.mem j hj] at hmem
    rw [he.tables j (h.loaded j inode hmem).2.1 hj] at hread
    exact (h.tallied j).stored inode ej hmem hread

theorem CountInv.gone (hgone : Gone st ino st')
    (hinv : Inv reserved st') : CountInv reserved st' := by
  refine h.change hgone.toElsewhere hgone.apart hinv ⟨fun ei hlive => ?_, fun inode _ hmem _ => ?_⟩
  · rw [live_of_not hgone.unused] at hlive
    cases hlive
  · exact absurd (hinv.loaded ino inode hmem).2 hgone.unused

/-- The count of a loaded inode. -/
theorem CountInv.tallies (hmem : st.mem ino = some inode) :
    Tallies st.fs inode.ei :=
  (h.tallied ino).count _ (live_of_mem (h.loaded ino inode hmem).2 hmem)

end

/-- An inode in memory is right if its own count is, and its copy on disk is the same. -/
theorem Tallied.of_mem (hinv : Inv reserved st) (hmem : st.mem ino = some inode)
    (htally : Tallies st.fs inode.ei)
    (hstored : ∀ ei, st.fs.readInode ino = some ei → SameMap ei inode.ei) : Tallied st ino := by
  refine ⟨fun ei hlive => ?_, fun inode₁ ei hmem₁ hread => ?_⟩
  · rw [live_of_mem (hinv.loaded ino inode hmem).2 hmem, some_inj] at hlive
    exact hlive ▸ htally
  · rw [hmem, some_inj] at hmem₁
    exact hmem₁ ▸ hstored ei hread

section

variable (h : CountInv reserved st)
include h

/-- The copy in memory becomes `inode'`, and is written to disk. -/
theorem CountInv.commit (hmem : st.mem ino = some inode) {fs₁ : Fs}
    (hs : Staged reserved st ino inode' fs₁) (htally : Tallies fs₁ inode'.ei)
    (hrun : fs₁.writeInode ino inode'.ei = some fs') :
    CountInv reserved ⟨fs', update st.mem ino (some inode')⟩ := by
  have hvalid : ValidIno fs₁.geo ino := hs.geo ▸ (h.loaded ino inode hmem).2.1
  obtain ⟨he, hinv⟩ := hs.commit h.toInv hmem hrun
  obtain ⟨fs'', hrun', hw⟩ := Fs.writeInode_spec hs.owned.mounted hvalid inode'.ei
  obtain rfl : fs' = fs'' := some_inj.mp (hrun.symm.trans hrun')
  refine h.change he ?_ hinv ?_
  · exact hs.apart.trans (hs.owned.apart fun c hc _ => hw.disk c hc.notReserved) hs.geo
  · apply Tallied.of_mem hinv (update_self _ _ _) (hw.tallies hs.owned htally)
    intro ei hread
    rw [hw.self, some_inj] at hread
    exact hread ▸ (sameMap_clip inode'.ei).symm

/-- Data has been written, and pointers and count in memory are as before. -/
theorem CountInv.extend (hmem : st.mem ino = some inode) (inode' : Inode) (hi : inode'.ino = ino)
    (hgrew : Grew reserved S D st.fs inode.ei fs' inode'.ei)
    (howned : Owned reserved fs' (update (live st) ino (some inode'.ei)))
    (hmap : SameMap inode.ei inode'.ei) (htally : Tallies fs' inode'.ei) :
    CountInv reserved ⟨fs', update st.mem ino (some inode')⟩ := by
  obtain ⟨he, hinv⟩ := h.toInv.extend hmem inode' hi hgrew howned
  refine h.change he (hgrew.apart (h.owned_self hmem)) hinv ?_
  apply Tallied.of_mem hinv (update_self _ _ _) htally
  intro ei hread
  have hvalid := (h.loaded ino inode hmem).2.1
  rw [hgrew.tables ino hvalid] at hread
  exact ((h.tallied ino).stored inode ei hmem hread).trans hmap

theorem CountInv.modify (ino : Nat) {f : Inode → Inode}
    (hf : Steady f) : CountInv reserved (st.modify ino f) := by
  have hinv := h.toInv.modify ino hf.tame
  cases hmem : st.mem ino with
  | none =>
    rw [modify_of_none hmem]
    exact h
  | some inode =>
    refine h.change (Elsewhere.modify st ino f) (Apart.refl _ _ _) hinv ?_
    have hmem' : (st.modify ino f).mem ino = some (f inode) := by
      rw [modify_of_mem hmem]
      exact update_self _ _ _
    apply Tallied.of_mem hinv hmem' ((h.tallies hmem).sameMap (hf inode).2)
    intro ei hread
    exact ((h.tallied ino).stored inode ei hmem hread).trans (hf inode).2

theorem CountInv.putBack (ino : Nat) : CountInv reserved (st.putBack ino) := by
  cases hmem : st.mem ino with
  | none =>
    have hsame : st.putBack ino = st := by
      rw [State.putBack, writeBack, hmem, bind_none, getD_none]
    rw [hsame]
    exact h
  | some inode =>
    have hstaged : Staged reserved st ino inode st.fs := ⟨(h.loaded ino inode hmem).1,
      h.owned_self hmem, rfl, rfl, fun _ _ => rfl, Apart.refl _ _ _⟩
    obtain ⟨fs', hrun, -⟩ := hstaged.stored h.toInv hmem
    have hcount := h.commit hmem hstaged (h.tallies hmem) hrun
    rw [← hmem, update_eq_self] at hcount
    rw [State.putBack, writeBack, hmem, bind_some, hrun, map_some,
      getD_some]
    exact hcount

theorem CountInv.load (hin : InUse st.fs ino)
    (hmem : st.mem ino = none) (hread : st.fs.readInode ino = some ei) (inode : Inode)
    (hi : inode.ino = ino) (hmap : SameMap ei inode.ei) :
    CountInv reserved ⟨st.fs, update st.mem ino (some inode)⟩ := by
  have hinv := h.toInv.load hin hmem hread inode hi hmap.1
  have htally : Tallies st.fs ei :=
    (h.tallied ino).count ei ((live_of_disk hin hmem).trans hread)
  refine h.change (Elsewhere.store st ino _ rfl rfl fun _ _ _ => rfl) (Apart.refl _ _ _) hinv ?_
  apply Tallied.of_mem hinv (update_self _ _ _) (htally.sameMap hmap)
  intro ei' hread'
  rw [hread, some_inj] at hread'
  exact hread' ▸ hmap

/-- The copy on disk has the same count, so the one in memory can go. -/
theorem CountInv.unload (hmem : st.mem ino = some inode) :
    CountInv reserved ⟨st.fs, update st.mem ino none⟩ := by
  have hin := (h.loaded ino inode hmem).2
  have hnone : update st.mem ino none ino = none := update_self _ _ _
  refine h.change (Elsewhere.store st ino none rfl rfl fun _ _ _ => rfl) (Apart.refl _ _ _)
    (h.toInv.unload hmem) ⟨fun ei hlive => ?_, fun inode₁ _ h₁ _ => ?_⟩
  · rw [@live_of_disk ⟨st.fs, update st.mem ino none⟩ _ hin hnone] at hlive
    exact (h.tallies hmem).sameMap ((h.tallied ino).stored inode ei hmem hlive).symm
  · cases hnone.symm.trans h₁

theorem CountInv.withUsedDirs (usedDirs : Nat → Nat) :
    CountInv reserved ⟨{ st.fs with usedDirs }, st.mem⟩ :=
  ⟨h.toInv.withUsedDirs usedDirs, fun ino => ⟨(h.tallied ino).count, (h.tallied ino).stored⟩⟩

end

end Changes

/-! ## What a write is charged for -/

/-- What the loop of `ext2_write` has charged: the blocks it took, and one more if it
stopped inside the map, at a block that is not there. -/
structure LoopBilled (w : Work) (r : Work × Nat × Bool) : Prop where
  geo : r.1.fs.geo = w.fs.geo
  credit : u32 r.1.credit =
    u32 (w.credit + if r.2.2 = false ∧ InMap w.fs.geo r.2.1 then w.fs.geo.delta else 0)
  le : (freeBlocks r.1.fs).card ≤ (freeBlocks w.fs).card
  dirty : r.1.dirty = true ↔ w.dirty = true ∨
    (freeBlocks r.1.fs).card < (freeBlocks w.fs).card ∨ (r.2.2 = false ∧ InMap w.fs.geo r.2.1)
  failed : r.2.2 = false → InMap w.fs.geo r.2.1 →
    ptr r.1.fs r.1.ei (leafPos w.fs.geo.perBlock (blockAt w.fs.geo r.2.1)) = 0

section Billing

variable {reserved : Nat → Prop} {L : Nat → Option Buf} {ino : Nat} {w : Work}

theorem loopBilled_refl (w : Work) (pos : Nat) : LoopBilled w (w, pos, true) := by
  constructor <;> simp

/-- One round is charged for what `ext2_bmap_alloc` is charged for. -/
theorem writeChunk_billed (data : Buf) (offset len done pos : Nat)
    (ho : Owned reserved w.fs (update L ino (some w.ei))) :
    LoopBilled w
      ((writeChunk data w (blockAt w.fs.geo pos) offset len done).1, pos,
        (writeChunk data w (blockAt w.fs.geo pos) offset len done).2) := by
  rw [writeChunk_eq data offset len done ho]
  by_cases hmap : InMap w.fs.geo pos
  · have hbill := Work.bmapAlloc_billed ho hmap
    generalize w.bmapAlloc (blockAt w.fs.geo pos) = r at hbill
    obtain ⟨w₁, result⟩ := r
    have hcredit := hbill.credit
    have hdirty := hbill.dirty
    cases result with
    | none => exact ⟨hbill.geo, by simpa [hmap] using hcredit, hbill.le,
      by simpa [hmap] using hdirty, fun _ _ => (hbill.failed rfl).2⟩
    | some b =>
      -- copying the bytes changes neither bitmap nor inode
      have hfree : ∀ disk, freeBlocks { w₁.fs with disk } = freeBlocks w₁.fs := fun disk =>
        freeBlocks_congr rfl rfl
      refine ⟨hbill.geo, ?_, ?_, ?_, fun h => by cases h⟩
      · simpa [Work.credit, hfree] using hcredit
      · simpa [hfree] using hbill.le
      · simpa [hfree] using hdirty
  · rw [Work.bmapAlloc_beyond (Nat.le_of_not_lt hmap)]
    constructor <;> simp [hmap]

theorem LoopBilled.trans {w₁ : Work} {pos : Nat} {r : Work × Nat × Bool}
    (h : LoopBilled w (w₁, pos, true)) (h' : LoopBilled w₁ r) : LoopBilled w r := by
  have hgeo : w₁.fs.geo = w.fs.geo := h.geo
  have hcredit := h.credit
  have hdirty := h.dirty
  have hle := h.le
  have hle' := h'.le
  simp only [Bool.true_eq_false, false_and, if_false, or_false, Nat.add_zero] at hcredit hdirty
  refine ⟨h'.geo.trans hgeo, ?_, hle'.trans hle, ?_, hgeo ▸ h'.failed⟩
  · rw [h'.credit, hgeo]
    exact u32_add_congr hcredit _
  · rw [h'.dirty, hdirty, hgeo]
    exact taken_trans hle hle'

theorem writeLoop_billed (data : Buf) (pos count done fuel : Nat)
    (ho : Owned reserved w.fs (update L ino (some w.ei))) :
    LoopBilled w (writeLoop data w pos count done fuel) := by
  induction fuel generalizing w pos count done with
  | zero => exact loopBilled_refl w pos
  | succ fuel ih =>
    by_cases hcount : count = 0
    · rw [writeLoop, if_pos hcount]
      exact loopBilled_refl w pos
    rw [writeLoop_succ data w pos hcount]
    dsimp only
    generalize min (w.fs.geo.blockSize - pos % w.fs.geo.blockSize) count = step
    have hbill := writeChunk_billed data (pos % w.fs.geo.blockSize) step done pos ho
    have howned := (writeChunk_spec data (pos % w.fs.geo.blockSize) step done ho
      (blockAt w.fs.geo pos)).owned
    rw [blockAt] at hbill howned
    generalize writeChunk data w _ _ step done = r at hbill howned
    obtain ⟨w₁, ok⟩ := r
    cases ok with
    | false => exact hbill
    | true => exact hbill.trans (ih _ _ _ howned)

end Billing

/-! ## The operations -/

/-- In a block of the directory there is a record with room for the name. -/
def HasPlace (fs : Fs) (dir : Inode) (nameLen : Nat) : Prop :=
  ∃ l, l < sizeBlocks fs.geo dir.size ∧ l < mapBlocks fs.geo.perBlock ∧ ∃ n,
    let b := ptr fs dir.ei (leafPos fs.geo.perBlock l)
    b ≠ 0 ∧ recordAt (fs.disk b) 0 n < fs.geo.blockSize ∧
      HasRoom (fs.disk b) (recordAt (fs.disk b) 0 n) nameLen

/-- There is a place in the directory, or blocks enough to extend it. -/
def Roomy (fs : Fs) (dir : Inode) (name : List UInt8) (_ino _type : Nat) : Prop :=
  HasPlace fs dir name.length ∨ (missingBehind fs dir).length ≤ fs.spareBlocks.length

section Operations

variable {reserved : Nat → Prop} {st st' : State} {dirIno ino type now : Nat}
  {dir dir' inode : Inode} {name : List UInt8} {fs' : Fs} {ok : Bool}

theorem Rewrote.tallies {L : Nat → Option Buf} {fs : Fs} {ei : Buf}
    (h : Rewrote reserved L ino fs ei fs') (htally : Tallies fs ei) : Tallies fs' ei :=
  htally.congr h.grew.geo fun p hp => h.grew.only p hp not_false

theorem CountInv.rewrite (h : CountInv reserved st) (hmem : st.mem ino = some inode)
    (hre : Rewrote reserved (live st) ino st.fs inode.ei fs') :
    CountInv reserved ⟨fs', update st.mem ino (some inode)⟩ :=
  h.extend hmem inode (h.loaded ino inode hmem).1 hre.grew hre.owned (SameMap.refl _)
    (hre.tallies (h.tallies hmem))

/-- A scan that finds no place looks at every record. -/
theorem Inv.not_hasPlace (h : Inv reserved st) (hmem : st.mem dirIno = some dir)
    (hplace : NoPlace st.fs dir name ino type) : ¬HasPlace st.fs dir name.length := by
  rintro ⟨l, hsize, hl, n, hne, hn, hroom⟩
  have hlive := live_of_mem (h.loaded dirIno dir hmem).2 hmem
  have hbmap := h.owned.bmap_eq hlive hl
  obtain ⟨b, hread, hscan⟩ := scanDir_missing hplace (List.mem_range.mpr hsize) (hbmap.symm ▸ hne)
  rw [hbmap, Fs.readBlock_eq h.owned.mounted.layout
    (h.owned.dataUsed hlive (leafPos_valid hl) hne).lt, some_inj] at hread
  subst hread
  obtain ⟨prev, hvisit⟩ := scanBlock_none hscan (Nat.le_add_left _ _) hn
  exact placeEntry_none hvisit hroom

/-- Where the directory has to be extended, there are the blocks for it. -/
theorem Inv.bmapAlloc_isSome (h : Inv reserved st) (hmem : st.mem dirIno = some dir)
    (hroom : Roomy st.fs dir name ino type) (hplace : NoPlace st.fs dir name ino type)
    (hlt : sizeBlocks st.fs.geo dir.size < mapBlocks st.fs.geo.perBlock) :
    ((⟨st.fs, dir.ei, false⟩ : Work).bmapAlloc (sizeBlocks st.fs.geo dir.size)).2.isSome := by
  have hserved := Work.bmapAlloc_served (w := ⟨st.fs, dir.ei, false⟩) (h.owned_self hmem) hlt
  rw [hserved.isSome_iff]
  have hle := hroom.resolve_left (h.not_hasPlace hmem hplace)
  rw [missingBehind, mapped_cons_of_lt hlt] at hle
  simpa [missing, missingOf, mapped] using hle

/-- What is known of the directory beforehand is known when the entry is added. -/
theorem Called.roomy (h : Inv reserved st) {d : Inode}
    (hcall : Called st dirIno d ino fs') {k : Nat}
    (hspare : st.fs.spareBlocks.length = k + fs'.spareBlocks.length)
    (hroom : HasPlace st.fs d name.length ∨
      k + (missingBehind st.fs d).length ≤ st.fs.spareBlocks.length) :
    Roomy fs' d name ino type := by
  have hlive := live_of_mem (h.loaded dirIno d hcall.mem).2 hcall.mem
  have hptr := fun {p : Pos} (hp : p.Valid st.fs.geo.perBlock) =>
    hcall.apart.ptr_eq hcall.ne.symm hlive hp
  rcases hroom with ⟨l, hsize, hl, n, hne, hn, hroom⟩ | hle
  · refine .inl ⟨l, hcall.geo ▸ hsize, hcall.geo ▸ hl, n, ?_⟩
    have hdisk := hcall.apart _ _ hcall.ne.symm hlive _ (leafPos_valid hl) hne
    simp only [hcall.geo, hptr (leafPos_valid hl), hdisk]
    exact ⟨hne, hn, hroom⟩
  · refine .inr ?_
    have hsame : missingBehind fs' d = missingBehind st.fs d := by
      rw [missingBehind, missing, hcall.geo]
      exact missingOf_congr (fun _ => lt_of_mem_mapped) fun p hp => by rw [hptr hp]
    rw [hsame]
    omega

theorem TookBlock.spare {fs : Fs} (h : TookBlock fs fs') :
    fs.spareBlocks.length = 1 + fs'.spareBlocks.length := by
  obtain ⟨fs₁, b, fs₂, hgeo, hblocks, halloc, hgeo', hblocks'⟩ := h
  rw [← Fs.spareBlocks_congr hgeo hblocks, Fs.spareBlocks_of_some halloc,
    Fs.spareBlocks_congr hgeo' hblocks', List.length_cons, Nat.add_comm]

theorem CountInv.dirAddEntry (h : CountInv reserved st) (hmem : st.mem dirIno = some dir)
    (hroom : Roomy st.fs dir name ino type)
    (hrun : Ext2.dirAddEntry st.fs dir name ino type = .ok (fs', dir', ok)) :
    CountInv reserved ⟨fs', update st.mem dirIno (some dir')⟩ := by
  have hi := (h.loaded dirIno dir hmem).1
  have hens := Work.bmapAlloc_spec (w := ⟨st.fs, dir.ei, false⟩) (h.owned_self hmem)
    (sizeBlocks st.fs.geo dir.size)
  cases hbmap : (⟨st.fs, dir.ei, false⟩ : Work).bmapAlloc (sizeBlocks st.fs.geo dir.size) with
  | mk w result =>
  rw [hbmap] at hens
  rcases h.dirAddEntry_cases hmem hbmap hrun with
    ⟨rfl, hre⟩ | ⟨hplace, rfl, rfl, rfl⟩ | ⟨hsome, rfl, fs₁, hre, rfl⟩
  · exact h.rewrite hmem hre
  · -- the request was for a block behind the map, and nothing has changed
    have hbeyond : mapBlocks st.fs.geo.perBlock ≤ sizeBlocks st.fs.geo dir.size := by
      by_contra hlt
      have hsome := h.bmapAlloc_isSome hmem hroom hplace (Nat.lt_of_not_le hlt)
      rw [hbmap] at hsome
      cases hsome
    have hsame := Work.bmapAlloc_beyond (w := ⟨st.fs, dir.ei, false⟩) hbeyond
    rw [hbmap] at hsame
    cases hsame
    exact h.rewrite hmem ⟨Grew.refl reserved _ _ _ _, h.owned_self hmem⟩
  · obtain ⟨b, rfl⟩ := ne_none_iff_exists'.mp hsome
    have hlt : sizeBlocks st.fs.geo dir.size < mapBlocks st.fs.geo.perBlock :=
      Work.bmapAlloc_lt (w := ⟨st.fs, dir.ei, false⟩) (b := b) (by rw [hbmap])
    have hbill := Work.bmapAlloc_billed (w := ⟨st.fs, dir.ei, false⟩) (h.owned_self hmem) hlt
    rw [hbmap] at hbill
    have htally : Tallies w.fs w.ei := by
      apply tallies_of_credit hens.grew hens.owned _ (h.tallies hmem)
      simpa using hbill.credit
    have hstaged := hens.staged (h.owned_self hmem) hi hre (u64 (dir.size + st.fs.geo.blockSize))
      (u32 (u64 (dir.size + st.fs.geo.blockSize)))
    obtain ⟨fs₂, hput, -⟩ := hstaged.stored h.toInv hmem
    rw [Fs.putInode_eq hput]
    exact h.commit hmem hstaged ((hre.tallies htally).sameMap (sameMap_setISize _ _)) hput

/-- The counts have the rules of the operations on names, as long as there is room for the
entries. -/
theorem CountInv.kept (reserved : Nat → Prop) :
    Kept reserved Roomy (CountInv reserved) where
  inv h := h.toInv
  modify h ino hf := h.modify ino hf
  putBack h ino := h.putBack ino
  usedDirs h usedDirs := h.withUsedDirs usedDirs
  load h hin hmem hread inode hi hmap := h.load hin hmem hread inode hi hmap
  addEntry h hmem hroom hrun := h.dirAddEntry hmem hroom hrun
  removeEntry h hmem hrun := by
    have hcount := h.rewrite hmem (h.dirRemoveEntry_cases hmem hrun)
    rwa [← hmem, update_eq_self] at hcount
  commit {st ino ei fs fs'} h hdraft hapart htally hrun := by
    obtain ⟨fs'', hwrite, hw, hin, he, hinv⟩ := hdraft.commit h.toInv
    obtain rfl : fs' = fs'' := some_inj.mp (hrun.symm.trans hwrite)
    have hnone : st.mem ino = none := h.not_loaded hdraft.free
    refine h.change he ?_ hinv ⟨fun ei' hlive => ?_, fun inode _ hmem _ => ?_⟩
    · exact hapart.trans (hdraft.owned.apart fun c hc _ => hw.disk c hc.notReserved) hdraft.geo
    · rw [@live_of_disk ⟨fs', st.mem⟩ _ hin hnone, hw.self, some_inj] at hlive
      exact hlive ▸ (hw.tallies hdraft.owned htally).sameMap (sameMap_clip ei)
    · cases hnone.symm.trans hmem
  abort h hdraft hapart := by
    obtain ⟨hgone, hinv⟩ := hdraft.abort hapart h.toInv
    exact h.gone hgone hinv
  giveBack h hin hmem hread hfreed hB := by
    obtain ⟨hgone, hinv⟩ := h.toInv.giveBack hin hmem hread hfreed hB
    exact h.gone hgone hinv

/-- They have the rules of the operations on files, too. -/
theorem CountInv.rules (reserved : Nat → Prop) :
    Rules reserved Roomy (fun _ => True) True (CountInv reserved) where
  inv h := h.toInv
  amend h ino hf := (h.modify ino hf.1).putBack ino
  usedDirs h usedDirs := h.withUsedDirs usedDirs
  load h hin hmem inode hi hread _ := h.load hin hmem hread inode hi (sameMap_clip _).symm
  addEntry h hmem hroom hrun := h.dirAddEntry hmem hroom hrun
  commit h hdraft hapart htally hrun := (CountInv.kept reserved).commit h hdraft hapart htally hrun
  unload h hmem := h.unload hmem
  gone h hgone hinv := h.gone hgone hinv
  store h hmem hs _ htally hrun := h.commit hmem hs (htally trivial (h.tallies hmem)) hrun
  data {st ino inode _ _ _} h hmem hgrew howned htally := by
    have hcount := h.extend hmem inode (h.loaded ino inode hmem).1 hgrew howned (SameMap.refl _)
      (htally trivial (h.tallies hmem))
    rwa [← hmem, update_eq_self] at hcount

/-- A write that finds the blocks it asks for is charged for what it takes. -/
theorem Inv.writeLoop_tallies (h : Inv reserved st) (hmem : st.mem ino = some inode) (data : Buf)
    (len pos : Nat) {w : Work} {stop : Nat} {done : Bool}
    (hloop : writeLoop data ⟨st.fs, inode.ei, false⟩ pos len 0 len = (w, stop, done))
    (hroom : (needed st.fs inode.ei pos len).length ≤ st.fs.spareBlocks.length)
    (htally : Tallies st.fs inode.ei) :
    Tallies w.fs w.ei := by
  have howned := h.owned_self hmem
  have hspec : LoopWritten reserved (live st) ino (fun _ => True) ⟨st.fs, inode.ei, false⟩
      (writeLoop data ⟨st.fs, inode.ei, false⟩ pos len 0 len).1 :=
    writeLoop_spec data howned fun _ _ _ => trivial
  have hbill := writeLoop_billed data pos len 0 len (w := ⟨st.fs, inode.ei, false⟩) howned
  have hserved := (@writeLoop_served reserved (live st) ino ⟨st.fs, inode.ei, false⟩ data pos len 0
    len howned le_rfl).1
  rw [hloop] at hspec hbill hserved
  have hnot := (not_congr hserved).mpr (Nat.not_lt.mpr hroom)
  apply tallies_of_credit hspec.grew hspec.owned _ htally
  simpa [hnot] using hbill.credit

end Operations

/-! ## Runs -/

/-- The operations, with `ext2_dir_add_entry` as one of its own. -/
inductive Event
  | op (o : Op)
  | addEntry (dir : Nat) (name : List UInt8) (ino type : Nat)

/-- One event at time `now`. -/
def Event.run (now : Nat) (st : State) : Event → Except Fault State
  | op o => o.run now st
  | addEntry dir name ino type =>
    match st.mem dir with
    | none => .ok st
    | some d => (dirAddEntry st.fs d name ino type).map fun (fs, d, _) =>
      ⟨fs, update st.mem dir (some d)⟩

/-- There are blocks for what is missing inside the map: for the range of a write, and behind a
directory that has no place for a name.  `ext2_mkdir` takes one more before that, and ends early
if there is none.  The other operations are safe. -/
def Event.Supplied (st : State) : Event → Prop
  | op (.create dir name _) => ∀ d, st.mem dir = some d →
      HasPlace st.fs d name.length ∨ (missingBehind st.fs d).length ≤ st.fs.spareBlocks.length
  | op (.mkdir dir name _) => ∀ d, st.mem dir = some d → HasPlace st.fs d name.length ∨
      st.fs.spareBlocks = [] ∨ 1 + (missingBehind st.fs d).length ≤ st.fs.spareBlocks.length
  | op (.write ino _ len pos) => ∀ inode, st.mem ino = some inode →
      (needed st.fs inode.ei pos len).length ≤ st.fs.spareBlocks.length
  | op o => o.Safe st
  | addEntry dir name _ _ => ∀ d, st.mem dir = some d →
      HasPlace st.fs d name.length ∨ (missingBehind st.fs d).length ≤ st.fs.spareBlocks.length

/-- Some event leads from `st` to `st'`. -/
def EventStep (st st' : State) : Prop := ∃ e now, Event.run now st e = .ok st'

/-- Some event that there are blocks for leads from `st` to `st'`. -/
def SuppliedStep (st st' : State) : Prop :=
  ∃ e now, e.Supplied st ∧ Event.run now st e = .ok st'

/-- The data and pointer blocks reachable from the array `i_block`. -/
def blocksOf (fs : Fs) (ei : Buf) : Finset Nat := (held fs ei).image (ptr fs ei)

/-- `i_blocks` of every inode in use is the number of its blocks, in sectors of 512 bytes. -/
def BlocksCounted (st : State) : Prop :=
  ∀ ino ei, live st ino = some ei →
    iBlocks ei = st.fs.geo.blockSize / 512 * (blocksOf st.fs ei).card

section Run

variable {reserved : Nat → Prop} {st st' : State} {ino : Nat} {fs : Fs} {ei : Buf}

theorem delta_eq (geo : Geometry) : geo.blockSize / 512 = geo.delta := by
  rw [Geometry.blockSize, Geometry.delta]
  omega

/-- On an owned volume an inode has a block for every position it holds. -/
theorem Inv.card_blocksOf (h : Inv reserved st) (hlive : live st ino = some ei) :
    (blocksOf st.fs ei).card = (held st.fs ei).card := by
  apply card_image_of_injOn
  intro p hp q hq heq
  rw [mem_coe, mem_held] at hp hq
  exact (h.owned.inj hlive hp.1 hlive hq.1 hp.2 heq).2

theorem CountInv.blocksCounted (h : CountInv reserved st) : BlocksCounted st := by
  intro ino ei hlive
  rw [h.card_blocksOf hlive, delta_eq]
  exact (h.tallied ino).count ei hlive

theorem Consistent.countInv (h : Consistent reserved st) (hcount : BlocksCounted st) :
    CountInv reserved st := by
  refine ⟨h.inv, fun ino => ⟨fun ei hlive => ?_, fun inode ei hmem hread => ?_⟩⟩
  · rw [Tallies, ← h.inv.card_blocksOf hlive, ← delta_eq]
    exact hcount ino ei hlive
  · rw [(h.loaded ino inode hmem).2.2, some_inj] at hread
    exact hread ▸ SameMap.refl _

/-- Every event that there are blocks for keeps the counts right. -/
theorem CountInv.step (h : CountInv reserved st) (hstep : SuppliedStep st st') :
    CountInv reserved st' := by
  obtain ⟨e, now, hroom, hrun⟩ := hstep
  cases e with
  | addEntry dir name ino type =>
    rw [Event.run] at hrun
    cases hmem : st.mem dir with
    | none => rw [hmem] at hrun; cases hrun; exact h
    | some d =>
      rw [hmem] at hrun
      dsimp only at hrun
      cases hadd : Ext2.dirAddEntry st.fs d name ino type with
      | error e => rw [hadd] at hrun; cases hrun
      | ok r =>
        rw [hadd] at hrun
        cases hrun
        exact h.dirAddEntry hmem (hroom d hmem) hadd
  | op o =>
    refine (CountInv.rules reserved).step (CountInv.kept reserved) h ?_ hrun
    cases o with
    | create dir name mode =>
      intro d ino fs hcall hblocks
      have hspare : st.fs.spareBlocks.length = 0 + fs.spareBlocks.length := by
        rw [Fs.spareBlocks_congr hcall.geo hblocks, Nat.zero_add]
      exact hcall.roomy h.toInv hspare (by simpa using hroom d hcall.mem)
    | mkdir dir name mode =>
      intro d ino fs hcall htook
      refine hcall.roomy h.toInv htook.spare ((hroom d hcall.mem).imp_right fun hroom => ?_)
      have hpos : st.fs.spareBlocks.length ≠ 0 := by
        rw [htook.spare]
        omega
      exact hroom.resolve_left fun hnil => hpos (List.length_eq_zero_iff.mpr hnil)
    | write ino data len pos =>
      intro inode hmem
      exact ⟨trivial, fun _ w stop done hloop => h.writeLoop_tallies hmem data len pos hloop
        (hroom inode hmem)⟩
    | setattr ino attr => exact fun inode hmem newSize hattr =>
      ⟨(hattr ▸ hroom : Op.Safe st (.setattr ino (some newSize))) inode hmem, fun _ _ => trivial⟩
    | _ => trivial

theorem CountInv.run (h : CountInv reserved st)
    (hrun : ReflTransGen SuppliedStep st st') : CountInv reserved st' := by
  induction hrun with
  | refl => exact h
  | tail _ hstep ih => exact ih.step hstep

/-- In every state of every run in which there are blocks for what is missing, `i_blocks` of every
inode in use counts its blocks. -/
theorem blocksCounted_of_supplied_run (hinit : Consistent reserved st)
    (hcount : BlocksCounted st) (hrun : Relation.ReflTransGen SuppliedStep st st') :
    BlocksCounted st' :=
  ((hinit.countInv hcount).run hrun).blocksCounted

end Run

/-! ## The small volume -/

/-- An inode without indirect blocks. -/
theorem blocksOf_direct {fs : Fs} {ei : Buf} (hind : iBlock ei indBlock = 0)
    (hdind : iBlock ei dindBlock = 0) :
    blocksOf fs ei = ((range ndirBlocks).image (iBlock ei)).erase 0 := by
  ext b
  rw [blocksOf, mem_image, mem_erase, mem_image]
  constructor
  · rintro ⟨⟨slot, path⟩, hp, rfl⟩
    rw [mem_held] at hp
    have hslot : slot < ndirBlocks := by
      by_contra hge
      have hlt : slot < 14 := hp.1.slot_lt
      have hcases : slot = indBlock ∨ slot = dindBlock := by
        simp only [ndirBlocks, indBlock, dindBlock] at *
        omega
      rcases hcases with rfl | rfl
      · exact hp.2 (ptr_of_slot_eq hind)
      · exact hp.2 (ptr_of_slot_eq hdind)
    have hpath : path = [] := by
      have hlen := hp.1.depth
      simpa [slotLevel, hslot] using hlen
    subst hpath
    exact ⟨hp.2, slot, mem_range.mpr hslot, rfl⟩
  · rintro ⟨hne, slot, hslot, rfl⟩
    have hlt : slot < 14 := (mem_range.mp hslot).trans (by decide)
    exact ⟨⟨slot, []⟩, mem_held.mpr ⟨⟨hlt, Nat.zero_le _, by simp⟩, hne⟩, rfl⟩

theorem sample_blocksCounted : BlocksCounted sample := by
  intro ino ei hlive
  have hin : InUse sample.fs ino := by
    by_contra hin
    rw [live_of_not hin] at hlive
    cases hlive
  have hall : ∀ ino < 17, ∀ ei ∈ live sample ino, iBlock ei indBlock = 0 ∧
      iBlock ei dindBlock = 0 ∧
      iBlocks ei = 2 * (((range ndirBlocks).image (iBlock ei)).erase 0).card := by
    decide +kernel
  obtain ⟨hind, hdind, hcount⟩ := hall ino (Nat.lt_succ_of_le hin.1.2) ei hlive
  rw [blocksOf_direct hind hdind]
  exact hcount

/-- The small volume after `len` bytes have been written behind file `a`. -/
def sampleAppended (len : Nat) : State :=
  let r := Ext2.write (Ext2.load sample 12).fs sampleFile (fun _ => 1) len 4096 1
  ⟨r.fs, update (Ext2.load sample 12).mem 12 (some r.inode)⟩

theorem sampleAppended_run (len : Nat) :
    Event.run 1 (Ext2.load sample 12) (.op (.write 12 (fun _ => 1) len 4096)) =
      .ok (sampleAppended len) := by
  rw [Event.run, Op.run, sampleFile_mem]
  rfl

/-- File `a` is extended by one block. -/
theorem blocksCounted_of_supplied_run_sample :
    Relation.ReflTransGen SuppliedStep sample (sampleAppended 10) ∧
      BlocksCounted (sampleAppended 10) := by
  have hload : SuppliedStep sample (Ext2.load sample 12) := ⟨.op (.load 12), 0, rfl, rfl⟩
  have hwrite : SuppliedStep (Ext2.load sample 12) (sampleAppended 10) := by
    refine ⟨.op (.write 12 (fun _ => 1) 10 4096), 1, ?_, sampleAppended_run 10⟩
    intro inode hmem
    obtain rfl : sampleFile = inode := some_inj.mp (sampleFile_mem.symm.trans hmem)
    decide +kernel
  have hrun := (ReflTransGen.single hload).tail hwrite
  exact ⟨hrun, blocksCounted_of_supplied_run sample_consistent sample_blocksCounted hrun⟩

/-- Four blocks are free, and five are written behind the four of file `a`.  The write
fails, and `i_blocks` counts nine blocks, where there are eight. -/
theorem not_blocksCounted_of_full : Consistent sampleReserved sample ∧ BlocksCounted sample ∧
    ∃ st', Relation.ReflTransGen EventStep sample st' ∧ ¬ BlocksCounted st' := by
  have hload : EventStep sample (Ext2.load sample 12) := ⟨.op (.load 12), 0, rfl⟩
  have hrun := (ReflTransGen.single hload).tail ⟨_, 1, sampleAppended_run 5120⟩
  refine ⟨sample_consistent, sample_blocksCounted, sampleAppended 5120, hrun, fun h => ?_⟩
  have hfacts : ∃ ei, live (sampleAppended 5120) 12 = some ei ∧ iBlock ei indBlock = 0 ∧
      iBlock ei dindBlock = 0 ∧ iBlocks ei = 18 ∧
      (((range ndirBlocks).image (iBlock ei)).erase 0).card = 8 := by
    refine ⟨(Ext2.write (Ext2.load sample 12).fs sampleFile (fun _ => 1) 5120 4096 1).inode.ei,
      ?_, ?_⟩
    · apply live_of_mem
      · decide +kernel
      · exact update_self 12 _ (Ext2.load sample 12).mem
    · decide +kernel
  obtain ⟨ei, hlive, hind, hdind, hcount, hcard⟩ := hfacts
  have hwrong := h 12 ei hlive
  have hgeo : (sampleAppended 5120).fs.geo.blockSize / 512 = 2 := by decide +kernel
  rw [blocksOf_direct hind hdind, hcard, hcount, hgeo] at hwrong
  cases hwrong

end Osx64.Ext2
