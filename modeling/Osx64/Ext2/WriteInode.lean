import Osx64.Ext2.OwnedRun
import Osx64.Lib.Run

/-!
# `ext2_write_inode` by several processes

Several inodes share a block of the inode table.  `ext2_write_inode` reads the block, replaces
the bytes of its inode and writes the block back.  No lock is held for the block: the callers
hold locks of their own file at most.

Here any number of processes are inside `ext2_write_inode`, and each request to the disk is a
step.
-/

namespace Osx64.Ext2

open Function Option Relation Ext2.Fs

/-- The arguments of a call. -/
structure WriteCall where
  ino : Nat
  ei : Buf

inductive WritePhase where
  | called
  /-- the block has been read -/
  | hasBlock (buf : Buf)
  /-- with 0, or with -1 -/
  | returned (ok : Bool)

def WritePhase.isBetween : WritePhase → Bool
  | .hasBlock _ => true
  | _ => false

/-- The call has returned 0. -/
def WritePhase.isDone : WritePhase → Bool
  | .returned ok => ok
  | _ => false

theorem WritePhase.eq_returned {phase : WritePhase} (h : phase.isDone = true) :
    phase = .returned true := by
  cases phase with
  | returned ok => exact congrArg _ h
  | called => cases h
  | hasBlock buf => cases h

/-- The volume, and where each process is. -/
structure Writers (ι : Type) where
  fs : Fs
  phase : ι → WritePhase

/-- `inode_block` -/
def inodeBlock (geo : Geometry) (ino : Nat) : Nat :=
  u32 (geo.tableBlock (inodeGroup geo ino) (inodeIndex geo ino))

/-- `memcpy(block_buf + inode_offset, ei, sizeof(struct ext2_inode))` -/
def WriteCall.patch (call : WriteCall) (geo : Geometry) (buf : Buf) : Buf :=
  buf.blit (inodeOffset geo geo.inodeSize call.ino) call.ei inodeBytes

section Writers

variable {ι : Type} [DecidableEq ι] (calls : ι → WriteCall) {fs : Fs}

/-- The next request of a process. -/
def Writers.step (st : Writers ι) (i : ι) : Option (Writers ι) :=
  match st.phase i with
  | .called =>
    let block := st.fs.readBlock (inodeBlock st.fs.geo (calls i).ino)
    some ⟨st.fs, update st.phase i (block.elim (.returned false) .hasBlock)⟩
  | .hasBlock buf =>
    let done := st.fs.writeBlock (inodeBlock st.fs.geo (calls i).ino)
      ((calls i).patch st.fs.geo buf)
    some (done.elim ⟨st.fs, update st.phase i (.returned false)⟩
      fun fs => ⟨fs, update st.phase i (.returned true)⟩)
  | .returned _ => none

/-- No other process has read the block and not yet written it. -/
def Writers.Alone (st : Writers ι) (i : ι) : Prop :=
  ∀ k, k ≠ i → inodeBlock st.fs.geo (calls k).ino = inodeBlock st.fs.geo (calls i).ino →
    (st.phase k).isBetween = false

def WriterStep (st st' : Writers ι) : Prop := ∃ i, st.step calls i = some st'

def AloneWriterStep (st st' : Writers ι) : Prop :=
  ∃ i, st.Alone calls i ∧ st.step calls i = some st'

/-- All processes have just called. -/
def Writers.initial (fs : Fs) : Writers ι := ⟨fs, fun _ => .called⟩

/-- A process that is alone does what `ext2_write_inode` does. -/
theorem write_after_read {call : WriteCall} :
    fs.writeInode call.ino call.ei = (fs.readBlock (inodeBlock fs.geo call.ino)).bind fun buf =>
      fs.writeBlock (inodeBlock fs.geo call.ino) (call.patch fs.geo buf) := rfl

/-! ## The invariant -/

variable {reserved : Nat → Prop} {calls} {st : Writers ι}

/-- A block that has been read is still the one on the disk, and an inode whose call has returned
is there. -/
structure Writers.Ok (reserved : Nat → Prop) (calls : ι → WriteCall) (st : Writers ι) : Prop where
  mounted : Mounted reserved st.fs
  valid : ∀ i, ValidIno st.fs.geo (calls i).ino
  current : ∀ i buf, st.phase i = .hasBlock buf →
    st.fs.disk (inodeBlock st.fs.geo (calls i).ino) = buf
  alone : ∀ i, (st.phase i).isBetween = true → st.Alone calls i
  written : ∀ i, st.phase i = .returned true →
    st.fs.readInode (calls i).ino = some ((calls i).ei.clip inodeBytes)

omit [DecidableEq ι] in
theorem Writers.Ok.block_lt (h : st.Ok reserved calls) (i : ι) :
    inodeBlock st.fs.geo (calls i).ino < st.fs.geo.blocksCount := by
  have hlt := h.mounted.layout.reserved_lt _ (h.mounted.layout.reserved_table _
    (inodeGroup_lt h.mounted (h.valid i)) _ (inodeIndex_lt h.mounted (calls i).ino))
  rw [inodeBlock, u32_of_lt (hlt.trans h.mounted.layout.blocksCount_lt)]
  exact hlt

/-- The block is read. -/
theorem Writers.Ok.read {i : ι} (h : st.Ok reserved calls) (halone : st.Alone calls i) :
    Writers.Ok reserved calls ⟨st.fs, update st.phase i
      (.hasBlock (st.fs.disk (inodeBlock st.fs.geo (calls i).ino)))⟩ := by
  refine ⟨h.mounted, h.valid, fun k buf hk => ?_, fun k hk j hj hblock => ?_, fun k hk => ?_⟩
  · dsimp only at hk
    rw [update_apply] at hk
    split at hk
    · next heq =>
      cases hk
      rw [heq]
    · exact h.current k buf hk
  · dsimp only at hk hj hblock ⊢
    rw [update_apply] at hk ⊢
    split at hk
    · next hki =>
      rw [if_neg (hki ▸ hj)]
      exact halone j (hki ▸ hj) (hki ▸ hblock)
    · next hki =>
      split
      · next hji =>
        -- the reader would not have been alone
        have hnot := halone k hki (hji ▸ hblock.symm)
        rw [hk] at hnot
        cases hnot
      · exact h.alone k hk j hj hblock
  · dsimp only at hk
    rw [update_apply] at hk
    split at hk
    · cases hk
    · exact h.written k hk

/-- The block is written, and nobody else has an old copy of it. -/
theorem Writers.Ok.write {i : ι} {buf : Buf} (h : st.Ok reserved calls)
    (hinj : Function.Injective fun i => (calls i).ino) (hphase : st.phase i = .hasBlock buf) :
    Writers.Ok reserved calls
      ⟨{ st.fs with
          disk := update st.fs.disk (inodeBlock st.fs.geo (calls i).ino)
            ((calls i).patch st.fs.geo buf) },
        update st.phase i (.returned true)⟩ := by
  have hlt := h.block_lt i
  have hcur := h.current i buf hphase
  have hbetween : (st.phase i).isBetween = true := by rw [hphase]; rfl
  obtain ⟨fs', hwrite, hspec⟩ := writeInode_spec h.mounted (h.valid i) (calls i).ei
  rw [write_after_read, readBlock_eq h.mounted.layout hlt, bind_some, hcur,
    writeBlock_eq h.mounted.layout hlt, some_inj] at hwrite
  rw [hwrite]
  refine ⟨hspec.mounted, fun k => ?_, fun k b hk => ?_, fun k hk j hj hblock => ?_, fun k hk => ?_⟩
  · rw [hspec.geo]
    exact h.valid k
  · dsimp only at hk ⊢
    rw [update_apply] at hk
    split at hk
    · cases hk
    next hki =>
    have hne : inodeBlock st.fs.geo (calls k).ino ≠ inodeBlock st.fs.geo (calls i).ino := by
      intro heq
      have hnot := h.alone i hbetween k hki heq
      rw [hk] at hnot
      cases hnot
    rw [← hwrite]
    exact (update_of_ne hne _ _).trans (h.current k b hk)
  · dsimp only at hk hj hblock ⊢
    rw [hspec.geo] at hblock
    rw [update_apply] at hk ⊢
    split at hk
    · cases hk
    split
    · rfl
    · exact h.alone k hk j hj hblock
  · dsimp only at hk ⊢
    rw [update_apply] at hk
    split at hk
    · next hki =>
      rw [hki]
      exact hspec.self
    · next hki =>
      rw [hspec.other _ (h.valid k) fun heq => hki (hinj heq)]
      exact h.written k hk

theorem Writers.Ok.step {st st' : Writers ι} (h : st.Ok reserved calls)
    (hinj : Function.Injective fun i => (calls i).ino) (hstep : AloneWriterStep calls st st') :
    st'.Ok reserved calls := by
  obtain ⟨i, halone, hstep⟩ := hstep
  unfold Writers.step at hstep
  split at hstep
  · cases hstep
    rw [readBlock_eq h.mounted.layout (h.block_lt i), elim_some]
    exact h.read halone
  · next buf hphase =>
    cases hstep
    rw [writeBlock_eq h.mounted.layout (h.block_lt i), elim_some]
    exact h.write hinj hphase
  · cases hstep

/-! ## Runs -/

omit [DecidableEq ι] in
theorem Writers.ok_initial (hm : Mounted reserved fs)
    (hvalid : ∀ i, ValidIno fs.geo (calls i).ino) : (initial fs : Writers ι).Ok reserved calls :=
  ⟨hm, hvalid, fun _ _ => nofun, fun _ => nofun, fun _ => nofun⟩

theorem writersOk_of_run (hm : Mounted reserved fs)
    (hvalid : ∀ i, ValidIno fs.geo (calls i).ino) (hinj : Function.Injective fun i => (calls i).ino)
    (h : ReflTransGen (AloneWriterStep calls) (Writers.initial fs) st) :
    st.Ok reserved calls := by
  induction h with
  | refl => exact Writers.ok_initial hm hvalid
  | tail _ hstep ih => exact ih.step hinj hstep

/-- If no two calls for one block overlap, every inode whose call has returned is on the disk. -/
theorem writeInode_kept {fs : Fs} {st : Writers ι} (hm : Mounted reserved fs)
    (hvalid : ∀ i, ValidIno fs.geo (calls i).ino) (hinj : Function.Injective fun i => (calls i).ino)
    (h : Relation.ReflTransGen (AloneWriterStep calls) (Writers.initial fs) st) (i : ι)
    (hreturned : st.phase i = .returned true) :
    st.fs.readInode (calls i).ino = some ((calls i).ei.clip inodeBytes) :=
  (writersOk_of_run hm hvalid hinj h).written i hreturned

end Writers

/-! ## Two inodes of one block -/

/-- The inodes 12 and 13 of the volume `sample` are in one block. -/
def twoCalls : Bool → WriteCall
  | false => ⟨12, newInode 0x81a4 1 5⟩
  | true => ⟨13, newInode 0x81a4 1 6⟩

theorem twoCalls_valid (i : Bool) : ValidIno sample.fs.geo (twoCalls i).ino := by
  cases i <;> exact ⟨by decide, by decide⟩

theorem twoCalls_injective : Function.Injective fun i => (twoCalls i).ino := by decide

instance decidableAlone (st : Writers Bool) (i : Bool) : Decidable (st.Alone twoCalls i) :=
  inferInstanceAs (Decidable (∀ k, k ≠ i → _ → _))

def aloneStep (st : Writers Bool) (i : Bool) : Option (Writers Bool) :=
  if st.Alone twoCalls i then st.step twoCalls i else none

/-- One after the other, both inodes are written. -/
theorem writeInode_kept_sample : ∃ st,
    Relation.ReflTransGen (AloneWriterStep twoCalls) (Writers.initial sample.fs) st ∧
      st.phase true = .returned true ∧
      st.fs.readInode 12 = some ((twoCalls false).ei.clip inodeBytes) := by
  obtain ⟨st, hrun, hview⟩ := (any_eq_true _ _).mp
    (by decide +kernel : (runEvents aloneStep (Writers.initial sample.fs)
      [false, false, true, true]).any
        (fun st => (st.phase false).isDone && (st.phase true).isDone) = true)
  rw [Bool.and_eq_true] at hview
  have hsteps : ReflTransGen (AloneWriterStep twoCalls) (Writers.initial sample.fs) st := by
    refine ReflTransGen.mono (fun st st' hstep => ?_) _ _ (steps_of_runEvents hrun)
    obtain ⟨i, hi⟩ := hstep
    exact ⟨i, ite_none_right_eq_some.mp hi⟩
  exact ⟨st, hsteps, WritePhase.eq_returned hview.2, writeInode_kept sample_mounted twoCalls_valid
    twoCalls_injective hsteps false (WritePhase.eq_returned hview.1)⟩

/-- The requests alternate, and the first inode is lost. -/
theorem writeInode_lost : ∃ st,
    Relation.ReflTransGen (WriterStep twoCalls) (Writers.initial sample.fs) st ∧
      st.phase false = .returned true ∧ st.phase true = .returned true ∧
      st.fs.readInode 12 ≠ some ((twoCalls false).ei.clip inodeBytes) := by
  obtain ⟨st, hrun, hview⟩ := (any_eq_true _ _).mp
    (by decide +kernel : (runEvents (Writers.step twoCalls) (Writers.initial sample.fs)
      [false, true, false, true]).any (fun st =>
        (st.phase false).isDone && ((st.phase true).isDone &&
        decide ((st.fs.readInode 12).map iSize = some 4096))) = true)
  rw [Bool.and_eq_true, Bool.and_eq_true, decide_eq_true_eq] at hview
  obtain ⟨hfirst, hsecond, hsize⟩ := hview
  refine ⟨st, steps_of_runEvents hrun, WritePhase.eq_returned hfirst,
    WritePhase.eq_returned hsecond, fun heq => ?_⟩
  rw [heq, map_some, some_inj] at hsize
  exact absurd hsize (by decide +kernel)

end Osx64.Ext2
