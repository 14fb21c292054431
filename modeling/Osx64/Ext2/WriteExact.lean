import Osx64.Ext2.WriteBytes

/-!
# When a write fails

`ext2_write` either stores all the bytes it is given or returns `-1`.  It stops at the first
block it cannot have, and does not undo anything: what it has written stays written, what
it has allocated stays allocated, and if it has allocated anything the file has grown up to
the block that is missing.

So a failed write leaves no trace only if it stops behind the block map, and has written
nothing new until then.  A write that succeeds is exact unless it writes to a hole: of a
block that is new only the bytes of the caller are known.
-/

namespace Osx64.Ext2

open Function Nat

/-! ## What is claimed -/

/-- Nothing of the call can be seen. -/
structure Untouched (fs : Fs) (inode : Inode) (pos : Nat) (r : WriteResult) : Prop where
  size : r.inode.size = inode.size
  bytes : ∀ q, byteAt r.fs r.inode q = byteAt fs inode q
  position : r.pos = pos
  blocks : iBlocks r.inode.ei = iBlocks inode.ei

/-- Exactly the first `n` bytes have been written. -/
structure Stored (fs : Fs) (inode : Inode) (data : Buf) (pos n : Nat) (r : WriteResult) :
    Prop where
  position : r.pos = pos + n
  written : ∀ q, pos ≤ q → q < pos + n → byteAt r.fs r.inode q = some (data (q - pos))
  others : ∀ q : Nat, ¬ (pos ≤ q ∧ q < pos + n) → (q : Int) < signed inode.size →
    byteAt r.fs r.inode q = byteAt fs inode q

/-- A write that returns `-1` has changed nothing, and one that returns `n` has written the
first `n` bytes. -/
def WriteExact (fs : Fs) (inode : Inode) (data : Buf) (len pos now : Nat) : Prop :=
  (write fs inode data len pos now).ret.elim
    (Untouched fs inode pos (write fs inode data len pos now))
    fun n => n ≤ len ∧ Stored fs inode data pos n (write fs inode data len pos now)

/-! ## When it holds -/

/-- The map has no place for the position `stop` of the range.  Up to there the blocks are there,
and the bytes of the caller are the ones that the file has. -/
structure Barred (fs : Fs) (inode : Inode) (data : Buf) (pos len stop : Nat) : Prop where
  le : pos ≤ stop
  lt : stop < pos + len
  outside : ¬ InMap fs.geo stop
  present : ∀ q, pos ≤ q → q < stop →
    InMap fs.geo q ∧ leafPtr fs inode.ei (blockAt fs.geo q) ≠ 0
  same : ∀ q x : Nat, pos ≤ q → q < stop → (x : Int) < signed inode.size →
    AtPlace fs.geo x (blockAt fs.geo q) (q % fs.geo.blockSize) →
    data (q - pos) = fileByte fs inode.ei x

/-- The map has a place for all of the range, and there are no fewer spare blocks than the range
misses.  No position of the file outside of the range shares its place with one inside, unless
it has the same byte.  Where the `k`-th block that is missing is one of data, the `k`-th spare block
has zeros at the positions of the file outside of the range. -/
structure Fits (fs : Fs) (inode : Inode) (data : Buf) (pos len : Nat) : Prop where
  inMap : ∀ q, pos ≤ q → q < pos + len → InMap fs.geo q
  room : (needed fs inode.ei pos len).length ≤ fs.spareBlocks.length
  overlaid : ∀ q x : Nat, pos ≤ q → q < pos + len → ¬ (pos ≤ x ∧ x < pos + len) →
    (x : Int) < signed inode.size →
    AtPlace fs.geo x (blockAt fs.geo q) (q % fs.geo.blockSize) →
    data (q - pos) = fileByte fs inode.ei x
  zeroed : ∀ k b x : Nat, ¬ (pos ≤ x ∧ x < pos + len) → (x : Int) < signed inode.size →
    InMap fs.geo x → (∀ q, pos ≤ q → q < pos + len →
      ¬ AtPlace fs.geo q (blockAt fs.geo x) (x % fs.geo.blockSize)) →
    (needed fs inode.ei pos len)[k]? = some (leafPos fs.geo.perBlock (blockAt fs.geo x)) →
    fs.spareBlocks[k]? = some b → fs.disk b (x % fs.geo.blockSize) = 0

/-- When a write does what it says. -/
def WriteClean (fs : Fs) (inode : Inode) (data : Buf) (len pos : Nat) : Prop :=
  Fits fs inode data pos len ∨ ∃ stop, Barred fs inode data pos len stop

/-! ## From the loop to the result -/

/-- How the result of `ext2_write` depends on what its loop leaves behind. -/
structure Concluded (reserved : Nat → Prop) (live : Nat → Option Buf) (ino : Nat) (inode : Inode)
    (len pos : Nat) (loop : Work × Nat × Bool) (r : WriteResult) : Prop where
  owned : Owned reserved r.fs (Function.update live ino (some r.inode.ei))
  geo : r.fs.geo = loop.1.fs.geo
  bytes : ∀ q, InMap loop.1.fs.geo q →
    fileByte r.fs r.inode.ei q = fileByte loop.1.fs loop.1.ei q
  blocks : iBlocks r.inode.ei = iBlocks loop.1.ei
  ret : r.ret = if loop.2.2 then some len else none
  position : r.pos = if loop.2.2 = true ∧ 0 < len then loop.2.1 else pos
  size : r.inode.size =
    if ((loop.2.2 = true ∧ 0 < len) ∨ loop.1.dirty = true) ∧ (loop.2.1 : Int) > signed inode.size
    then loop.2.1 else inode.size

section Write

variable {reserved : Nat → Prop} {st : State} {ino : Nat} {inode : Inode} {data : Buf}
  {len pos now : Nat}

theorem Inv.concluded (h : Inv reserved st) (hmem : st.mem ino = some inode) (data : Buf)
    (len pos now : Nat) :
    Concluded reserved (live st) ino inode len pos
      (writeLoop data ⟨st.fs, inode.ei, false⟩ pos len 0 len)
      (Ext2.write st.fs inode data len pos now) := by
  obtain ⟨rfl, hin⟩ := h.loaded ino inode hmem
  have hloop : LoopWritten reserved (live st) inode.ino (fun _ => True) ⟨st.fs, inode.ei, false⟩
      (writeLoop data ⟨st.fs, inode.ei, false⟩ pos len 0 len).1 :=
    writeLoop_spec data (h.owned_self hmem) fun _ _ _ => trivial
  unfold Ext2.write
  generalize writeLoop data ⟨st.fs, inode.ei, false⟩ pos len 0 len = loop at hloop ⊢
  obtain ⟨w, stop, ok⟩ := loop
  have howned := hloop.owned
  have hgeo : w.fs.geo = st.fs.geo := hloop.grew.geo
  dsimp only at howned ⊢
  by_cases hcommit : (ok = true ∧ 0 < len) ∨ w.dirty = true
  · rw [if_pos hcommit]
    generalize hsize : (if (stop : Int) > signed inode.size then stop else inode.size) = size
    have hmap : SameMap w.ei (touch (setISize w.ei (u32 size)) now) :=
      (sameMap_setISize _ _).trans (sameMap_touch _ _)
    generalize touch (setISize w.ei (u32 size)) now = ei at hmap
    obtain ⟨fs', hrun, hw⟩ := Fs.writeInode_spec howned.mounted (hgeo.symm ▸ hin.1) ei
    simp only [hrun]
    refine ⟨(hw.owned howned).sameSlots hmap.1, hw.geo, fun q hq => ?_, hmap.2, rfl, rfl, ?_⟩
    · -- the inode table is not part of a file
      have hlive : update (live st) inode.ino (some w.ei) inode.ino = some w.ei :=
        update_self _ _ _
      have hptr : ∀ p : Pos, p.Valid w.fs.geo.perBlock → ptr fs' ei p = ptr w.fs w.ei p :=
        fun p hp => ptr_congr hmap.1 (fun r hr _ h0 =>
          hw.disk _ (howned.dataUsed hlive hr h0).notReserved) hp
      have hdata : leafData fs' ei (blockAt w.fs.geo q) =
          leafData w.fs w.ei (blockAt w.fs.geo q) :=
        leafData_congr hw.geo (hptr _ (leafPos_valid hq)) fun h0 =>
          hw.disk _ (howned.dataUsed hlive (leafPos_valid hq) h0).notReserved
      rw [fileByte, fileByte, hw.geo, hdata]
    · simp only [hcommit, true_and]
      exact hsize.symm
  · rw [if_neg hcommit]
    have hnot : ¬ (ok = true ∧ 0 < len) := fun hok => hcommit (.inl hok)
    refine ⟨howned, rfl, fun _ _ => rfl, rfl, rfl, ?_, ?_⟩
    · rw [if_neg hnot]
    · exact (if_neg fun hboth => hcommit hboth.1).symm

/-! ## What the inode is charged for -/

variable {L : Nat → Option Buf} {w w' : Work} {stop : Nat} {S D : Pos → Prop}

theorem Grew.held_subset (hgrew : Grew reserved S D w.fs w.ei w'.fs w'.ei) :
    held w.fs w.ei ⊆ held w'.fs w'.ei := by
  intro p hp
  rw [mem_held] at hp ⊢
  rw [hgrew.geo, hgrew.keep p hp.1 hp.2]
  exact hp

section

variable (hgrew : Grew reserved S D w.fs w.ei w'.fs w'.ei)
  (ho' : Owned reserved w'.fs (update L ino (some w'.ei)))
include hgrew ho'

/-- The file holds the same blocks as before exactly if no block has become used. -/
theorem Grew.held_eq_iff :
    held w'.fs w'.ei = held w.fs w.ei ↔ (freeBlocks w'.fs).card = (freeBlocks w.fs).card := by
  have hcards := hgrew.card_add_card ho'
  constructor
  · intro hheld
    rw [hheld] at hcards
    omega
  · intro hfree
    exact (Finset.eq_of_subset_of_card_le hgrew.held_subset (by omega)).symm

/-- The loop leaves the inode clean exactly if it has allocated nothing and has not been
refused a block of the map. -/
theorem LoopBilled.clean_iff (hbill : LoopBilled w (w', stop, false)) (hclean : w.dirty = false) :
    w'.dirty = false ↔ held w'.fs w'.ei = held w.fs w.ei ∧ ¬ InMap w.fs.geo stop := by
  have hdirty := hbill.dirty
  have hle := hbill.le
  simp only [hclean, Bool.false_eq_true, false_or, true_and] at hdirty hle
  rw [hgrew.held_eq_iff ho', ← Bool.not_eq_true, hdirty, not_or]
  refine and_congr_left fun _ => ?_
  omega

/-- `i_blocks` stays as it is exactly then, as the charges of one call do not add up to
`2^32`. -/
theorem LoopBilled.charged_iff (hbill : LoopBilled w (w', stop, false)) :
    iBlocks w'.ei = iBlocks w.ei ↔
      held w'.fs w'.ei = held w.fs w.ei ∧ ¬ InMap w.fs.geo stop := by
  have hlayout := ho'.mounted.layout
  have hgeo : w'.fs.geo = w.fs.geo := hgrew.geo
  have hcards := hgrew.card_add_card ho'
  have hsmall := card_held_lt hlayout w'.ei
  have hdelta : 0 < w.fs.geo.delta := mul_pos (by decide) (Nat.two_pow_pos _)
  have hle : w.fs.geo.delta ≤ 8 := hgeo ▸ delta_le hlayout
  have hcredit := hbill.credit
  have hfree := hbill.le
  simp only [Work.credit, hgeo, true_and] at hcredit hfree
  have hlt := iBlocks_lt w.ei
  have hlt' := iBlocks_lt w'.ei
  rw [hgrew.held_eq_iff ho']
  -- `k` blocks have been taken and `c` requests refused
  obtain ⟨k, hk⟩ := Nat.exists_eq_add_of_le hfree
  obtain ⟨c, hc, hmap, hcond⟩ : ∃ c ≤ 1, (¬ InMap w.fs.geo stop ↔ c = 0) ∧
      (if InMap w.fs.geo stop then w.fs.geo.delta else 0) = w.fs.geo.delta * c := by
    by_cases hstop : InMap w.fs.geo stop
    · exact ⟨1, le_rfl, by simp [hstop], by simp [hstop]⟩
    · exact ⟨0, zero_le 1, by simp [hstop], by simp [hstop]⟩
  have hbound : w.fs.geo.delta * (k + c) ≤ 8 * (2 ^ 24 + 1) := Nat.mul_le_mul hle (by omega)
  have hzero : w.fs.geo.delta * (k + c) = 0 ↔ k = 0 ∧ c = 0 := by
    rw [mul_eq_zero]
    omega
  have hiff : iBlocks w'.ei = iBlocks w.ei ↔ w.fs.geo.delta * (k + c) = 0 := by
    rw [hcond, hk] at hcredit
    simp only [mul_add, u32] at hcredit hbound ⊢
    omega
  rw [hiff, hzero, hmap, hk]
  omega

end

/-! ## What can be read afterwards -/

section

variable (h : BytesWritten reserved L ino data w pos stop 0 w')
include h

/-- A position at the place of one that has been written. -/
theorem BytesWritten.fileByte_covered {q x : Nat} (hq : pos ≤ q) (hq' : q < stop)
    (hplace : AtPlace w.fs.geo x (blockAt w.fs.geo q) (q % w.fs.geo.blockSize)) :
    fileByte w'.fs w'.ei x = data (q - pos) := by
  rw [fileByte_eq, h.grew.geo, hplace.1, hplace.2, h.covered q hq hq', zero_add]

/-- A position at any other place. -/
theorem BytesWritten.fileByte_other {x : Nat} (hmap : InMap w.fs.geo x)
    (hout : ∀ q, pos ≤ q → q < stop →
      ¬ AtPlace w.fs.geo q (blockAt w.fs.geo x) (x % w.fs.geo.blockSize)) :
    fileByte w'.fs w'.ei x =
      if leafPtr w.fs w.ei (blockAt w.fs.geo x) = 0 ∧
          leafPtr w'.fs w'.ei (blockAt w.fs.geo x) ≠ 0
      then w.fs.disk (leafPtr w'.fs w'.ei (blockAt w.fs.geo x)) (x % w.fs.geo.blockSize)
      else fileByte w.fs w.ei x := by
  rw [fileByte_eq, h.grew.geo]
  exact h.other _ _ hmap (mod_lt _ (blockSize_pos _)) hout

end

variable {fs : Fs} {r : WriteResult} {ok : Bool}

/-- What can be read after a write: the bytes in the last state of the loop. -/
theorem Concluded.byteAt_eq (h : Concluded reserved L ino inode len pos (w', stop, ok) r)
    (hgeo : w'.fs.geo = fs.geo) (hsize : r.inode.size < 2 ^ 64) (q : Nat) :
    byteAt r.fs r.inode q = if (q : Int) < signed r.inode.size ∧ InMap fs.geo q
      then some (fileByte w'.fs w'.ei q) else none := by
  have hgeo' : r.fs.geo = fs.geo := h.geo.trans hgeo
  rw [Ext2.byteAt_eq h.owned (update_self _ _ _) hsize, hgeo']
  split
  · next hin => rw [h.bytes q (hgeo.symm ▸ hin.2)]
  · rfl

/-! ## A write that fails -/

/-- If the range up to `stop` was there, and `stop` is behind the map, the loop has filled no
hole. -/
theorem BytesWritten.held_eq {done : Nat} (h : BytesWritten reserved L ino data w pos stop done w')
    (hout : ¬ InMap w.fs.geo stop)
    (hpresent : ∀ q, pos ≤ q → q < stop → leafPtr w.fs w.ei (blockAt w.fs.geo q) ≠ 0) :
    held w'.fs w'.ei = held w.fs w.ei := by
  apply Finset.Subset.antisymm _ h.grew.held_subset
  intro p hp
  rw [mem_held] at hp ⊢
  rw [h.grew.geo] at hp
  refine ⟨hp.1, fun hhole => ?_⟩
  obtain ⟨q, hq, hstop, hmap, hchain⟩ := h.filled p hp.1 hhole hp.2
  have hlt : q < stop := by
    apply lt_of_le_of_ne hstop
    rintro rfl
    exact hout hmap
  exact hchain.ptr_ne (hpresent q hq hlt) hhole

/-- A pointer is there in both states if the file holds the same blocks in both. -/
theorem leafPtr_ne_iff (hgeo : w'.fs.geo = w.fs.geo) (hheld : held w'.fs w'.ei = held w.fs w.ei)
    {l : Nat} (hl : l < mapBlocks w.fs.geo.perBlock) :
    leafPtr w'.fs w'.ei l ≠ 0 ↔ leafPtr w.fs w.ei l ≠ 0 := by
  have hvalid := leafPos_valid hl
  have hmem := Finset.ext_iff.mp hheld (leafPos w.fs.geo.perBlock l)
  rw [mem_held, mem_held, hgeo] at hmem
  simpa only [leafPtr, hgeo, hvalid, true_and] using hmem

/-- The blocks of data that are new are the spare ones in the places of the missing ones. -/
theorem BytesWritten.new_iff {x b : Nat}
    (h : BytesWritten reserved L ino data ⟨fs, inode.ei, false⟩ pos (pos + len) 0 w')
    (hfed : Fed ⟨fs, inode.ei, false⟩ (needed fs inode.ei pos len) w') (hmap : InMap fs.geo x) :
    (leafPtr fs inode.ei (blockAt fs.geo x) = 0 ∧ leafPtr w'.fs w'.ei (blockAt fs.geo x) ≠ 0 ∧
      leafPtr w'.fs w'.ei (blockAt fs.geo x) = b) ↔
      ∃ k : Nat,
        (needed fs inode.ei pos len)[k]? = some (leafPos fs.geo.perBlock (blockAt fs.geo x)) ∧
        fs.spareBlocks[k]? = some b := by
  have hgeo : w'.fs.geo = fs.geo := h.grew.geo
  simp only [leafPtr, hgeo]
  constructor
  · rintro ⟨h0, h1, rfl⟩
    have hmem : leafPos fs.geo.perBlock (blockAt fs.geo x) ∈ needed fs inode.ei pos len := by
      by_contra hnot
      exact h1 ((hfed.old _ (leafPos_valid hmap) hnot).trans h0)
    obtain ⟨k, hk⟩ := List.mem_iff_getElem?.mp hmem
    exact ⟨k, hk, hfed.new k _ hk⟩
  · rintro ⟨k, hk, hb⟩
    obtain ⟨hhole, l, hl, hchain⟩ := mem_missingOf (List.mem_of_getElem? hk)
    obtain ⟨q, hq, hq', rfl⟩ := mem_rangeBlocks ((List.takeWhile_sublist _).mem hl)
    have hthere := h.there q hq hq'
    rw [leafPtr, hgeo] at hthere
    refine ⟨eq_of_beq hhole, hchain.ptr_ne hthere, ?_⟩
    exact Option.some.inj ((hfed.new k _ hk).symm.trans hb)

section

variable (ho : Owned reserved fs (update L ino (some inode.ei))) (hsize : inode.size < 2 ^ 64)
include ho hsize

theorem untouched_iff
    (hbytes : BytesWritten reserved L ino data ⟨fs, inode.ei, false⟩ pos stop 0 w')
    (hbill : LoopBilled ⟨fs, inode.ei, false⟩ (w', stop, false))
    (h : Concluded reserved L ino inode len pos (w', stop, false) r)
    (hle : pos ≤ stop) (hlt : stop < pos + len) :
    Untouched fs inode pos r ↔ Barred fs inode data pos len stop := by
  have hgeo : w'.fs.geo = fs.geo := hbytes.grew.geo
  have hbefore := fun q => @byteAt_eq reserved _ ino fs inode q ho (update_self _ _ _) hsize
  have hcharged := hbill.charged_iff hbytes.grew hbytes.owned
  constructor
  · intro hun
    obtain ⟨hheld, hout⟩ := hcharged.mp (h.blocks.symm.trans hun.blocks)
    refine ⟨hle, hlt, hout, ?_, ?_⟩
    · intro q hq hq'
      have hmap := hbytes.inMap q hq hq'
      exact ⟨hmap, (leafPtr_ne_iff hgeo hheld hmap).mp (hbytes.there q hq hq')⟩
    · intro q x hq hq' hx hplace
      have hmap : InMap fs.geo x := by
        rw [InMap, hplace.1]
        exact hbytes.inMap q hq hq'
      have hsame := hun.bytes x
      rw [h.byteAt_eq hgeo (hun.size.symm ▸ hsize), hbefore, hun.size, if_pos ⟨hx, hmap⟩,
        if_pos ⟨hx, hmap⟩] at hsame
      rw [← hbytes.fileByte_covered hq hq' hplace]
      exact Option.some.inj hsame
  · intro hclean
    have hheld := hbytes.held_eq hclean.outside fun q hq hq' => (hclean.present q hq hq').2
    have hdirty := (hbill.clean_iff hbytes.grew hbytes.owned rfl).mpr ⟨hheld, hclean.outside⟩
    have hsame : r.inode.size = inode.size := by
      rw [h.size]
      simp [hdirty]
    refine ⟨hsame, ?_, ?_, h.blocks.trans (hcharged.mpr ⟨hheld, hclean.outside⟩)⟩
    · intro x
      rw [h.byteAt_eq hgeo (hsame.symm ▸ hsize), hbefore, hsame]
      refine ite_congr rfl (fun hin => congrArg some ?_) fun _ => rfl
      by_cases hcov : ∃ q, pos ≤ q ∧ q < stop ∧
          AtPlace fs.geo x (blockAt fs.geo q) (q % fs.geo.blockSize)
      · obtain ⟨q, hq, hq', hplace⟩ := hcov
        rw [hbytes.fileByte_covered hq hq' hplace]
        exact hclean.same q x hq hq' hin.1 hplace
      · rw [hbytes.fileByte_other hin.2
            fun q hq hq' hplace => hcov ⟨q, hq, hq', hplace.1.symm, hplace.2.symm⟩,
          if_neg fun hnew => (leafPtr_ne_iff hgeo hheld hin.2).mp hnew.2 hnew.1]
    · rw [h.position]
      simp

/-! ## A write that succeeds -/

theorem stored_iff (hpos : pos < 2 ^ 63)
    (hbytes : BytesWritten reserved L ino data ⟨fs, inode.ei, false⟩ pos (pos + len) 0 w')
    (hfed : Fed ⟨fs, inode.ei, false⟩ (needed fs inode.ei pos len) w')
    (hroom : (needed fs inode.ei pos len).length ≤ fs.spareBlocks.length)
    (h : Concluded reserved L ino inode len pos (w', pos + len, true) r) :
    Stored fs inode data pos len r ↔ Fits fs inode data pos len := by
  have hgeo : w'.fs.geo = fs.geo := hbytes.grew.geo
  have hend : pos + len < 2 ^ 63 := end_lt_of_inMap ho.mounted.layout hbytes.inMap hpos
  have hbefore := fun q => @byteAt_eq reserved _ ino fs inode q ho (update_self _ _ _) hsize
  have hnew := h.size
  simp only [true_and] at hnew
  have hrsize : r.inode.size < 2 ^ 64 := by
    rw [hnew]
    split <;> omega
  -- the size never gets smaller, and it covers what has been written
  have hgrows : signed inode.size ≤ signed r.inode.size ∧
      (0 < len → ((pos + len : Nat) : Int) ≤ signed r.inode.size) := by
    rw [hnew]
    split
    · have hstop : signed (pos + len) = ((pos + len : Nat) : Int) := if_pos hend
      omega
    · next hno =>
        refine ⟨le_rfl, fun hlen => ?_⟩
        omega
  have hafter := h.byteAt_eq hgeo hrsize
  have hposition : r.pos = pos + len := by
    rw [h.position]
    split
    · rfl
    · simp_all
  have hwritten : ∀ q, pos ≤ q → q < pos + len →
      byteAt r.fs r.inode q = some (data (q - pos)) := by
    intro q hq hq'
    rw [hafter, if_pos ⟨by omega, hbytes.inMap q hq hq'⟩,
      hbytes.fileByte_covered hq hq' ⟨rfl, rfl⟩]
  have hothers : (∀ q : Nat, ¬ (pos ≤ q ∧ q < pos + len) → (q : Int) < signed inode.size →
        byteAt r.fs r.inode q = byteAt fs inode q) ↔
      ∀ q : Nat, ¬ (pos ≤ q ∧ q < pos + len) → (q : Int) < signed inode.size →
        InMap fs.geo q → fileByte w'.fs w'.ei q = fileByte fs inode.ei q := by
    refine forall_congr' fun q => imp_congr_right fun _ => imp_congr_right fun hq => ?_
    have hq' : (q : Int) < signed r.inode.size := by omega
    by_cases hmap : InMap fs.geo q <;> simp [hafter, hbefore, hq, hq', hmap]
  constructor
  · intro hst
    have hbytes' := hothers.mp hst.others
    refine ⟨hbytes.inMap, hroom, ?_, ?_⟩
    · intro q x hq hq' hx hsz hplace
      have hmap : InMap fs.geo x := by
        rw [InMap, hplace.1]
        exact hbytes.inMap q hq hq'
      rw [← hbytes.fileByte_covered hq hq' hplace]
      exact hbytes' x hx hsz hmap
    · intro k b x hx hsz hmap hout hk hb
      obtain ⟨h0, h1, rfl⟩ := (hbytes.new_iff hfed hmap).mpr ⟨k, hk, hb⟩
      have hother := hbytes.fileByte_other hmap hout
      rw [if_pos ⟨h0, h1⟩, hbytes' x hx hsz hmap, fileByte_eq, placeByte_hole h0] at hother
      exact hother.symm
  · intro hclean
    refine ⟨hposition, hwritten, hothers.mpr fun x hx hsz hmap => ?_⟩
    by_cases hcov : ∃ q, pos ≤ q ∧ q < pos + len ∧
        AtPlace fs.geo x (blockAt fs.geo q) (q % fs.geo.blockSize)
    · obtain ⟨q, hq, hq', hplace⟩ := hcov
      rw [hbytes.fileByte_covered hq hq' hplace]
      exact hclean.overlaid q x hq hq' hx hsz hplace
    · have hout : ∀ q, pos ≤ q → q < pos + len →
          ¬ AtPlace fs.geo q (blockAt fs.geo x) (x % fs.geo.blockSize) :=
        fun q hq hq' hplace => hcov ⟨q, hq, hq', hplace.1.symm, hplace.2.symm⟩
      rw [hbytes.fileByte_other hmap hout]
      split
      · next hnew =>
          obtain ⟨k, hk, hb⟩ := (hbytes.new_iff hfed hmap).mp ⟨hnew.1, hnew.2, rfl⟩
          rw [hclean.zeroed k _ x hx hsz hmap hout hk hb, fileByte_eq, placeByte_hole hnew.1]
      · rfl

end

/-- Where the range is barred, the loop stops. -/
theorem Barred.stop_eq {stop' : Nat} (hbar : Barred fs inode data pos len stop')
    (hbytes : BytesWritten reserved L ino data ⟨fs, inode.ei, false⟩ pos stop 0 w')
    (hbill : LoopBilled ⟨fs, inode.ei, false⟩ (w', stop, false)) (hle : pos ≤ stop) :
    stop' = stop := by
  rcases Nat.lt_trichotomy stop' stop with hlt | heq | hgt
  · exact absurd (hbytes.inMap stop' hbar.le hlt) hbar.outside
  · exact heq
  · obtain ⟨hmap, hne⟩ := hbar.present stop hle hgt
    have hkeep := hbytes.grew.keep _ (leafPos_valid hmap) hne
    exact absurd (hkeep.symm.trans (hbill.failed rfl hmap)) hne

section

variable (h : Inv reserved st) (hmem : st.mem ino = some inode)
include h hmem

/-- A range that fits is written to its end. -/
theorem Inv.writeLoop_fits (hfits : Fits st.fs inode data pos len) :
    (writeLoop data ⟨st.fs, inode.ei, false⟩ pos len 0 len).2.2 = true := by
  have ho := h.owned_self hmem
  obtain ⟨-, hle, -, hstop⟩ := @writeLoop_bytes reserved (live st) ino ⟨st.fs, inode.ei, false⟩
    data pos len 0 len ho le_rfl
  have hshort := (@writeLoop_served reserved (live st) ino ⟨st.fs, inode.ei, false⟩ data pos len 0
    len ho le_rfl).1
  by_contra hfail
  rw [Bool.not_eq_true] at hfail
  exact Nat.not_lt.mpr hfits.room (hshort.mp ⟨hfail, hfits.inMap _ hle (hstop hfail)⟩)

/-- What a write that comes to its end has done. -/
theorem Inv.stored_iff (hsize : inode.size < 2 ^ 64) (hpos : pos < 2 ^ 63)
    (hok : (writeLoop data ⟨st.fs, inode.ei, false⟩ pos len 0 len).2.2 = true) :
    (Stored st.fs inode data pos len (write st.fs inode data len pos now) ↔
      Fits st.fs inode data pos len) ∧ (¬∃ stop, Barred st.fs inode data pos len stop) ∧
      (inode.size < 2 ^ 63 → pos ≤ inode.size →
        (write st.fs inode data len pos now).inode.size = max inode.size (pos + len)) := by
  have ho := h.owned_self hmem
  have hconcl := h.concluded hmem data len pos now
  obtain ⟨hbytes, -, hend, -⟩ := @writeLoop_bytes reserved (live st) ino
    ⟨st.fs, inode.ei, false⟩ data pos len 0 len ho le_rfl
  obtain ⟨hshort, hfed⟩ := @writeLoop_served reserved (live st) ino ⟨st.fs, inode.ei, false⟩ data
    pos len 0 len ho le_rfl
  generalize writeLoop data ⟨st.fs, inode.ei, false⟩ pos len 0 len = loop at *
  obtain ⟨w', stop, ok⟩ := loop
  obtain rfl : ok = true := hok
  obtain rfl : stop = pos + len := hend rfl
  have hroom := Nat.not_lt.mp ((not_congr hshort).mp fun hfail => by cases hfail.1)
  refine ⟨Ext2.stored_iff ho hsize hpos hbytes (hfed rfl) hroom hconcl, ?_, fun hlt hle => ?_⟩
  · rintro ⟨stop, hbar⟩
    exact hbar.outside (hbytes.inMap stop hbar.le hbar.lt)
  · have hnew := hconcl.size
    simp only [signed, if_pos hlt, true_and] at hnew
    rw [hnew]
    split <;> omega

end

/-- A write that returns `-1` leaves no trace, and one that returns a number has written that
many bytes, exactly in these cases. -/
theorem writeExact_iff (h : Inv reserved st) (hmem : st.mem ino = some inode)
    (hsize : inode.size < 2 ^ 64) (hpos : pos < 2 ^ 63) :
    WriteExact st.fs inode data len pos now ↔ WriteClean st.fs inode data len pos := by
  have ho := h.owned_self hmem
  have hconcl := h.concluded hmem data len pos now
  have hfits := @Inv.writeLoop_fits reserved st ino inode data len pos h hmem
  have hstored := @Inv.stored_iff reserved st ino inode data len pos now h hmem hsize hpos
  obtain ⟨hbytes, hle, -, hstop⟩ := @writeLoop_bytes reserved (live st) ino
    ⟨st.fs, inode.ei, false⟩ data pos len 0 len ho le_rfl
  have hbill := @writeLoop_billed reserved (live st) ino ⟨st.fs, inode.ei, false⟩ data pos len 0
    len ho
  rw [WriteExact, WriteClean, hconcl.ret]
  generalize writeLoop data ⟨st.fs, inode.ei, false⟩ pos len 0 len = loop at *
  obtain ⟨w', stop, ok⟩ := loop
  cases ok with
  | false =>
    rw [or_iff_right fun hin => Bool.false_ne_true (hfits hin)]
    refine (untouched_iff ho hsize hbytes hbill hconcl hle (hstop rfl)).trans
      ⟨fun hbar => ⟨stop, hbar⟩, ?_⟩
    rintro ⟨stop', hbar⟩
    exact hbar.stop_eq hbytes hbill hle ▸ hbar
  | true =>
    obtain ⟨hiff, hnot, -⟩ := hstored rfl
    rw [or_iff_left hnot]
    simpa using hiff

/-- A write that fails must not change the size. -/
theorem not_writeExact_of_size (hret : (write fs inode data len pos now).ret = none)
    (hne : (write fs inode data len pos now).inode.size ≠ inode.size) :
    ¬ WriteExact fs inode data len pos now := by
  intro h
  rw [WriteExact, hret] at h
  exact hne h.size

/-- In a file without holes that does not reach the wrap of the block number, a write that there is
room for is clean. -/
theorem fits_of_present (hmap : ∀ q, pos ≤ q → q < pos + len → InMap fs.geo q)
    (hroom : (needed fs inode.ei pos len).length ≤ fs.spareBlocks.length)
    (hpresent : ∀ x : Nat, (x : Int) < signed inode.size →
      leafPtr fs inode.ei (blockAt fs.geo x) ≠ 0)
    (hend : max (signed inode.size) (pos + len) ≤ (2 ^ 32 * fs.geo.blockSize : Nat)) :
    Fits fs inode data pos len := by
  refine ⟨hmap, hroom, ?_, ?_⟩
  · intro q x hq hq' hx hsz hplace
    exfalso
    apply hx
    have hblock : x / fs.geo.blockSize = q / fs.geo.blockSize := by
      have hfits : ∀ y, y < 2 ^ 32 * fs.geo.blockSize → blockAt fs.geo y = y / fs.geo.blockSize :=
        fun y hy => u32_of_lt (Nat.div_lt_of_lt_mul (Nat.mul_comm _ _ ▸ hy))
      rw [← hfits x (by omega), ← hfits q (by omega)]
      exact hplace.1
    have heq : x = q := by
      rw [← div_add_mod x fs.geo.blockSize, hblock, hplace.2, div_add_mod]
    omega
  · intro k b x _ hsz _ _ hk _
    have hhole := (mem_missingOf (List.mem_of_getElem? hk)).1
    exact absurd (eq_of_beq hhole) (hpresent x hsz)

end Write

/-- The four blocks of file `a` are there. -/
theorem fits_sample {data : Buf} {pos len : Nat} (hend : pos + len ≤ 8192)
    (hroom : (needed sample.fs sampleFile.ei pos len).length ≤ sample.fs.spareBlocks.length) :
    Fits sample.fs sampleFile data pos len := by
  have hsize : signed sampleFile.size = 4096 := by decide +kernel
  have hgeo : sample.fs.geo.blockSize = 1024 := rfl
  have hpresent : ∀ l < 4, leafPtr sample.fs sampleFile.ei l ≠ 0 := by decide +kernel
  refine fits_of_present ?_ hroom ?_ ?_
  · intro q _ hq
    rw [InMap, blockAt, hgeo, u32]
    exact lt_of_le_of_lt (show _ ≤ 7 by omega) (by decide)
  · intro x hx
    apply hpresent
    rw [blockAt, hgeo, u32]
    omega
  · rw [hsize, hgeo]
    omega

/-- Ten bytes at the head of file `a`. -/
theorem writeExact_iff_sample : sampleFile.size < 2 ^ 64 ∧
    WriteExact sample.fs sampleFile (fun _ => 1) 10 0 1 :=
  ⟨by decide +kernel, (writeExact_iff sampleFile_inv sampleFile_mem (by decide +kernel)
    (by decide)).mpr (.inl (fits_sample (by decide) (by decide +kernel)))⟩

/-- The small volume has four free blocks.  A write of five blocks behind file `a` returns
`-1`, but the file has become four blocks longer. -/
theorem not_writeExact_of_full : Inv sampleReserved (Ext2.load sample 12) ∧
    (Ext2.load sample 12).mem 12 = some sampleFile ∧ sampleFile.size = 4096 ∧
    (write sample.fs sampleFile (fun _ => 1) 5120 4096 1).ret = none ∧
    (write sample.fs sampleFile (fun _ => 1) 5120 4096 1).inode.size = 8192 ∧
    ¬ WriteExact sample.fs sampleFile (fun _ => 1) 5120 4096 1 := by
  have hold : sampleFile.size = 4096 := by decide +kernel
  have hret : (write sample.fs sampleFile (fun _ => 1) 5120 4096 1).ret = none := by
    decide +kernel
  have hnew : (write sample.fs sampleFile (fun _ => 1) 5120 4096 1).inode.size = 8192 := by
    decide +kernel
  refine ⟨sampleFile_inv, sampleFile_mem, hold, hret, hnew, not_writeExact_of_size hret ?_⟩
  rw [hnew, hold]
  decide

end Osx64.Ext2
