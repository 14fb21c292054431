import Osx64.Ext2.BlocksCounted

/-!
# The bytes a write leaves behind

A place is a logical block and an offset in it.  After the loop of `ext2_write` has gone
from `pos` to `stop`, the places of the positions in between have the bytes of the caller,
and the other places have what they had before, with one exception: a block that has been
allocated for the write has, around the bytes of the caller, whatever was on the disk there
(`writeLoop_bytes`).

For this the proof follows what becomes of blocks that are free.  A request for a block
writes pointer blocks only, and a block is not touched before it is handed out.
-/

namespace Osx64.Ext2

open Function Option Nat Work

/-! ## What a request for a block writes -/

/-- Apart from metadata, only blocks that hold pointers afterwards have been written. -/
def PointersOnly (reserved : Nat → Prop) (w w' : Work) : Prop :=
  ∀ c, ¬ reserved c →
    (∀ q : Pos, q.Valid w.fs.geo.perBlock → q.Inner → ptr w'.fs w'.ei q ≠ c) →
    w'.fs.disk c = w.fs.disk c

section Pointers

variable {reserved : Nat → Prop} {live : Nat → Option Buf} {ino slot parent j l b : Nat}
  {w w₁ w₂ : Work} {zero : Bool} {q : Pos} {S D : Pos → Prop}

theorem PointersOnly.trans (h : PointersOnly reserved w w₁) (h' : PointersOnly reserved w₁ w₂)
    (hzero : reserved 0) (hgeo : w₁.fs.geo = w.fs.geo)
    (hgrew : Grew reserved S D w₁.fs w₁.ei w₂.fs w₂.ei) : PointersOnly reserved w w₂ := by
  intro c hc hnot
  rw [h' c hc fun q hq => hnot q (hgeo ▸ hq)]
  apply h c hc
  intro q hq hin heq
  -- a pointer block of the state in between is one afterwards
  have hne : ptr w₁.fs w₁.ei q ≠ 0 := by
    rw [heq]
    rintro rfl
    exact hc hzero
  exact hnot q hq hin ((hgrew.keep q (hgeo.symm ▸ hq) hne).trans heq)

/-- Taking a block writes the bitmap, and the block itself if it is cleared. -/
theorem disk_take (hm : Mounted reserved w.fs) {fs₁ : Fs}
    (halloc : w.fs.allocBlock = some (b, fs₁)) {c : Nat} (hc : ¬ reserved c)
    (hne : zero = true → c ≠ b) :
    (if zero then fs₁.setBlockAllZero b else fs₁).disk c = w.fs.disk c := by
  have hspec := Fs.allocBlock_spec hm halloc
  cases zero with
  | false => exact hspec.frame.disk c (hm.ne_blockBitmap hc)
  | true => exact (hspec.toFresh true).disk c (hne rfl) (hm.ne_blockBitmap hc)

section

variable (h : Owned reserved w.fs (update live ino (some w.ei)))
include h

theorem Work.ensureSlot_pointers (hslot : slot < 14) (hzero : zero = true ↔ 0 < slotLevel slot) :
    PointersOnly reserved w (w.ensureSlot slot zero).1 := by
  have hens := ensureSlot_spec (S := fun _ => True) h trivial hslot hzero.mpr
  intro c hc hnot
  unfold ensureSlot at hens hnot ⊢
  by_cases hhole : iBlock w.ei slot = 0
  · simp only [hhole, if_true] at hens hnot ⊢
    cases halloc : w.fs.allocBlock with
    | none => rfl
    | some r =>
      obtain ⟨b, fs₁⟩ := r
      simp only [halloc] at hens hnot ⊢
      apply disk_take h.mounted halloc hc
      rintro hz rfl
      have hroot := @Pos.valid_root w.fs.geo.perBlock slot hslot
      exact hnot ⟨slot, []⟩ hroot (hzero.mp hz) (hens.result c rfl).2
  · simp only [hhole, if_false]

theorem Work.ensureEntry_pointers
    (hq : q.Valid w.fs.geo.perBlock) (hin : q.Inner) (hparent : ptr w.fs w.ei q = parent)
    (hne : parent ≠ 0) (hj : j < w.fs.geo.perBlock) (hzero : zero = true ↔ (q.child j).Inner) :
    PointersOnly reserved w (w.ensureEntry parent j zero).1 := by
  have hens := ensureEntry_spec (S := fun _ => True) h trivial hq hin hparent hne hj
    hzero.mpr
  have hdata : DataUsed reserved w.fs parent := hparent ▸ h.data hq (hparent ▸ hne)
  have hkeep := hens.grew.keep q hq (hparent ▸ hne)
  intro c hc hnot
  have hcp : c ≠ parent := by
    rintro rfl
    exact hnot q hq hin (hkeep.trans hparent)
  unfold ensureEntry at hens hnot ⊢
  rw [Fs.readBlock_eq h.mounted.layout hdata.lt] at hens hnot ⊢
  by_cases hhole : (w.fs.disk parent).get32 (4 * j) = 0
  · simp only [hhole, if_true] at hens hnot ⊢
    cases halloc : w.fs.allocBlock with
    | none => rfl
    | some r =>
      obtain ⟨b, fs₁⟩ := r
      simp only [halloc] at hens hnot ⊢
      have hfresh := (Fs.allocBlock_spec h.mounted halloc).toFresh zero
      rw [Fs.putBlock_eq hfresh.mounted.layout (hfresh.geo ▸ hdata.lt)]
      refine (update_of_ne hcp _ _).trans (disk_take h.mounted halloc hc ?_)
      rintro hz rfl
      exact hnot (q.child j) (hq.child hin hj) (hzero.mp hz) (hens.result c rfl).2
  · simp only [hhole, if_false]

/-- `ext2_bmap_alloc` writes pointer blocks only; the block it returns is as it was. -/
theorem Work.bmapAlloc_pointers (l : Nat) : PointersOnly reserved w (w.bmapAlloc l).1 := by
  by_cases hl : l < mapBlocks w.fs.geo.perBlock
  · have hboth : Ensured reserved live ino (fun _ => True) (leafPos w.fs.geo.perBlock l) w
        (w.bmapAlloc l) ∧ PointersOnly reserved w (w.bmapAlloc l).1 := by
      apply bmapAlloc_rec (R := fun p r =>
        Ensured reserved live ino (fun _ => True) p w r ∧ PointersOnly reserved w r.1) hl
      · intro slot zero hslot hzero _
        exact ⟨ensureSlot_spec h trivial hslot hzero.mpr,
          ensureSlot_pointers h hslot hzero⟩
      · intro q j zero r ⟨hens, hptr⟩ hq hin hj hzero _
        have hgeo := hens.grew.geo
        have hq' : q.Valid r.1.fs.geo.perBlock := hgeo ▸ hq
        have hj' : j < r.1.fs.geo.perBlock := hgeo ▸ hj
        refine ⟨hens.andThen fun b hb0 hb =>
          ensureEntry_spec hens.owned trivial hq' hin hb hb0 hj' hzero.mpr, ?_⟩
        obtain ⟨w₁, result⟩ := r
        cases result with
        | none => exact hptr
        | some b =>
          obtain ⟨hb0, hb⟩ := hens.result b rfl
          apply hptr.trans (ensureEntry_pointers hens.owned hq' hin hb hb0 hj' hzero)
            h.mounted.layout.reserved_zero hgeo
          exact (ensureEntry_spec (S := fun _ => True) hens.owned trivial hq' hin hb hb0
            hj' hzero.mpr).grew
    exact hboth.2
  · rw [bmapAlloc_beyond (Nat.le_of_not_lt hl)]
    exact fun _ _ _ => rfl

end

end Pointers

/-! ## Places -/

/-- The pointer to a logical block. -/
def leafPtr (fs : Fs) (ei : Buf) (l : Nat) : Nat := ptr fs ei (leafPos fs.geo.perBlock l)

/-- The byte at offset `o` of a logical block; a hole is full of zeros. -/
def placeByte (fs : Fs) (ei : Buf) (l o : Nat) : UInt8 := ((leafData fs ei l).getD Buf.zero) o

/-- The position `q` is at offset `o` of the logical block `l`. -/
def AtPlace (geo : Geometry) (q l o : Nat) : Prop := blockAt geo q = l ∧ q % geo.blockSize = o

section Places

variable {reserved : Nat → Prop} {fs : Fs} {ei : Buf} {l o q q' pos stop : Nat}

theorem fileByte_eq (fs : Fs) (ei : Buf) (q : Nat) :
    fileByte fs ei q = placeByte fs ei (blockAt fs.geo q) (q % fs.geo.blockSize) := rfl

theorem placeByte_hole (h : leafPtr fs ei l = 0) (o : Nat) : placeByte fs ei l o = 0 := by
  rw [placeByte, leafData_eq_none.mpr h]
  rfl

theorem placeByte_of_ne (h : leafPtr fs ei l ≠ 0) (o : Nat) :
    placeByte fs ei l o = fs.disk (leafPtr fs ei l) o := by
  have hdata : leafData fs ei l = some (fs.disk (leafPtr fs ei l)) := if_neg h
  rw [placeByte, hdata, getD_some]

/-- The last number that fits in 32 bits is no logical block. -/
theorem not_inMap_of_block (hgeo : Layout fs.geo reserved)
    (h : q / fs.geo.blockSize % 2 ^ 32 = 2 ^ 32 - 1) : ¬ InMap fs.geo q := by
  have hmap := mapBlocks_lt hgeo.logBlockSize_le
  rw [InMap, blockAt, u32, h]
  omega

section

variable (hgeo : Layout fs.geo reserved) (hmap : ∀ q, pos ≤ q → q < stop → InMap fs.geo q)
include hgeo hmap

/-- A range inside the map has no two positions at one place: between them the number of
the block would have to wrap. -/
theorem place_inj (hq : pos ≤ q) (hlt : q < q')
    (hq' : q' < stop) (hblock : blockAt fs.geo q' = blockAt fs.geo q) :
    q' % fs.geo.blockSize ≠ q % fs.geo.blockSize := by
  intro hoff
  have hbs := hgeo.blockSize_pos
  have hdiv := div_add_mod q fs.geo.blockSize
  have hdiv' := div_add_mod q' fs.geo.blockSize
  rw [blockAt, blockAt, u32, u32] at hblock
  have hlast := fun x => @not_inMap_of_block reserved fs x hgeo
  generalize hB : fs.geo.blockSize = B at *
  have hle : q / B ≤ q' / B := Nat.div_le_div_right hlt.le
  have hne : q / B ≠ q' / B := by
    intro heq
    rw [heq] at hdiv
    omega
  -- the last block before the wrap, and its first position
  generalize ha : q / B = a at *
  generalize hb : q' / B = b at *
  have hc : ∃ c, a ≤ c ∧ c < b ∧ c % 2 ^ 32 = 2 ^ 32 - 1 :=
    ⟨a + (2 ^ 32 - 1 - a % 2 ^ 32), by omega, by omega, by omega⟩
  obtain ⟨c, hac, hcb, hmod⟩ := hc
  rcases eq_or_lt_of_le hac with rfl | hlt'
  · exact hlast q (by rw [ha]; exact hmod) (hmap q hq (by omega))
  · have hfirst : B * c / B = c := Nat.mul_div_cancel_left c hbs
    have hlow : B * a + B ≤ B * c := by
      rw [← mul_succ]
      exact mul_le_mul_left B hlt'
    have hhigh : B * c + B ≤ B * b := by
      rw [← mul_succ]
      exact mul_le_mul_left B hcb
    have hr := mod_lt q hbs
    exact hlast (B * c) (by rw [hfirst]; exact hmod) (hmap _ (by omega) (by omega))

/-- A range inside the map ends before the last file position. -/
theorem end_lt_of_inMap (hpos : pos < 2 ^ 63) :
    stop < 2 ^ 63 := by
  by_contra hge
  apply @not_inMap_of_block reserved fs (2 ^ 63 - 1) hgeo
  · rcases hgeo.blockSize_cases with h | h | h <;> simp [h]
  · exact hmap _ (by omega) (by omega)

end

end Places

/-! ## What the loop leaves behind -/

/-- The bytes from `done` on of `data` have been written to the positions from `pos` to `stop`.
Other places are as before, and a block that is new has what the disk had. -/
structure BytesWritten (reserved : Nat → Prop) (live : Nat → Option Buf) (ino : Nat) (data : Buf)
    (w : Work) (pos stop done : Nat) (w' : Work) : Prop where
  owned : Owned reserved w'.fs (Function.update live ino (some w'.ei))
  grew : Grew reserved (fun _ => True) (fun _ => True) w.fs w.ei w'.fs w'.ei
  free : ∀ c, ¬ reserved c → w'.fs.blockUsed c = false → w'.fs.disk c = w.fs.disk c
  filled : ∀ p : Pos, p.Valid w.fs.geo.perBlock → ptr w.fs w.ei p = 0 → ptr w'.fs w'.ei p ≠ 0 →
    ∃ q, pos ≤ q ∧ q ≤ stop ∧ InMap w.fs.geo q ∧
      OnChain (leafPos w.fs.geo.perBlock (blockAt w.fs.geo q)) p
  inMap : ∀ q, pos ≤ q → q < stop → InMap w.fs.geo q
  there : ∀ q, pos ≤ q → q < stop → leafPtr w'.fs w'.ei (blockAt w.fs.geo q) ≠ 0
  covered : ∀ q, pos ≤ q → q < stop →
    placeByte w'.fs w'.ei (blockAt w.fs.geo q) (q % w.fs.geo.blockSize) = data (done + (q - pos))
  other : ∀ l o, l < mapBlocks w.fs.geo.perBlock → o < w.fs.geo.blockSize →
    (∀ q, pos ≤ q → q < stop → ¬ AtPlace w.fs.geo q l o) →
    placeByte w'.fs w'.ei l o =
      if leafPtr w.fs w.ei l = 0 ∧ leafPtr w'.fs w'.ei l ≠ 0 then
        w.fs.disk (leafPtr w'.fs w'.ei l) o
      else placeByte w.fs w.ei l o

section Bytes

variable {reserved : Nat → Prop} {live : Nat → Option Buf} {ino : Nat} {data : Buf}
  {w w₁ w₂ : Work} {pos mid stop done len : Nat}

/-- The part of the disk that is free is not written. -/
theorem PointersOnly.free (h : PointersOnly reserved w w₁)
    (ho : Owned reserved w₁.fs (update live ino (some w₁.ei)))
    (hgeo : w₁.fs.geo = w.fs.geo) {c : Nat} (hc : ¬ reserved c)
    (hfree : w₁.fs.blockUsed c = false) : w₁.fs.disk c = w.fs.disk c := by
  apply h c hc
  intro q hq _ heq
  have hne : ptr w₁.fs w₁.ei q ≠ 0 := by
    rw [heq]
    rintro rfl
    exact hc ho.mounted.layout.reserved_zero
  have hdata := ho.data (hgeo.symm ▸ hq) hne
  rw [heq] at hdata
  rw [hdata.used] at hfree
  cases hfree

/-- A request for the block of `pos` writes no byte of the file. -/
theorem bytesWritten_bmapAlloc (data : Buf)
    (ho : Owned reserved w.fs (update live ino (some w.ei))) (pos done : Nat) :
    BytesWritten reserved live ino data w pos pos done (w.bmapAlloc (blockAt w.fs.geo pos)).1 := by
  have hlive : update live ino (some w.ei) ino = some w.ei := update_self _ _ _
  have hens := bmapAlloc_spec ho (blockAt w.fs.geo pos)
  have hptr := bmapAlloc_pointers ho (blockAt w.fs.geo pos)
  have hbeyond := @bmapAlloc_beyond w (blockAt w.fs.geo pos)
  generalize w.bmapAlloc (blockAt w.fs.geo pos) = r at hens hptr hbeyond
  obtain ⟨w₁, result⟩ := r
  have hgeo : w₁.fs.geo = w.fs.geo := hens.grew.geo
  have hgrew : Grew reserved (fun _ => True) (fun _ => True) w.fs w.ei w₁.fs w₁.ei :=
    hens.grew.weaken (fun _ _ => trivial) fun _ _ => trivial
  refine ⟨hens.owned, hgrew, fun c hc hfree => hptr.free hens.owned hgeo hc hfree, ?_, ?_, ?_, ?_,
    ?_⟩
  · intro p hp hhole hne
    by_cases hmap : InMap w.fs.geo pos
    · refine ⟨pos, le_rfl, le_rfl, hmap, ?_⟩
      by_contra hoff
      exact hne ((hens.grew.only p hp hoff).trans hhole)
    · obtain ⟨rfl, -⟩ := Prod.mk.inj (hbeyond (Nat.le_of_not_lt hmap))
      exact absurd hhole hne
  · intro q hq hq'
    omega
  · intro q hq hq'
    omega
  · intro q hq hq'
    omega
  · intro l o hl ho' _
    have hvalid := leafPos_valid hl
    by_cases h0 : leafPtr w.fs w.ei l = 0
    · by_cases h1 : leafPtr w₁.fs w₁.ei l = 0
      · rw [if_neg (fun h => h.2 h1), placeByte_hole h0, placeByte_hole h1]
      · -- the new block is not a pointer block
        rw [if_pos ⟨h0, h1⟩, placeByte_of_ne h1]
        have hvalid₁ : (leafPos w₁.fs.geo.perBlock l).Valid w₁.fs.geo.perBlock := by
          rw [hgeo]
          exact hvalid
        have hdata := hens.owned.data hvalid₁ h1
        refine congrFun (hptr _ hdata.notReserved fun q hq hin heq => ?_) o
        have hsame := hens.owned.pos_eq hvalid₁ (hgeo.symm ▸ hq) h1 heq.symm
        exact (leafPos_leaf _ l).not_inner (hsame ▸ hin)
    · have hdata : leafData w₁.fs w₁.ei l = leafData w.fs w.ei l :=
        hens.grew.leafData ho hlive hl (.inr (mt leafData_eq_none.mp h0)) not_false
      rw [if_neg (fun h => h0 h.1), placeByte, placeByte, hdata]

/-- Writing part of a block that is there. -/
theorem bytesWritten_blit {b : Nat} (data : Buf)
    (ho : Owned reserved w.fs (update live ino (some w.ei)))
    (hmap : InMap w.fs.geo pos) (hb : leafPtr w.fs w.ei (blockAt w.fs.geo pos) = b) (hb0 : b ≠ 0)
    (hlen : pos % w.fs.geo.blockSize + len ≤ w.fs.geo.blockSize) (done : Nat) :
    BytesWritten reserved live ino data w pos (pos + len) done
      { w with
        fs :=
          { w.fs with
            disk := update w.fs.disk b
              ((chunkBase w.fs len b).blit (pos % w.fs.geo.blockSize) (data.drop done)
                len) } } := by
  have hvalid := leafPos_valid hmap
  have hleaf := leafPos_leaf w.fs.geo.perBlock (blockAt w.fs.geo pos)
  have hne : ptr w.fs w.ei (leafPos w.fs.geo.perBlock (blockAt w.fs.geo pos)) ≠ 0 :=
    fun h0 => hb0 (hb.symm.trans h0)
  have hdata := ho.data hvalid hne
  generalize hbuf : (chunkBase w.fs len b).blit (pos % w.fs.geo.blockSize) (data.drop done) len =
    buf
  obtain ⟨hgrew, howned⟩ := writeLeaf_spec (S := fun _ => True) (D := fun _ => True) ho hvalid
    hleaf hne trivial buf rfl
  have hsame := fun (p : Pos) (hp : p.Valid w.fs.geo.perBlock) =>
    ptr_writeLeaf ho hvalid hleaf buf hp
  have hbytes : ∀ l < mapBlocks w.fs.geo.perBlock,
      leafData { w.fs with disk := update w.fs.disk b buf } w.ei l =
        if l = blockAt w.fs.geo pos then some buf else leafData w.fs w.ei l :=
    fun l hl => leafData_writeLeaf ho hmap hb hb0 rfl hl
  change ptr w.fs w.ei (leafPos w.fs.geo.perBlock (blockAt w.fs.geo pos)) = b at hb
  rw [hb] at hdata hgrew howned hsame
  have hin : ∀ q, pos ≤ q → q < pos + len → blockAt w.fs.geo q = blockAt w.fs.geo pos ∧
      q % w.fs.geo.blockSize = pos % w.fs.geo.blockSize + (q - pos) := by
    intro q hq hq'
    obtain ⟨j, rfl⟩ : ∃ j, q = pos + j := ⟨q - pos, by omega⟩
    rw [Nat.add_sub_cancel_left]
    exact ⟨blockAt_add (by omega), (div_of_lt_block (by omega)).2⟩
  refine ⟨howned, hgrew, ?_, ?_, ?_, ?_, ?_, ?_⟩
  · intro c hc hfree
    refine update_of_ne ?_ _ _
    rintro rfl
    have hused := hdata.used
    rw [show w.fs.blockUsed c = false from hfree] at hused
    cases hused
  · intro p hp hhole hne'
    exact absurd ((hsame p hp).trans hhole) hne'
  · intro q hq hq'
    rw [InMap, (hin q hq hq').1]
    exact hmap
  · intro q hq hq'
    rw [(hin q hq hq').1]
    exact fun h0 => hne ((hsame _ hvalid).symm.trans h0)
  · intro q hq hq'
    obtain ⟨hblock, hoff⟩ := hin q hq hq'
    rw [placeByte, hblock, hbytes _ hmap, if_pos rfl, getD_some, hoff, ← hbuf,
      Buf.blit_of_mem (by omega) (by omega), Nat.add_sub_cancel_left]
    rfl
  · intro l o hl ho' hout
    have hptr := hsame _ (leafPos_valid hl)
    rw [if_neg (fun h => h.2 (hptr.trans h.1)), placeByte, hbytes l hl]
    by_cases hl' : l = blockAt w.fs.geo pos
    · -- around the bytes of the caller; a block that is overwritten whole has no such place
      subst hl'
      have hoff : o < pos % w.fs.geo.blockSize ∨ pos % w.fs.geo.blockSize + len ≤ o := by
        by_contra hmid
        have hq := hin (pos + (o - pos % w.fs.geo.blockSize)) (by omega) (by omega)
        exact hout _ (by omega) (by omega) ⟨hq.1, by rw [hq.2]; omega⟩
      rw [if_pos rfl, getD_some, ← hbuf, Buf.blit_of_not_mem hoff, chunkBase,
        if_neg (by omega), placeByte_of_ne hne, leafPtr, hb]
    · rw [if_neg hl', placeByte]

theorem bytesWritten_refl (data : Buf)
    (ho : Owned reserved w.fs (update live ino (some w.ei))) (pos done : Nat) :
    BytesWritten reserved live ino data w pos pos done w := by
  refine ⟨ho, Grew.refl _ _ _ _ _, fun _ _ _ => rfl, fun p _ h h' => absurd h h', ?_, ?_, ?_, ?_⟩
  · intro q hq hq'
    omega
  · intro q hq hq'
    omega
  · intro q hq hq'
    omega
  · intro l o _ _ _
    rw [if_neg (fun h => h.2 h.1)]

/-- Two ranges, one after the other. -/
theorem BytesWritten.trans (h : BytesWritten reserved live ino data w pos mid done w₁)
    (h' : BytesWritten reserved live ino data w₁ mid stop (done + (mid - pos)) w₂)
    (hgeo : Layout w.fs.geo reserved) (hle : pos ≤ mid) (hle' : mid ≤ stop) :
    BytesWritten reserved live ino data w pos stop done w₂ := by
  have hg : w₁.fs.geo = w.fs.geo := h.grew.geo
  have hkeep : ∀ l, l < mapBlocks w.fs.geo.perBlock → leafPtr w₁.fs w₁.ei l ≠ 0 →
      leafPtr w₂.fs w₂.ei l = leafPtr w₁.fs w₁.ei l := by
    intro l hl hne
    have hk := h'.grew.keep (leafPos w₁.fs.geo.perBlock l) (leafPos_valid (hg.symm ▸ hl)) hne
    rw [leafPtr, leafPtr, h'.grew.geo]
    exact hk
  have hmap : ∀ q, pos ≤ q → q < stop → InMap w.fs.geo q := by
    intro q hq hq'
    by_cases hmid : q < mid
    · exact h.inMap q hq hmid
    · rw [← hg]
      exact h'.inMap q (Nat.le_of_not_lt hmid) hq'
  refine ⟨h'.owned, h.grew.trans hgeo.reserved_zero h'.grew, ?_, ?_, hmap, ?_, ?_, ?_⟩
  · intro c hc hfree
    rw [h'.free c hc hfree]
    apply h.free c hc
    by_contra hused
    rw [h'.grew.mono c (by simpa using hused)] at hfree
    cases hfree
  · intro p hp hhole hne
    by_cases h1 : ptr w₁.fs w₁.ei p = 0
    · obtain ⟨q, hq, hq', hin, hchain⟩ := h'.filled p (hg.symm ▸ hp) h1 hne
      rw [hg] at hin hchain
      exact ⟨q, hle.trans hq, hq', hin, hchain⟩
    · obtain ⟨q, hq, hq', hin, hchain⟩ := h.filled p hp hhole h1
      exact ⟨q, hq, hq'.trans hle', hin, hchain⟩
  · intro q hq hq'
    by_cases hmid : q < mid
    · have hne := h.there q hq hmid
      rw [hkeep _ (h.inMap q hq hmid) hne]
      exact hne
    · rw [← hg]
      exact h'.there q (Nat.le_of_not_lt hmid) hq'
  · intro q hq hq'
    by_cases hmid : q < mid
    · -- the second range does not come back to a place of the first
      have hin := h.inMap q hq hmid
      have hbs := mod_lt q hgeo.blockSize_pos
      have hout : ∀ q', mid ≤ q' → q' < stop →
          ¬ AtPlace w₁.fs.geo q' (blockAt w.fs.geo q) (q % w.fs.geo.blockSize) := by
        rintro q' hq₁ hq₂ ⟨hblock, hoff⟩
        rw [hg] at hblock hoff
        exact place_inj hgeo hmap hq (by omega) hq₂ hblock hoff
      have hother := h'.other _ _ (hg.symm ▸ hin) (hg.symm ▸ hbs) hout
      rw [if_neg (fun hc => h.there q hq hmid hc.1)] at hother
      rw [hother]
      exact h.covered q hq hmid
    · have hcov := h'.covered q (Nat.le_of_not_lt hmid) hq'
      rw [hg] at hcov
      rw [hcov]
      congr 1
      omega
  · intro l o hl ho hout
    have hother₁ := h.other l o hl ho fun q hq hq' => hout q hq (hq'.trans_le hle')
    have hother₂ := h'.other l o (hg.symm ▸ hl) (hg.symm ▸ ho) fun q hq hq' => by
      rw [hg]
      exact hout q (hle.trans hq) hq'
    rw [hother₂]
    by_cases h1 : leafPtr w₁.fs w₁.ei l = 0
    · rw [if_neg (fun hc => hc.2 h1)] at hother₁
      by_cases h2 : leafPtr w₂.fs w₂.ei l = 0
      · rw [if_neg (fun hc => hc.2 h2), if_neg (fun hc => hc.2 h2), hother₁]
      · -- the block was free when the first range was written
        have hvalid : (leafPos w₁.fs.geo.perBlock l).Valid w₁.fs.geo.perBlock :=
          leafPos_valid (hg.symm ▸ hl)
        have hleaf : leafPtr w₂.fs w₂.ei l = ptr w₂.fs w₂.ei (leafPos w₁.fs.geo.perBlock l) := by
          rw [leafPtr, h'.grew.geo]
        have hne : ptr w₂.fs w₂.ei (leafPos w₁.fs.geo.perBlock l) ≠ 0 := hleaf ▸ h2
        have hfree := h'.grew.fresh _ hvalid h1 hne
        have hdata := h'.owned.data
          (h'.grew.geo.symm ▸ hvalid) hne
        have h0 : leafPtr w.fs w.ei l = 0 := by
          by_contra hne0
          have hk := h.grew.keep _ (leafPos_valid hl) hne0
          rw [leafPtr, hg, hk] at h1
          exact hne0 h1
        rw [if_pos ⟨h1, h2⟩, if_pos ⟨h0, h2⟩, hleaf, h.free _ hdata.notReserved hfree]
    · rw [if_neg (fun hc => h1 hc.1), hkeep l hl h1, hother₁]

/-- One round of the loop. -/
theorem writeChunk_bytes (data : Buf) (ho : Owned reserved w.fs (update live ino (some w.ei)))
    (hlen : pos % w.fs.geo.blockSize + len ≤ w.fs.geo.blockSize) (done : Nat) :
    BytesWritten reserved live ino data w pos
      (if (writeChunk data w (blockAt w.fs.geo pos) (pos % w.fs.geo.blockSize) len done).2
        then pos + len else pos) done
      (writeChunk data w (blockAt w.fs.geo pos) (pos % w.fs.geo.blockSize) len done).1 := by
  have hfirst := bytesWritten_bmapAlloc data ho pos done
  have hens := bmapAlloc_spec ho (blockAt w.fs.geo pos)
  have hlt := fun b => @bmapAlloc_lt w (blockAt w.fs.geo pos) b
  rw [writeChunk_eq data _ len done ho]
  generalize w.bmapAlloc (blockAt w.fs.geo pos) = r at hfirst hens hlt
  obtain ⟨w₁, result⟩ := r
  cases result with
  | none => exact hfirst
  | some b =>
    have hgeo : w₁.fs.geo = w.fs.geo := hens.grew.geo
    obtain ⟨hb0, hptr⟩ := hens.result b rfl
    have hb : leafPtr w₁.fs w₁.ei (blockAt w₁.fs.geo pos) = b := by
      rw [leafPtr, hgeo]
      exact hptr
    have hmap : InMap w₁.fs.geo pos := by
      rw [InMap, hgeo]
      exact hlt b rfl
    have hlen' : pos % w₁.fs.geo.blockSize + len ≤ w₁.fs.geo.blockSize := hgeo.symm ▸ hlen
    have hsecond := bytesWritten_blit data hens.owned hmap hb hb0 hlen'
      (done + (pos - pos))
    rw [hgeo] at hsecond
    have hboth := hfirst.trans hsecond ho.mounted.layout le_rfl (le_add_right _ _)
    simpa using hboth

/-- The loop of `ext2_write`: how far it goes, and what it leaves behind. -/
theorem writeLoop_bytes (data : Buf) {pos count done fuel : Nat}
    (ho : Owned reserved w.fs (update live ino (some w.ei))) (hfuel : count ≤ fuel) :
    let r := writeLoop data w pos count done fuel
    BytesWritten reserved live ino data w pos r.2.1 done r.1 ∧ pos ≤ r.2.1 ∧
      (r.2.2 = true → r.2.1 = pos + count) ∧ (r.2.2 = false → r.2.1 < pos + count) := by
  induction fuel generalizing w pos count done with
  | zero =>
    obtain rfl : count = 0 := le_zero.mp hfuel
    exact ⟨bytesWritten_refl data ho pos done, le_rfl, fun _ => rfl, fun h => by cases h⟩
  | succ fuel ih =>
    by_cases hcount : count = 0
    · subst hcount
      rw [writeLoop, if_pos rfl]
      exact ⟨bytesWritten_refl data ho pos done, le_rfl, fun _ => rfl, fun h => by cases h⟩
    rw [writeLoop_succ data w pos hcount]
    dsimp only
    have hgeo := ho.mounted.layout
    have hmod := mod_lt pos hgeo.blockSize_pos
    generalize hstep : min (w.fs.geo.blockSize - pos % w.fs.geo.blockSize) count = step
    have hlen : pos % w.fs.geo.blockSize + step ≤ w.fs.geo.blockSize := by omega
    have hchunk := writeChunk_bytes data ho hlen done
    rw [blockAt] at hchunk
    generalize writeChunk data w _ _ step done = r at hchunk
    obtain ⟨w₁, ok⟩ := r
    cases ok with
    | false => exact ⟨hchunk, le_rfl, fun h => absurd h Bool.false_ne_true,
      fun _ => Nat.lt_add_of_pos_right (Nat.pos_of_ne_zero hcount)⟩
    | true =>
      have hdone : done + step = done + (pos + step - pos) := by omega
      rw [if_pos rfl, hdone]
      obtain ⟨hrest, hle, hend, hstop⟩ := @ih w₁ (pos + step) (count - step)
        (done + (pos + step - pos)) hchunk.owned (by omega)
      refine ⟨hchunk.trans hrest hgeo (le_add_right _ _) hle,
        (le_add_right _ _).trans hle, fun hok => ?_, fun hfail => ?_⟩
      · rw [hend hok]
        omega
      · exact (hstop hfail).trans_le (by omega)

end Bytes

end Osx64.Ext2
