import Osx64.Ext2.FileOwned
import Mathlib.Algebra.Order.BigOperators.Group.Finset

/-!
# Counting blocks

`held` are the positions of an inode that have a block, and `freeBlocks` the blocks the
bitmap has to give.  Every position has a block of its own, so that what the map of an
inode gains the bitmap loses, and the other way round: the sum of the two numbers is the
same before and after the map has grown or shrunk.

`ext2_bmap_alloc` adds to `i_blocks` every time it asks for a block, before it looks
whether it got one.  `Billed` says how much that is: the blocks it took from the bitmap,
and one more if it fails.
-/

namespace Osx64.Ext2

open Function Finset Ext2.Fs Work

/-! ## Positions -/

/-- The paths of at most `depth` indices below `n`. -/
def paths (n : Nat) : Nat → Finset (List Nat)
  | 0 => {[]}
  | depth + 1 => insert [] ((range n ×ˢ paths n depth).image fun x => x.1 :: x.2)

/-- The positions the kernel uses, with `n` pointers in a block. -/
def positions (n : Nat) : Finset Pos :=
  (range 14).biUnion fun slot => (paths n (slotLevel slot)).image (Pos.mk slot)

section Positions

variable {n depth : Nat} {p : Pos}

theorem mem_paths {path : List Nat} :
    path ∈ paths n depth ↔ path.length ≤ depth ∧ ∀ j ∈ path, j < n := by
  induction depth generalizing path with
  | zero =>
    simp only [paths, mem_singleton, Nat.le_zero, List.length_eq_zero_iff]
    constructor
    · rintro rfl
      simp
    · exact fun h => h.1
  | succ depth ih =>
    simp only [paths, mem_insert, mem_image, mem_product,
      mem_range, Prod.exists]
    cases path with
    | nil => simp
    | cons j path => simp [ih, and_assoc, and_left_comm]

theorem mem_positions : p ∈ positions n ↔ p.Valid n := by
  obtain ⟨slot, path⟩ := p
  simp only [positions, mem_biUnion, mem_range, mem_image, Pos.mk.injEq,
    mem_paths]
  constructor
  · rintro ⟨_, hslot, _, ⟨hdepth, hindex⟩, rfl, rfl⟩
    exact ⟨hslot, hdepth, hindex⟩
  · intro h
    exact ⟨slot, h.slot_lt, path, ⟨h.depth, h.index⟩, rfl, rfl⟩

theorem card_paths_succ (n depth : Nat) :
    (paths n (depth + 1)).card ≤ n * (paths n depth).card + 1 := by
  rw [paths]
  refine (card_insert_le _ _).trans (Nat.succ_le_succ ?_)
  refine card_image_le.trans_eq ?_
  rw [card_product, card_range]

/-- With blocks of at most 4096 bytes there are few positions, compared to the range of
`i_blocks`. -/
theorem card_positions_lt (hn : n ≤ 1024) : (positions n).card < 2 ^ 24 := by
  have hlevel : ∀ slot < 14, (paths n (slotLevel slot)).card ≤ 2 ^ 20 + 2 ^ 10 + 1 := by
    intro slot hslot
    have h0 : (paths n 0).card = 1 := rfl
    have h1 : (paths n 1).card ≤ n * 1 + 1 := card_paths_succ n 0
    have h2 : (paths n 2).card ≤ n * (paths n 1).card + 1 := card_paths_succ n 1
    have hmul : n * (paths n 1).card ≤ 1024 * 1025 := Nat.mul_le_mul hn (by omega)
    have hcases : slotLevel slot = 0 ∨ slotLevel slot = 1 ∨ slotLevel slot = 2 := by
      rw [slotLevel, ndirBlocks]
      split <;> omega
    rcases hcases with h | h | h <;> rw [h] <;> omega
  calc (positions n).card
      ≤ ∑ slot ∈ range 14, ((paths n (slotLevel slot)).image (Pos.mk slot)).card :=
        card_biUnion_le
    _ ≤ ∑ _slot ∈ range 14, (2 ^ 20 + 2 ^ 10 + 1) := by
        apply sum_le_sum
        intro slot hslot
        exact card_image_le.trans (hlevel slot (mem_range.mp hslot))
    _ < 2 ^ 24 := by simp

end Positions

/-! ## Blocks held and blocks free -/

/-- The positions of an inode that have a block. -/
def held (fs : Fs) (ei : Buf) : Finset Pos :=
  (positions fs.geo.perBlock).filter fun p => ptr fs ei p ≠ 0

/-- The blocks of the volume that are not marked used. -/
def freeBlocks (fs : Fs) : Finset Nat :=
  (range fs.geo.blocksCount).filter fun b => fs.blockUsed b = false

section Counts

variable {reserved : Nat → Prop} {live : Nat → Option Buf} {ino b : Nat} {fs fs' : Fs}
  {ei ei' : Buf} {p : Pos} {S D Cut : Pos → Prop}

theorem mem_held : p ∈ held fs ei ↔ p.Valid fs.geo.perBlock ∧ ptr fs ei p ≠ 0 := by
  rw [held, mem_filter, mem_positions]

theorem mem_freeBlocks : b ∈ freeBlocks fs ↔ b < fs.geo.blocksCount ∧ fs.blockUsed b = false := by
  rw [freeBlocks, mem_filter, mem_range]

theorem held_congr (hgeo : fs'.geo = fs.geo)
    (hptr : ∀ p : Pos, p.Valid fs.geo.perBlock → ptr fs' ei' p = ptr fs ei p) :
    held fs' ei' = held fs ei := by
  ext p
  rw [mem_held, mem_held, hgeo]
  refine and_congr_right fun hp => ?_
  rw [hptr p hp]

theorem freeBlocks_congr (hgeo : fs'.geo = fs.geo) (hblocks : fs'.blocks = fs.blocks) :
    freeBlocks fs' = freeBlocks fs := by
  ext b
  rw [mem_freeBlocks, mem_freeBlocks, blockUsed, blockUsed, hgeo, hblocks]

theorem perBlock_le (hgeo : Layout fs.geo reserved) : fs.geo.perBlock ≤ 1024 := by
  rw [Geometry.perBlock]
  rcases hgeo.blockSize_cases with h | h | h <;> simp [h]

theorem card_held_lt (hgeo : Layout fs.geo reserved) (ei : Buf) :
    (held fs ei).card < 2 ^ 24 :=
  lt_of_le_of_lt (card_filter_le _ _) (card_positions_lt (perBlock_le hgeo))

/-- A map that grows takes as many blocks from the bitmap as it gains. -/
theorem Grew.card_add_card (h : Grew reserved S D fs ei fs' ei')
    (ho' : Owned reserved fs' (update live ino (some ei'))) :
    (held fs' ei').card + (freeBlocks fs').card = (held fs ei).card + (freeBlocks fs).card := by
  refine Ownership.card_add_card_eq (f := ptr fs' ei') (fun p hp => ?_) (fun b hb => ?_)
    (fun p hp hnot => ?_) (fun p hp q hq _ heq => ?_) fun b hb hnot => ?_
  · rw [mem_held] at hp ⊢
    rw [h.geo, h.keep p hp.1 hp.2]
    exact hp
  · rw [mem_freeBlocks] at hb ⊢
    refine ⟨h.geo ▸ hb.1, ?_⟩
    by_contra hused
    rw [h.mono b (by simpa using hused)] at hb
    cases hb.2
  · rw [mem_held] at hp hnot
    have hdata := ho'.data hp.1 hp.2
    have hp' : p.Valid fs.geo.perBlock := h.geo ▸ hp.1
    have hhole : ptr fs ei p = 0 := by
      by_contra hne
      exact hnot ⟨hp', hne⟩
    rw [mem_freeBlocks, mem_freeBlocks, hdata.used]
    exact ⟨⟨h.geo ▸ hdata.lt, h.fresh p hp' hhole hp.2⟩, by simp⟩
  · rw [mem_held] at hp hq
    exact ho'.pos_eq hp.1 hq.1 hp.2 heq
  · rw [mem_freeBlocks] at hb hnot
    have hused : fs'.blockUsed b = true := by
      by_contra hfree
      exact hnot ⟨h.geo.symm ▸ hb.1, by simpa using hfree⟩
    rcases h.new b hused with hold | ⟨p, hp, hhole, heq, hne⟩
    · rw [hold] at hb
      cases hb.2
    · refine ⟨p, mem_held.mpr ⟨h.geo.symm ▸ hp, heq ▸ hne⟩, fun hmem => ?_, heq⟩
      exact (mem_held.mp hmem).2 hhole

/-- The positions a cut empties held what it freed. -/
theorem Shrunk.held_eq (h : Shrunk reserved Cut fs ei fs' ei') :
    p ∈ held fs' ei' ↔ p ∈ held fs ei ∧ ¬ Cut p := by
  rw [mem_held, mem_held, h.geo, and_assoc]
  refine and_congr_right fun hp => ?_
  by_cases hcut : Cut p
  · simp [h.cut p hp hcut, hcut]
  · simp [h.keep p hp hcut, hcut]

/-- Allocation takes one block from the bitmap. -/
theorem Allocated.card_freeBlocks (h : Allocated reserved fs b fs') :
    (freeBlocks fs).card = (freeBlocks fs').card + 1 := by
  have hfree : b ∈ freeBlocks fs := mem_freeBlocks.mpr ⟨h.lt, h.fresh⟩
  have herase : freeBlocks fs' = (freeBlocks fs).erase b := by
    ext c
    rw [mem_erase, mem_freeBlocks, mem_freeBlocks, h.used, h.frame.geo]
    by_cases hc : c = b <;> simp [hc]
  rw [herase, card_erase_add_one hfree]

end Counts

/-! ## What an extension is charged for -/

theorem iBlocks_lt (ei : Buf) : iBlocks ei < 2 ^ 32 := Buf.get32_lt _ _

theorem iBlocks_charge (geo : Geometry) (ei : Buf) :
    iBlocks (charge geo ei) = u32 (iBlocks ei + geo.delta) :=
  Buf.get32_put32 (u32_lt _)

theorem u32_add_congr {x y : Nat} (h : u32 x = u32 y) (z : Nat) : u32 (x + z) = u32 (y + z) := by
  rw [u32, u32] at h ⊢
  omega

/-- The account of an operation: what `i_blocks` says, and what the free blocks would add
to it. -/
def Work.credit (w : Work) : Nat := iBlocks w.ei + w.fs.geo.delta * (freeBlocks w.fs).card

/-- What a function that ensures a block at `target` has charged.  It asks for nothing
but blocks at holes, and it fails only if a block is missing at `target` and none can be
had. -/
structure Billed (target : Pos) (w : Work) (r : Work × Option Nat) : Prop where
  geo : r.1.fs.geo = w.fs.geo
  credit : u32 r.1.credit = u32 (w.credit + if r.2 = none then w.fs.geo.delta else 0)
  le : (freeBlocks r.1.fs).card ≤ (freeBlocks w.fs).card
  dirty : r.1.dirty = true ↔
    w.dirty = true ∨ (freeBlocks r.1.fs).card < (freeBlocks w.fs).card ∨ r.2 = none
  failed : r.2 = none → r.1.fs.allocBlock = none ∧ ptr r.1.fs r.1.ei target = 0

section Billed

variable {reserved : Nat → Prop} {live : Nat → Option Buf} {ino : Nat} {w w' : Work}
  {fs : Fs} {slot parent j b l : Nat} {zero : Bool} {p target : Pos} {r : Work × Option Nat}

/-- The block is there already. -/
theorem billed_present (target : Pos) (w : Work) (b : Nat) : Billed target w (w, some b) := by
  constructor <;> simp

theorem blocks_zeroed (zero : Bool) :
    (if zero then fs.setBlockAllZero b else fs).blocks = fs.blocks := by
  cases zero
  · rfl
  · exact putBlock_blocks _ _ _

/-- There is no block to be had. -/
theorem billed_starved (hnone : w.fs.allocBlock = none)
    (hhole : ptr w.fs (charge w.fs.geo w.ei) target = 0) :
    Billed target w ({ w with ei := charge w.fs.geo w.ei, dirty := true }, none) := by
  refine ⟨rfl, ?_, le_rfl, by simp, fun _ => ⟨hnone, hhole⟩⟩
  simp only [credit, iBlocks_charge, if_true, u32]
  omega

section

variable (hm : Mounted reserved w.fs)
include hm

/-- One block has been taken from the bitmap and charged. -/
theorem billed_taken (halloc : w.fs.allocBlock = some (b, fs))
    (hgeo : w'.fs.geo = w.fs.geo) (hblocks : w'.fs.blocks = fs.blocks)
    (hcount : iBlocks w'.ei = u32 (iBlocks w.ei + w.fs.geo.delta)) (hdirty : w'.dirty = true) :
    Billed target w (w', some b) := by
  have halloc' := allocBlock_spec hm halloc
  have hcard := halloc'.card_freeBlocks
  have hfree : freeBlocks w'.fs = freeBlocks fs :=
    freeBlocks_congr (hgeo.trans halloc'.frame.geo.symm) hblocks
  rw [← hfree] at hcard
  refine ⟨hgeo, ?_, by dsimp only; omega, ?_, fun h => by cases h⟩
  · simp only [credit, hcount, hgeo, hcard, reduceCtorEq, if_false, Nat.mul_succ, u32]
    omega
  · simp only [hdirty, true_iff]
    right
    left
    omega

theorem Work.ensureSlot_billed (slot : Nat) (zero : Bool) :
    Billed ⟨slot, []⟩ w (w.ensureSlot slot zero) := by
  unfold ensureSlot
  by_cases hhole : iBlock w.ei slot = 0
  · simp only [hhole, if_true]
    cases halloc : w.fs.allocBlock with
    | none =>
      apply billed_starved halloc
      rw [ptr_root, iBlock_charge, hhole]
    | some x =>
      obtain ⟨b, fs⟩ := x
      apply billed_taken hm halloc ((allocBlock_spec hm halloc).toFresh zero).geo
        (blocks_zeroed zero)
      · rw [iBlocks_setIBlock, iBlocks_charge]
      · rfl
  · simp only [hhole, if_false]
    exact billed_present _ _ _

theorem Work.ensureEntry_billed {q : Pos}
    (hparent : ptr w.fs w.ei q = parent) (hlt : parent < w.fs.geo.blocksCount) (j : Nat)
    (zero : Bool) : Billed (q.child j) w (w.ensureEntry parent j zero) := by
  unfold ensureEntry
  rw [readBlock_eq hm.layout hlt]
  by_cases hhole : (w.fs.disk parent).get32 (4 * j) = 0
  · simp only [hhole, if_true]
    cases halloc : w.fs.allocBlock with
    | none =>
      apply billed_starved halloc
      have hsame : ptr w.fs (charge w.fs.geo w.ei) q = ptr w.fs w.ei q :=
        ptr_of_slot (iBlock_charge _ _ _)
      rw [ptr_child, hsame, hparent, hhole, ite_self]
    | some x =>
      obtain ⟨b, fs⟩ := x
      have hfresh := (allocBlock_spec hm halloc).toFresh zero
      exact billed_taken hm halloc ((putBlock_geo _ _ _).trans hfresh.geo)
        ((putBlock_blocks _ _ _).trans (blocks_zeroed zero)) (iBlocks_charge _ _) rfl
  · simp only [hhole, if_false]
    exact billed_present _ _ _

end

/-- Two steps have taken a block exactly if one of them has. -/
theorem taken_trans {n n₁ n₂ : Nat} {dirty failed : Prop} (hle : n₁ ≤ n) (hle' : n₂ ≤ n₁) :
    ((dirty ∨ n₁ < n) ∨ n₂ < n₁ ∨ failed) ↔ dirty ∨ n₂ < n ∨ failed := by
  have hlt : n₂ < n ↔ n₁ < n ∨ n₂ < n₁ := by omega
  rw [hlt]
  simp only [or_assoc]

/-- The bill of a chain of pointers is the sum of the bills. -/
theorem Billed.andThen {next : Work → Nat → Work × Option Nat} (h : Billed p w r)
    (hchain : OnChain target p) (hnext : ∀ b, r.2 = some b → Billed target r.1 (next r.1 b)) :
    Billed target w (andThen r next) := by
  obtain ⟨w₁, result⟩ := r
  cases result with
  | none =>
    refine ⟨h.geo, h.credit, h.le, h.dirty, fun hnone => ⟨(h.failed rfl).1, ?_⟩⟩
    by_contra hne
    exact hchain.ptr_ne hne (h.failed rfl).2
  | some b =>
    have hstep := hnext b rfl
    have hcredit := h.credit
    have hle := h.le
    refine ⟨hstep.geo.trans h.geo, hstep.credit.trans ?_, hstep.le.trans h.le, ?_,
      hstep.failed⟩
    · have hgeo : w₁.fs.geo = w.fs.geo := h.geo
      rw [hgeo]
      change u32 (w₁.credit + if (next w₁ b).2 = none then w.fs.geo.delta else 0) =
        u32 (w.credit + if (next w₁ b).2 = none then w.fs.geo.delta else 0)
      exact u32_add_congr hcredit _
    · have hdirty := h.dirty
      have hle' := hstep.le
      simp only [reduceCtorEq, or_false] at hdirty
      change (next w₁ b).1.dirty = true ↔ _
      rw [hstep.dirty, hdirty]
      exact taken_trans hle hle'

/-- The bill of `ext2_bmap_alloc`, for a logical block of the map. -/
theorem Work.bmapAlloc_billed (h : Owned reserved w.fs (update live ino (some w.ei)))
    (hl : l < mapBlocks w.fs.geo.perBlock) :
    Billed (leafPos w.fs.geo.perBlock l) w (w.bmapAlloc l) := by
  have hboth : Ensured reserved live ino (fun _ => True) (leafPos w.fs.geo.perBlock l) w
      (w.bmapAlloc l) ∧ Billed (leafPos w.fs.geo.perBlock l) w (w.bmapAlloc l) := by
    apply bmapAlloc_rec (R := fun p r =>
      Ensured reserved live ino (fun _ => True) p w r ∧ Billed p w r) hl
    · intro slot zero hslot hzero _
      exact ⟨ensureSlot_spec h trivial hslot hzero.mpr, ensureSlot_billed h.mounted _ _⟩
    · intro q j zero r ⟨hens, hbill⟩ hq hin hj hzero _
      have hgeo := hens.grew.geo
      have hq' : q.Valid r.1.fs.geo.perBlock := hgeo ▸ hq
      constructor
      · refine hens.andThen fun b hb0 hb => ?_
        exact ensureEntry_spec hens.owned trivial hq' hin hb hb0 (hgeo ▸ hj) hzero.mpr
      · refine hbill.andThen (OnChain.child q j) fun b hb => ?_
        obtain ⟨hb0, hptr⟩ := hens.result b hb
        have hdata := hens.owned.data hq' (hptr ▸ hb0)
        exact ensureEntry_billed hens.owned.mounted hptr (hptr ▸ hdata.lt) j zero
  exact hboth.2

end Billed

end Osx64.Ext2
