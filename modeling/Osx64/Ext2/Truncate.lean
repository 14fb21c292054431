import Osx64.Ext2.FreeTrace

/-!
# Truncation

`ext2_truncate_blocks` as a cut of the pointer tree.  The cut positions are the
logical blocks from `new_blocks` on, with the pointer blocks that only lead there;
direct blocks beyond `old_blocks` are not looked at.  This holds as long as the first
loop does not run through negative indices.

The parts of the function are described with the record of the blocks they free
(`Trimmed`): each block of a cut position once, and nothing else.
-/

namespace Osx64.Ext2

open Function List Ext2.Fs Buf Pos

section Cuts

variable {reserved : Nat → Prop} {live : Nat → Option Buf} {ino : Nat} {fs : Fs} {ei : Buf}
  {q : Pos} {slot level n b : Nat}

/-- `e` is `ei` up to the block count. -/
def Counted (ei e : Buf) : Prop := (∀ k, iBlock e k = iBlock ei k) ∧ SameFields ei e

theorem Counted.refl (ei : Buf) : Counted ei ei := ⟨fun _ => rfl, fun _ _ => rfl⟩

theorem Counted.discharge (geo : Geometry) (e : Buf) (h : Counted ei e) :
    Counted ei (discharge geo e) := by
  refine ⟨fun k => ?_, fun j hj => ?_⟩
  · rw [← h.1 k]
    exact get32_put32_of_disjoint (by omega)
  · rw [← h.2 j hj]
    exact put32_of_not_mem (by omega)

/-- Everything below a position of an inode is a data block. -/
theorem Owned.subtree_data (ho : Owned reserved fs (update live ino (some ei)))
    (hq : q.Valid fs.geo.perBlock) (hlevel : q.path.length + level = slotLevel q.slot)
    (hne : ptr fs ei q ≠ 0) (c : Nat)
    (hc : InSubtree fs.disk fs.geo.perBlock level (ptr fs ei q) c) :
    c < fs.geo.blocksCount ∧ ¬ reserved c := by
  obtain ⟨p, hp, -, heq, hc0⟩ := (inSubtree_iff hq hlevel hne).mp hc
  have hdata := ho.data hp (heq ▸ hc0)
  rw [heq] at hdata
  exact ⟨hdata.lt, hdata.notReserved⟩

theorem freeIndBlocks_eq (hb : b ≠ 0) : freeIndBlocks fs ei b level =
    freeSubtree fs.geo.perBlock true (discharge fs.geo) level (fs, ei) b := if_neg hb

/-- The blocks that hang on a slot of the inode. -/
theorem slot_blocks (hslot : slot < 14) (hne : iBlock ei slot ≠ 0) (c : Nat) :
    InSubtree fs.disk fs.geo.perBlock (slotLevel slot) (iBlock ei slot) c ↔
      ∃ p : Pos, p.Valid fs.geo.perBlock ∧ p.slot = slot ∧ ptr fs ei p = c ∧ c ≠ 0 := by
  have hvalid := @valid_root fs.geo.perBlock slot hslot
  rw [← ptr_root fs ei slot, inSubtree_iff hvalid (by simp) hne]
  refine exists_congr fun p => and_congr_right fun hp => and_congr_left fun _ => ?_
  exact ⟨fun h => h.1.symm, fun h => ⟨h.symm, nil_suffix⟩⟩

/-- Freeing what hangs on a slot of the inode, and clearing the slot. -/
theorem cutSlot (ho : Owned reserved fs (update live ino (some ei)))
    (hslot : slot < 14) (hne : iBlock ei slot ≠ 0) :
    Shrunk reserved (fun p => p.slot = slot) fs ei
      (freeIndBlocks fs ei (iBlock ei slot) (slotLevel slot)).1
      (setIBlock (freeIndBlocks fs ei (iBlock ei slot) (slotLevel slot)).2 slot 0) := by
  have hvalid := @valid_root fs.geo.perBlock slot hslot
  have hlevel : (⟨slot, []⟩ : Pos).path.length + slotLevel slot = slotLevel slot := by simp
  obtain ⟨hfreed, hcounted⟩ := freeSubtree_spec (b := iBlock ei slot) true
    (Counted.discharge fs.geo) ho.mounted (ho.subtree_data hvalid hlevel hne) (Counted.refl ei)
  rw [freeIndBlocks_eq hne]
  generalize freeSubtree fs.geo.perBlock true (discharge fs.geo) (slotLevel slot) (fs, ei)
    (iBlock ei slot) = r at hfreed hcounted
  have hroot : ∀ s, iBlock (setIBlock r.2 slot 0) s = if s = slot then 0 else iBlock ei s :=
    fun s => by rw [iBlock_setIBlock (by decide), hcounted.1 s]
  refine shrunk_of_freed ho (fun q j hq => hq) (hfreed.congr (slot_blocks hslot hne))
    hfreed.mounted rfl rfl rfl rfl (hcounted.2.trans (sameFields_setIBlock hslot _ _))
    (fun s _ hs => ?_) (fun s _ hs => ?_) (fun q _ _ _ hq j _ hj => absurd hj hq)
    (fun q hq hin h0 _ j _ _ => ?_) fun _ _ => rfl
  · rw [hroot, if_pos hs]
  · rw [hroot, if_neg hs]
  · have hdata := ho.data hq h0
    rw [hfreed.disk ho.mounted hdata.notReserved]

/-- The loops over the entries of a pointer block free what hangs on the entries, and
clear them in the buffer. -/
theorem freeEntries_spec (hm : Mounted reserved fs) (buf : Buf) {indices : List Nat}
    (hnodup : indices.Nodup) (hdata : ∀ k ∈ indices, buf.get32 (4 * k) ≠ 0 → ∀ c,
      InSubtree fs.disk fs.geo.perBlock level (buf.get32 (4 * k)) c →
      c < fs.geo.blocksCount ∧ ¬ reserved c) :
    Freed reserved fs (fun c => ∃ k ∈ indices, buf.get32 (4 * k) ≠ 0 ∧
        InSubtree fs.disk fs.geo.perBlock level (buf.get32 (4 * k)) c)
      (freeEntries level fs ei buf indices).1 ∧
      Counted ei (freeEntries level fs ei buf indices).2.1 ∧
      ∀ j, (freeEntries level fs ei buf indices).2.2.get32 (4 * j) =
        if j ∈ indices then 0 else buf.get32 (4 * j) := by
  have hloop := @foldl_freed reserved fs (fun _ => False) (Fs × Buf × Buf) Prod.fst
    (fun rest s => rest.Nodup ∧ rest ⊆ indices ∧ Counted ei s.2.1 ∧
      ∀ j, s.2.2.get32 (4 * j) = if j ∈ indices ∧ j ∉ rest then 0 else buf.get32 (4 * j))
    (fun s i => if s.2.2.get32 (4 * i) = 0 then s
      else ((freeIndBlocks s.1 s.2.1 (s.2.2.get32 (4 * i)) level).1,
        (freeIndBlocks s.1 s.2.1 (s.2.2.get32 (4 * i)) level).2, s.2.2.put32 (4 * i) 0))
    (fun k c => buf.get32 (4 * k) ≠ 0 ∧
      InSubtree fs.disk fs.geo.perBlock level (buf.get32 (4 * k)) c) ?_
    indices (fs, ei, buf)
    ⟨hnodup, fun _ h => h, Counted.refl ei, fun j => by simp⟩ (Freed.refl hm fun _ hc => hc)
  · obtain ⟨⟨-, -, hcounted, hbuf⟩, hfreed⟩ := hloop
    refine ⟨hfreed.congr fun c => by simp, hcounted, fun j => ?_⟩
    refine (hbuf j).trans ?_
    simp
  · rintro ⟨fs₁, ei₁, buf₁⟩ k rest ⟨hnd, hsub, hcounted, hbuf⟩ hframe hm₁
    obtain ⟨hk, hnd'⟩ := nodup_cons.mp hnd
    have hkin := hsub mem_cons_self
    have hsub' : rest ⊆ indices := fun j hj => hsub (mem_cons_of_mem k hj)
    have hentry : buf₁.get32 (4 * k) = buf.get32 (4 * k) := by
      rw [hbuf k]
      simp
    -- once entry `k` is empty, the entries still to come are those of `rest`
    have hnext : ∀ buf₂ : Buf,
        (∀ j, buf₂.get32 (4 * j) = if j = k then 0 else buf₁.get32 (4 * j)) →
        ∀ j, buf₂.get32 (4 * j) = if j ∈ indices ∧ j ∉ rest then 0 else buf.get32 (4 * j) := by
      intro buf₂ hbuf₂ j
      rw [hbuf₂ j, hbuf j]
      by_cases hj : j = k
      · simp [hj, hkin, hk]
      · simp [hj, mem_cons]
    by_cases h0 : buf.get32 (4 * k) = 0
    · simp only [hentry, h0, if_true, ne_eq, not_true, false_and]
      refine ⟨⟨hnd', hsub', hcounted, hnext buf₁ fun j => ?_⟩, Freed.refl hm₁ fun _ hc => hc⟩
      split
      · next hj => rw [hj, hentry, h0]
      · rfl
    · simp only [hentry, h0, if_false, ne_eq, not_false_iff, true_and]
      have hsame : ∀ c, InSubtree fs₁.disk fs.geo.perBlock level (buf.get32 (4 * k)) c ↔
          InSubtree fs.disk fs.geo.perBlock level (buf.get32 (4 * k)) c := fun c =>
        inSubtree_congr fun c hc => hframe.disk c (hm.ne_blockBitmap (hdata k hkin h0 c hc).2)
      obtain ⟨hfreed, hcounted'⟩ := freeSubtree_spec (b := buf.get32 (4 * k)) true
        (fun e => Counted.discharge fs₁.geo e) hm₁
        (fun c hc => hframe.geo ▸ hdata k hkin h0 c ((hsame c).mp hc)) hcounted
      rw [freeIndBlocks_eq h0, hframe.geo]
      rw [hframe.geo] at hcounted' hfreed
      exact ⟨⟨hnd', hsub', hcounted', hnext _ fun j => get32_put32_index (by decide)⟩,
        hfreed.congr hsame⟩

theorem mem_upTo {n start k : Nat} : k ∈ upTo n start ↔ start ≤ k ∧ k < n := by
  rw [upTo, mem_range'_1]
  omega

theorem nodup_upTo (n start : Nat) : (upTo n start).Nodup := nodup_range'

/-- The blocks that hang on the entries of a pointer block from `start` on. -/
theorem children_blocks (hq : q.Valid fs.geo.perBlock)
    (hlevel : q.path.length + 1 + level = slotLevel q.slot) (hne : ptr fs ei q ≠ 0)
    (start c : Nat) :
    (∃ k ∈ upTo fs.geo.perBlock start, (fs.disk (ptr fs ei q)).get32 (4 * k) ≠ 0 ∧
        InSubtree fs.disk fs.geo.perBlock level ((fs.disk (ptr fs ei q)).get32 (4 * k)) c) ↔
      ∃ p : Pos, p.Valid fs.geo.perBlock ∧ (∃ j, start ≤ j ∧ OnChain p (q.child j)) ∧
        ptr fs ei p = c ∧ c ≠ 0 := by
  have hin : q.Inner := by
    rw [Pos.Inner]
    omega
  have hentry := fun j => ptr_child_of_ne hne j
  have hchild : ∀ k, k < fs.geo.perBlock → (q.child k).Valid fs.geo.perBlock ∧
      (q.child k).path.length + level = slotLevel (q.child k).slot :=
    fun k hk => ⟨hq.child hin hk, hlevel⟩
  constructor
  · rintro ⟨k, hk, h0, hc⟩
    rw [← hentry] at h0 hc
    obtain ⟨hv, hl⟩ := hchild k (mem_upTo.mp hk).2
    obtain ⟨p, hp, hchain, heq⟩ := (inSubtree_iff hv hl h0).mp hc
    exact ⟨p, hp, ⟨k, (mem_upTo.mp hk).1, hchain⟩, heq⟩
  · rintro ⟨p, hp, ⟨k, hk, hchain⟩, heq, hc⟩
    obtain ⟨-, -, hkn⟩ := (hchain.valid hp).of_child
    obtain ⟨hv, hl⟩ := hchild k hkn
    have h0 := hchain.ptr_ne (heq ▸ hc)
    have hsub := (inSubtree_iff hv hl h0).mpr ⟨p, hp, hchain, heq, hc⟩
    rw [hentry] at h0 hsub
    exact ⟨k, mem_upTo.mpr ⟨hk, hkn⟩, h0, hsub⟩

/-- Freeing what hangs on the entries of a pointer block from `start` on, and writing
the pointer block back. -/
theorem cutChildren (ho : Owned reserved fs (update live ino (some ei)))
    (hq : q.Valid fs.geo.perBlock) (hlevel : q.path.length + 1 + level = slotLevel q.slot)
    (hne : ptr fs ei q ≠ 0) (start : Nat) {r : Fs × Buf × Buf}
    (hr : freeEntries level fs ei (fs.disk (ptr fs ei q)) (upTo fs.geo.perBlock start) = r) :
    Shrunk reserved (fun p => ∃ j, start ≤ j ∧ OnChain p (q.child j)) fs ei
        (r.1.putBlock (ptr fs ei q) r.2.2) r.2.1 ∧
      ∀ c, ¬ reserved c → c ≠ ptr fs ei q →
        (r.1.putBlock (ptr fs ei q) r.2.2).disk c = fs.disk c := by
  have hin : q.Inner := by
    rw [Pos.Inner]
    omega
  have hdata := ho.data hq hne
  have hentry := fun j => ptr_child_of_ne hne j
  have hchild : ∀ k, k < fs.geo.perBlock → (q.child k).Valid fs.geo.perBlock ∧
      (q.child k).path.length + level = slotLevel (q.child k).slot :=
    fun k hk => ⟨hq.child hin hk, hlevel⟩
  have hspec := @freeEntries_spec reserved fs ei level ho.mounted (fs.disk (ptr fs ei q)) _
    (nodup_upTo fs.geo.perBlock start) (fun k hk h0 c hc => by
      rw [← hentry] at h0 hc
      obtain ⟨hv, hl⟩ := hchild k (mem_upTo.mp hk).2
      exact ho.subtree_data hv hl h0 c hc)
  rw [hr] at hspec
  obtain ⟨hfreed, hcounted, hbuf⟩ := hspec
  have hlt₁ : ptr fs ei q < r.1.geo.blocksCount := hfreed.frame.geo ▸ hdata.lt
  rw [putBlock_eq hfreed.mounted.layout hlt₁]
  refine ⟨shrunk_of_freed ho ?_ (hfreed.congr (children_blocks hq hlevel hne start))
    (hfreed.mounted.putData hdata.notReserved _) rfl rfl rfl rfl hcounted.2 ?_ ?_ ?_ ?_ ?_,
    fun c hc hcq => (update_of_ne hcq _ _).trans (hfreed.disk ho.mounted hc)⟩
  · rintro p j ⟨i, hi, hchain⟩
    exact ⟨i, hi, (OnChain.child p j).trans hchain⟩
  · rintro s - ⟨j, -, hchain⟩
    have := hchain.2.length_le
    simp [child] at this
  · exact fun s _ _ => hcounted.1 s
  · rintro p hp - h0 hnot j hj ⟨i, hi, hchain⟩
    rcases hchain.of_child_left with heq | hup
    · obtain ⟨rfl, rfl⟩ := child_inj.mp heq
      simp only [update_self, hbuf, mem_upTo.mpr ⟨hi, hj⟩, if_true]
    · exact absurd ⟨i, hi, hup⟩ hnot
  · rintro p hp - h0 - j hj hnot
    by_cases hpq : p = q
    · subst hpq
      have hmem : j ∉ upTo fs.geo.perBlock start :=
        fun h => hnot ⟨j, (mem_upTo.mp h).1, OnChain.self _⟩
      simp only [update_self, hbuf, hmem, if_false]
    · have hblock : ptr fs ei p ≠ ptr fs ei q := fun heq =>
        hpq (ho.pos_eq hp hq h0 heq)
      simp only [update_of_ne hblock,
        hfreed.disk ho.mounted (ho.data hp h0).notReserved]
  · intro c hc
    exact update_of_ne (hc q hq hin hne).symm _ _

/-! ## Cuts with a record -/

theorem iBlocks_setIBlock (ei : Buf) (slot b : Nat) :
    iBlocks (setIBlock ei slot b) = iBlocks ei :=
  get32_put32_of_disjoint (by omega)

theorem delta_le (hgeo : Layout fs.geo reserved) : fs.geo.delta ≤ 8 := by
  have hle := hgeo.logBlockSize_le
  rw [Geometry.delta]
  interval_cases fs.geo.logBlockSize <;> decide

/-- Each block counted is a block less in `i_blocks`. -/
theorem iBlocks_discharge (hgeo : Layout fs.geo reserved) (ei : Buf) (k : Nat) :
    u32 (iBlocks ((discharge fs.geo)^[k] ei) + fs.geo.delta * k) = iBlocks ei := by
  have hdelta := delta_le hgeo
  induction k with
  | zero => exact u32_of_lt (get32_lt _ _)
  | succ k ih =>
    have hstep : iBlocks (discharge fs.geo ((discharge fs.geo)^[k] ei)) =
        u32 (iBlocks ((discharge fs.geo)^[k] ei) + (2 ^ 32 - fs.geo.delta)) :=
      get32_put32 (u32_lt _)
    rw [Function.iterate_succ_apply', hstep, ← ih, Nat.mul_succ]
    simp only [u32]
    omega

/-- A cut, with the record of the blocks it freed: those of the cut positions, each once,
and each taken off `i_blocks`. -/
structure Trimmed (reserved : Nat → Prop) (Cut : Pos → Prop) (s s' : Trace) : Prop where
  shrunk : Shrunk reserved Cut s.fs s.ei s'.fs s'.ei
  record : ∃ T, s'.freed = s.freed ++ T ∧ T.Nodup ∧
    (∀ c, c ∈ T ↔ ∃ p : Pos, p.Valid s.fs.geo.perBlock ∧ Cut p ∧ ptr s.fs s.ei p = c ∧ c ≠ 0) ∧
    u32 (iBlocks s'.ei + s.fs.geo.delta * T.length) = iBlocks s.ei

variable {s s₁ s₂ : Trace} {Cut Cut' : Pos → Prop}

theorem Trimmed.congr (h : Trimmed reserved Cut s s₁)
    (hcut : ∀ p : Pos, p.Valid s.fs.geo.perBlock → (Cut p ↔ Cut' p)) :
    Trimmed reserved Cut' s s₁ := by
  obtain ⟨T, hfreed, hnodup, hmem, hcount⟩ := h.record
  refine ⟨h.shrunk.congr hcut, T, hfreed, hnodup, fun c => ?_, hcount⟩
  rw [hmem]
  exact exists_congr fun p => and_congr_right fun hp => by rw [hcut p hp]

/-- Cutting where there is nothing but holes. -/
theorem Trimmed.refl (hm : Mounted reserved s.fs)
    (hhole : ∀ p : Pos, p.Valid s.fs.geo.perBlock → Cut p → ptr s.fs s.ei p = 0) :
    Trimmed reserved Cut s s := by
  refine ⟨Shrunk.refl hm hhole, [], (append_nil _).symm, nodup_nil, fun c => ?_,
    u32_of_lt (get32_lt _ _)⟩
  simp only [not_mem_nil, false_iff]
  rintro ⟨p, hp, hcut, heq, hc⟩
  exact hc (heq.symm.trans (hhole p hp hcut))

theorem Trimmed.trans (h : Trimmed reserved Cut s s₁) (h' : Trimmed reserved Cut' s₁ s₂)
    (ho : Owned reserved s.fs (update live ino (some s.ei))) :
    Trimmed reserved (fun p => Cut p ∨ Cut' p) s s₂ := by
  have hgeo := h.shrunk.geo
  obtain ⟨T, hfreed, hnodup, hmem, hcount⟩ := h.record
  obtain ⟨U, hfreed', hnodup', hmem', hcount'⟩ := h'.record
  -- what the second cut frees is still in place after the first one
  have hkept : ∀ c, c ∈ U ↔ ∃ p : Pos, p.Valid s.fs.geo.perBlock ∧ (Cut' p ∧ ¬ Cut p) ∧
      ptr s.fs s.ei p = c ∧ c ≠ 0 := by
    intro c
    rw [hmem', hgeo]
    refine exists_congr fun p => and_congr_right fun hp => ?_
    by_cases hcut : Cut p
    · simp only [hcut, not_true, and_false, false_and, iff_false, h.shrunk.cut p hp hcut]
      rintro ⟨-, heq, hc⟩
      exact hc heq.symm
    · simp only [hcut, not_false_iff, and_true, h.shrunk.keep p hp hcut]
  refine ⟨h.shrunk.trans h'.shrunk ho.mounted.layout.reserved_zero, T ++ U,
    by rw [hfreed', hfreed, append_assoc], ?_, fun c => ?_, ?_⟩
  · refine nodup_append.mpr ⟨hnodup, hnodup', fun c hc d hd => ?_⟩
    rintro rfl
    obtain ⟨p, hp, hcut, heq, hc0⟩ := (hmem c).mp hc
    obtain ⟨q, hq, hcut', heq', -⟩ := (hkept c).mp hd
    obtain rfl := ho.pos_eq hp hq (heq ▸ hc0) (heq.trans heq'.symm)
    exact hcut'.2 hcut
  · rw [mem_append, hmem, hkept, ← exists_or]
    refine exists_congr fun p => ?_
    by_cases hcut : Cut p <;> simp [hcut]
  · rw [hgeo] at hcount'
    rw [length_append, Nat.mul_add, ← hcount, ← hcount']
    simp only [u32]
    omega

/-- Freeing what hangs on a slot of the inode, and clearing the slot. -/
theorem trimSlot (ho : Owned reserved s.fs (update live ino (some s.ei)))
    (hslot : slot < 14) (hne : iBlock s.ei slot ≠ 0)
    (hs₁ : s.freeIndBlocks (iBlock s.ei slot) (slotLevel slot) = s₁) :
    Trimmed reserved (fun p => p.slot = slot) s { s₁ with ei := setIBlock s₁.ei slot 0 } := by
  subst hs₁
  have hvalid := @valid_root s.fs.geo.perBlock slot hslot
  have hlevel : (⟨slot, []⟩ : Pos).path.length + slotLevel slot = slotLevel slot := by simp
  have hlogs := (freeIndBlocks_logs ho.mounted (OnlyFreed.refl ho.mounted) hne
    (ho.subtree_data hvalid hlevel hne)).2
  have hcut := cutSlot ho hslot hne
  rw [← Trace.plain_freeIndBlocks] at hcut
  refine ⟨hcut, _, hlogs.freed, subtreeFrees_nodup ho hvalid hlevel hne, fun c => ?_, ?_⟩
  · exact mem_subtreeFrees.trans (slot_blocks hslot hne c)
  · rw [iBlocks_setIBlock, hlogs.ei]
    exact iBlocks_discharge ho.mounted.layout _ _

/-- Freeing what hangs on the entries of a pointer block from `start` on, and writing
the pointer block back. -/
theorem trimChildren (ho : Owned reserved s.fs (update live ino (some s.ei)))
    (hq : q.Valid s.fs.geo.perBlock) (hlevel : q.path.length + 1 + level = slotLevel q.slot)
    (hne : ptr s.fs s.ei q ≠ 0) (start : Nat) {r : Trace × Buf}
    (hr : Trace.freeEntries level s (s.fs.disk (ptr s.fs s.ei q))
      (upTo s.fs.geo.perBlock start) = r) :
    Trimmed reserved (fun p => ∃ j, start ≤ j ∧ OnChain p (q.child j)) s
        (r.1.putBlock (ptr s.fs s.ei q) r.2) ∧
      ∀ c, ¬ reserved c → c ≠ ptr s.fs s.ei q →
        (r.1.putBlock (ptr s.fs s.ei q) r.2).fs.disk c = s.fs.disk c := by
  subst hr
  have hin : q.Inner := by
    rw [Pos.Inner]
    omega
  have hlt : ∀ k ∈ upTo s.fs.geo.perBlock start, k < s.fs.geo.perBlock :=
    fun k hk => (mem_upTo.mp hk).2
  have hchild : ∀ k ∈ upTo s.fs.geo.perBlock start, (q.child k).Valid s.fs.geo.perBlock ∧
      (q.child k).path.length + level = slotLevel (q.child k).slot :=
    fun k hk => ⟨hq.child hin (hlt k hk), hlevel⟩
  have hlogs := freeEntries_logs ho.mounted (OnlyFreed.refl ho.mounted)
    (s.fs.disk (ptr s.fs s.ei q)) (nodup_upTo s.fs.geo.perBlock start) (fun k hk h0 => by
      rw [← ptr_child_of_ne hne] at h0 ⊢
      exact ho.subtree_data (hchild k hk).1 (hchild k hk).2 h0)
  have hcut := cutChildren ho hq hlevel hne start rfl
  rw [Trace.plain_freeEntries] at hcut
  refine ⟨⟨hcut.1, _, hlogs.freed, ?_, fun c => ?_, ?_⟩, hcut.2⟩
  · apply entryFrees_nodup ho hq hlevel hne (nodup_upTo _ _) hlt
    intro k hk h0
    exact subtreeFrees_nodup ho (hchild k hk).1 (hchild k hk).2 h0
  · exact mem_entryFrees.trans (children_blocks hq hlevel hne start c)
  · rw [Trace.putBlock, hlogs.ei]
    exact iBlocks_discharge ho.mounted.layout _ _

/-! ## The three parts of `ext2_truncate_blocks` -/

theorem ptr_eq_zero_of_slot {p : Pos} (h : iBlock ei p.slot = 0) : ptr fs ei p = 0 := by
  by_contra hne
  exact (OnChain.root p).ptr_ne hne h

/-- What is cut from the indirect tree when `new` blocks remain. -/
def CutInd (new : Nat) (p : Pos) : Prop :=
  p.slot = indBlock ∧
    (new ≤ ndirBlocks ∨ ∃ j, new - ndirBlocks ≤ j ∧ OnChain p (child ⟨indBlock, []⟩ j))

/-- What is cut from the double indirect tree when `new` blocks remain. -/
def CutDind (n new : Nat) (p : Pos) : Prop :=
  p.slot = dindBlock ∧ (new ≤ ndirBlocks + n ∨
    (∃ i, (new - (ndirBlocks + n)) / n + 1 ≤ i ∧ OnChain p (child ⟨dindBlock, []⟩ i)) ∨
    ∃ k, (new - (ndirBlocks + n)) % n ≤ k ∧
      OnChain p ((child ⟨dindBlock, []⟩ ((new - (ndirBlocks + n)) / n)).child k))

section

variable (ho : Owned reserved s.fs (update live ino (some s.ei)))
include ho

theorem trimDirect
    {i fuel : Nat} (hi : i < 2 ^ 31 ∨ fuel = 0) :
    ∃ s', s.truncateDirect i fuel = .ok s' ∧
      Trimmed reserved (fun p => p.slot < ndirBlocks ∧ i ≤ p.slot ∧ p.slot < i + fuel) s s' := by
  induction fuel generalizing s i with
  | zero => exact ⟨s, rfl, Trimmed.refl ho.mounted fun p _ hp => by omega⟩
  | succ fuel ih =>
    rw [Trace.truncateDirect]
    by_cases hdir : i < ndirBlocks
    · rw [if_pos (.inl hdir), slotOffset, if_pos hdir]
      have hslot : i < 14 := Nat.lt_of_lt_of_le hdir (by decide)
      have hi' : i + 1 < 2 ^ 31 ∨ fuel = 0 := by
        rw [ndirBlocks] at hdir
        omega
      change ∃ s', (if iBlock s.ei i = 0 then _ else _) = _ ∧ _
      by_cases h0 : iBlock s.ei i = 0
      · rw [if_pos h0]
        obtain ⟨s', hrun, hrest⟩ := ih ho hi'
        have hcut : Trimmed reserved (fun p => p.slot = i) s s :=
          Trimmed.refl ho.mounted fun p _ hp => ptr_eq_zero_of_slot (hp ▸ h0)
        refine ⟨s', hrun, (hcut.trans hrest ho).congr fun p _ => ?_⟩
        omega
      · rw [if_neg h0]
        have hlevel : slotLevel i = 0 := if_pos hdir
        have hcut := trimSlot ho hslot h0 rfl
        rw [hlevel, Trace.freeIndBlocks, if_neg h0, Trace.freeSubtree] at hcut
        obtain ⟨s', hrun, hrest⟩ := ih (hcut.shrunk.owned ho) hi'
        refine ⟨s', hrun, (hcut.trans hrest ho).congr fun p _ => ?_⟩
        omega
    · rw [if_neg (by omega)]
      exact ⟨s, rfl, Trimmed.refl ho.mounted fun p _ hp => by omega⟩

theorem trimInd (new : Nat) :
    ∃ s', s.truncateInd new = (s', true) ∧ Trimmed reserved (CutInd new) s s' := by
  have hvalid := @valid_root s.fs.geo.perBlock indBlock (by decide)
  by_cases h0 : iBlock s.ei indBlock = 0
  · refine ⟨s, ?_, Trimmed.refl ho.mounted fun p _ hp => ptr_eq_zero_of_slot (hp.1 ▸ h0)⟩
    simp only [Trace.truncateInd, h0, if_true, ite_self]
  by_cases hall : new ≤ ndirBlocks
  · have hcut := trimSlot ho (by decide : indBlock < 14) h0 rfl
    refine ⟨_, ?_, hcut.congr fun p _ => ?_⟩
    · simp only [Trace.truncateInd, hall, h0, if_true, if_false]
      rfl
    · simp [CutInd, hall]
  · have hread := readBlock_eq ho.mounted.layout
      (ho.data hvalid h0).lt
    rw [ptr_root] at hread
    have hcut := (@trimChildren reserved live ino _ 0 s ho hvalid rfl h0
      (new - ndirBlocks) _ rfl).1
    refine ⟨_, ?_, hcut.congr fun p _ => ?_⟩
    · simp only [Trace.truncateInd, hall, h0, if_false, hread, ptr_root]
    · simp only [CutInd, hall, false_or]
      exact ⟨fun h => h.elim fun j hj => ⟨hj.2.1.symm, j, hj⟩, fun h => h.2⟩

end

theorem freeBlock_geo (fs : Fs) (b : Nat) : (fs.freeBlock b).geo = fs.geo := by
  unfold freeBlock
  dsimp only
  split
  · rfl
  · split
    · rw [putBlock_geo]
    · rfl

theorem freeIndBlocks_geo (s : Trace) (b level : Nat) :
    (s.freeIndBlocks b level).fs.geo = s.fs.geo := by
  unfold Trace.freeIndBlocks
  split
  · rfl
  · generalize s.fs.geo.perBlock = n
    generalize discharge s.fs.geo = count
    induction level generalizing s b with
    | zero => exact freeBlock_geo _ _
    | succ level ih =>
      rw [Trace.freeSubtree]
      cases s.fs.readBlock b with
      | none => rfl
      | some buf =>
        refine (freeBlock_geo _ _).trans ?_
        refine foldlRecOn (range n) _ (motive := fun x : Trace => x.fs.geo = s.fs.geo)
          rfl ?_
        intro x hx k _
        split
        · exact hx
        · next h0 => rw [ih x _ h0, hx]

/-- Behind the entry where the cut falls the loop over the double indirect block frees
whole subtrees. -/
theorem truncateSubs_rest (start : Nat) (buf : Buf) {rest : List Nat}
    (hrest : ∀ i ∈ rest, i ≠ start / s.fs.geo.perBlock) :
    s.truncateSubs start buf rest =
      ((Trace.freeEntries 1 s buf rest).1, (Trace.freeEntries 1 s buf rest).2, true) := by
  induction rest generalizing s buf with
  | nil => rfl
  | cons i rest ih =>
    have hi := hrest i mem_cons_self
    have hrest' : ∀ k ∈ rest, k ≠ start / s.fs.geo.perBlock :=
      fun k hk => hrest k (mem_cons_of_mem i hk)
    rw [Trace.truncateSubs, Trace.freeEntries, foldl_cons]
    by_cases h0 : buf.get32 (4 * i) = 0
    · simp only [h0, if_true]
      exact ih buf hrest'
    · simp only [h0, hi, if_false]
      refine ih _ ?_
      rw [freeIndBlocks_geo]
      exact hrest'

theorem upTo_eq_cons {n start : Nat} (h : start < n) :
    upTo n start = start :: upTo n (start + 1) := by
  rw [upTo, upTo, show n - start = (n - (start + 1)) + 1 by omega, range'_succ]

theorem trimDind (ho : Owned reserved s.fs (update live ino (some s.ei))) (new : Nat) :
    ∃ s', s.truncateDind new = (s', true) ∧
      Trimmed reserved (CutDind s.fs.geo.perBlock new) s s' := by
  have hvalid := @valid_root s.fs.geo.perBlock dindBlock (by decide)
  by_cases h0 : iBlock s.ei dindBlock = 0
  · refine ⟨s, ?_, Trimmed.refl ho.mounted fun p _ hp => ptr_eq_zero_of_slot (hp.1 ▸ h0)⟩
    simp only [Trace.truncateDind, h0, if_true, ite_self]
  by_cases hall : new ≤ ndirBlocks + s.fs.geo.perBlock
  · have hcut := trimSlot ho (by decide : dindBlock < 14) h0 rfl
    refine ⟨_, ?_, hcut.congr fun p _ => ?_⟩
    · simp only [Trace.truncateDind, hall, h0, if_true, if_false]
      rfl
    · simp [CutDind, hall]
  have hdata := ho.data hvalid h0
  rw [ptr_root] at hdata
  have hread := readBlock_eq ho.mounted.layout hdata.lt
  generalize hd : new - (ndirBlocks + s.fs.geo.perBlock) = d
  generalize hbuf : s.fs.disk (iBlock s.ei dindBlock) = buf
  have hentry := @ptr_child_of_ne s.fs s.ei ⟨dindBlock, []⟩ h0 (d / s.fs.geo.perBlock)
  rw [ptr_root, hbuf] at hentry
  -- the entry where the cut falls is cut in turn
  obtain ⟨s₁, hsub, hcut₁, hdisk₁⟩ : ∃ s₁ : Trace,
      s.truncateSubs d buf (upTo s.fs.geo.perBlock (d / s.fs.geo.perBlock)) =
        s₁.truncateSubs d buf (upTo s.fs.geo.perBlock (d / s.fs.geo.perBlock + 1)) ∧
      Trimmed reserved (fun p => ∃ k, d % s.fs.geo.perBlock ≤ k ∧
        OnChain p ((child ⟨dindBlock, []⟩ (d / s.fs.geo.perBlock)).child k)) s s₁ ∧
      s₁.fs.disk (iBlock s.ei dindBlock) = buf := by
    by_cases hlt : d / s.fs.geo.perBlock < s.fs.geo.perBlock
    · have hmid := hvalid.child (by decide) hlt
      rw [upTo_eq_cons hlt, Trace.truncateSubs, ← hentry]
      by_cases h1 : ptr s.fs s.ei (child ⟨dindBlock, []⟩ (d / s.fs.geo.perBlock)) = 0
      · refine ⟨s, by simp only [h1, if_true], Trimmed.refl ho.mounted ?_, hbuf⟩
        rintro p - ⟨k, -, hchain⟩
        by_contra hne
        exact (hchain.of_child).ptr_ne hne h1
      · have hmidData := ho.data hmid h1
        have hcut := @trimChildren reserved live ino _ 0 s ho hmid rfl h1
          (d % s.fs.geo.perBlock) _ rfl
        refine ⟨_, ?_, hcut.1, ?_⟩
        · simp only [h1, if_false, if_true, readBlock_eq ho.mounted.layout hmidData.lt]
        · rw [hcut.2 _ hdata.notReserved ?_, ← hbuf]
          intro heq
          exact child_ne _ _ (ho.pos_eq hvalid hmid h0 heq).symm
    · have hnil : ∀ i, d / s.fs.geo.perBlock ≤ i → upTo s.fs.geo.perBlock i = [] := by
        intro i hi
        rw [upTo, Nat.sub_eq_zero_of_le (by omega), range'_zero]
      refine ⟨s, by rw [hnil _ le_rfl, hnil _ (Nat.le_succ _)], Trimmed.refl ho.mounted ?_, hbuf⟩
      rintro p hp ⟨k, -, hchain⟩
      exact absurd ((hchain.of_child).valid hp).of_child.2.2 hlt
  have hgeo₁ : s₁.fs.geo = s.fs.geo := hcut₁.shrunk.geo
  -- the entries behind it go altogether
  have hroot : iBlock s₁.ei dindBlock = iBlock s.ei dindBlock := by
    refine hcut₁.shrunk.keep ⟨dindBlock, []⟩ hvalid ?_
    rintro ⟨k, -, hchain⟩
    have := hchain.2.length_le
    simp [child] at this
  have hcut₂ := (@trimChildren reserved live ino ⟨dindBlock, []⟩ 1 s₁ (hcut₁.shrunk.owned ho)
    (hgeo₁ ▸ hvalid) rfl (by rwa [ptr_root, hroot]) (d / s.fs.geo.perBlock + 1) _ rfl).1
  rw [ptr_root, hroot, hdisk₁, hgeo₁] at hcut₂
  refine ⟨_, ?_, (hcut₁.trans hcut₂ ho).congr fun p _ => ?_⟩
  · simp only [Trace.truncateDind, hall, h0, if_false, hread, hd, hbuf, hsub]
    rw [truncateSubs_rest]
    · simp only [if_true]
    · intro i hi
      rw [hgeo₁]
      have := (mem_upTo.mp hi).1
      omega
  · simp only [CutDind, hall, false_or, hd]
    constructor
    · rintro (⟨k, hk, hchain⟩ | ⟨i, hi, hchain⟩)
      · exact ⟨hchain.1.symm, .inr ⟨k, hk, hchain⟩⟩
      · exact ⟨hchain.1.symm, .inl ⟨i, hi, hchain⟩⟩
    · rintro ⟨-, ⟨i, hi, hchain⟩ | ⟨k, hk, hchain⟩⟩
      · exact .inr ⟨i, hi, hchain⟩
      · exact .inl ⟨k, hk, hchain⟩

/-- What `ext2_truncate_blocks` cuts off, when `new` of `old` blocks remain. -/
def CutAt (n new old : Nat) (p : Pos) : Prop :=
  (p.slot < ndirBlocks ∧ new ≤ p.slot ∧ p.slot < old) ∨ CutInd new p ∨ CutDind n new p

/-- The first loop of `ext2_truncate_blocks` starts below the array. -/
def Underruns (geo : Geometry) (size : Nat) (newSize : Int) : Prop :=
  2 ^ 31 ≤ newBlocks geo newSize ∧ newBlocks geo newSize < sizeBlocks geo size
deriving Decidable

section

variable (ho : Owned reserved fs (update live ino (some ei)))
include ho

/-- The parts put together, from what the first loop has done on. -/
theorem trimBlocks_of_direct {size : Nat} {newSize : Int} {Cut : Pos → Prop}
    (hdirect : ∃ s, Trace.truncateDirect ⟨fs, ei, []⟩ (newBlocks fs.geo newSize)
      (sizeBlocks fs.geo size - newBlocks fs.geo newSize) = .ok s ∧
      Trimmed reserved Cut ⟨fs, ei, []⟩ s) :
    ∃ s, Trace.truncateBlocks fs ei size newSize = .ok (s, true) ∧
      Trimmed reserved (fun p => Cut p ∨ CutInd (newBlocks fs.geo newSize) p ∨
        CutDind fs.geo.perBlock (newBlocks fs.geo newSize) p) ⟨fs, ei, []⟩ s := by
  obtain ⟨s₁, hrun₁, hcut₁⟩ := hdirect
  unfold Trace.truncateBlocks
  dsimp only
  rw [hrun₁]
  generalize newBlocks fs.geo newSize = new
  have hgeo₁ : s₁.fs.geo = fs.geo := hcut₁.shrunk.geo
  have ho₁ := hcut₁.shrunk.owned ho
  obtain ⟨s₂, hrun₂, hcut₂⟩ := trimInd ho₁ new
  have hgeo₂ := hcut₂.shrunk.geo
  obtain ⟨s₃, hrun₃, hcut₃⟩ := trimDind (hcut₂.shrunk.owned ho₁) new
  rw [hgeo₂, hgeo₁] at hcut₃
  refine ⟨s₃, ?_, (hcut₁.trans (hcut₂.trans hcut₃ ho₁) ho)⟩
  simp only [Except.map, hrun₂, hrun₃]

theorem trimBlocks {size : Nat} {newSize : Int} (hsize : ¬ Underruns fs.geo size newSize) :
    ∃ s, Trace.truncateBlocks fs ei size newSize = .ok (s, true) ∧
      Trimmed reserved
        (CutAt fs.geo.perBlock (newBlocks fs.geo newSize) (sizeBlocks fs.geo size))
        ⟨fs, ei, []⟩ s := by
  rw [Underruns] at hsize
  obtain ⟨s₁, hrun₁, hcut₁⟩ := @trimDirect reserved live ino ⟨fs, ei, []⟩ ho
    (newBlocks fs.geo newSize) (sizeBlocks fs.geo size - newBlocks fs.geo newSize) (by omega)
  refine trimBlocks_of_direct ho ⟨s₁, hrun₁, hcut₁.congr fun p _ => ?_⟩
  omega

/-! ## Deletion -/

/-- Before an inode is given up, `ext2_delete` frees every block it holds. -/
theorem freeAllBlocks_spec :
    Freed reserved fs
      (fun c => ∃ p : Pos, p.Valid fs.geo.perBlock ∧ ptr fs ei p = c ∧ c ≠ 0)
      (freeAllBlocks fs ei) := by
  have hroot := @valid_root fs.geo.perBlock
  have hlevel : ∀ slot, (⟨slot, []⟩ : Pos).path.length + slotLevel slot = slotLevel slot := by simp
  have hloop := @foldl_freed reserved fs (fun _ => False) Fs id
    (fun rest _ => ∀ slot ∈ rest, slot < 14)
    (fun fs slot => if iBlock ei slot = 0 then fs
      else (freeSubtree fs.geo.perBlock false id (slotLevel slot) (fs, ei) (iBlock ei slot)).1)
    (fun slot c => iBlock ei slot ≠ 0 ∧
      InSubtree fs.disk fs.geo.perBlock (slotLevel slot) (iBlock ei slot) c)
    ?_ (range 14) fs (fun slot h => mem_range.mp h)
    (Freed.refl ho.mounted fun _ hc => hc)
  · refine hloop.2.congr fun c => ?_
    simp only [false_or, mem_range]
    constructor
    · rintro ⟨slot, hslot, h0, hc⟩
      obtain ⟨p, hp, -, heq⟩ := (inSubtree_iff (hroot slot hslot) (hlevel slot) h0).mp hc
      exact ⟨p, hp, heq⟩
    · rintro ⟨p, hp, heq, hc⟩
      have h0 := (OnChain.root p).ptr_ne (heq ▸ hc)
      exact ⟨p.slot, hp.slot_lt, h0, (inSubtree_iff (hroot _ hp.slot_lt) (hlevel _) h0).mpr
        ⟨p, hp, OnChain.root p, heq, hc⟩⟩
  · intro fs₁ slot rest hrest hframe hm₁
    have hslot := hrest slot mem_cons_self
    refine ⟨fun k hk => hrest k (mem_cons_of_mem slot hk), ?_⟩
    by_cases h0 : iBlock ei slot = 0
    · simp only [h0, if_true, ne_eq, not_true, false_and]
      exact Freed.refl hm₁ fun _ hc => hc
    · simp only [h0, if_false, ne_eq, not_false_iff, true_and, id]
      have hdata := ho.subtree_data (hroot slot hslot) (hlevel slot) h0
      have hsame : ∀ c, InSubtree fs₁.disk fs.geo.perBlock (slotLevel slot) (iBlock ei slot) c ↔
          InSubtree fs.disk fs.geo.perBlock (slotLevel slot) (iBlock ei slot) c := fun c =>
        inSubtree_congr fun c hc => hframe.disk c (ho.mounted.ne_blockBitmap (hdata c hc).2)
      have hgeo : fs₁.geo = fs.geo := hframe.geo
      have hspec := @freeSubtree_spec reserved fs₁ ei fs.geo.perBlock (slotLevel slot)
        (iBlock ei slot) false id (fun _ => True) (fun _ _ => trivial) hm₁
        (fun c hc => hgeo ▸ hdata c ((hsame c).mp hc)) trivial
      rw [hgeo]
      exact hspec.1.congr hsame

end

end Cuts

end Osx64.Ext2
