import Osx64.Ext2.Owned

/-!
# Extending a block map

What `ext2_bmap_alloc` does to the volume: it fills holes on the way to one logical
block with fresh blocks, and touches nothing else that is in use.  `Grew` collects
this for a set of positions that may be filled, and a set of positions whose data
blocks may be written besides; it composes, so the specification of the whole function
is put together from one step for a slot of the inode and one for an entry of a pointer
block, and that of `ext2_write` from these and the transfers of data.
-/

namespace Osx64.Ext2

open Function Ext2.Fs Buf Work Pos

/-- The bytes of an inode other than `i_blocks` and `i_block[0..13]` agree. -/
def SameFields (ei ei' : Buf) : Prop :=
  ∀ j, j < 28 ∨ (32 ≤ j ∧ j < 40) ∨ 96 ≤ j → ei' j = ei j

/-- From `fs, ei` to `fs', ei'` some holes at positions in `S` have been filled with
blocks that were free, the blocks at positions in `D` may have been written, and
nothing else that is in use has changed. -/
structure Grew (reserved : Nat → Prop) (S D : Pos → Prop) (fs : Fs) (ei : Buf) (fs' : Fs)
    (ei' : Buf) : Prop where
  geo : fs'.geo = fs.geo
  inodes : fs'.inodes = fs.inodes
  usedDirs : fs'.usedDirs = fs.usedDirs
  fields : SameFields ei ei'
  only : ∀ p : Pos, p.Valid fs.geo.perBlock → ¬ S p → ptr fs' ei' p = ptr fs ei p
  keep : ∀ p : Pos, p.Valid fs.geo.perBlock → ptr fs ei p ≠ 0 → ptr fs' ei' p = ptr fs ei p
  fresh : ∀ p : Pos, p.Valid fs.geo.perBlock → ptr fs ei p = 0 → ptr fs' ei' p ≠ 0 →
    fs.blockUsed (ptr fs' ei' p) = false
  mono : ∀ c, fs.blockUsed c = true → fs'.blockUsed c = true
  new : ∀ c, fs'.blockUsed c = true → fs.blockUsed c = true ∨
    ∃ p : Pos, p.Valid fs.geo.perBlock ∧ ptr fs ei p = 0 ∧ ptr fs' ei' p = c ∧ c ≠ 0
  disk : ∀ c, DataUsed reserved fs c →
    (∀ q : Pos, q.Valid fs.geo.perBlock → q.Inner ∨ D q → ptr fs ei q ≠ c) →
    fs'.disk c = fs.disk c
  tables : ∀ j, ValidIno fs.geo j → fs'.readInode j = fs.readInode j

section Grew

variable {reserved : Nat → Prop} {S T D E : Pos → Prop} {fs fs₁ fs₂ : Fs} {ei ei₁ ei₂ : Buf}

theorem SameFields.trans (h : SameFields ei ei₁) (h' : SameFields ei₁ ei₂) :
    SameFields ei ei₂ := fun j hj => (h' j hj).trans (h j hj)

theorem Grew.refl (reserved : Nat → Prop) (S D : Pos → Prop) (fs : Fs) (ei : Buf) :
    Grew reserved S D fs ei fs ei where
  geo := rfl
  inodes := rfl
  usedDirs := rfl
  fields _ _ := rfl
  only _ _ _ := rfl
  keep _ _ _ := rfl
  fresh _ _ h h' := absurd h h'
  mono _ h := h
  new _ h := .inl h
  disk _ _ _ := rfl
  tables _ _ := rfl

theorem Grew.weaken (h : Grew reserved S D fs ei fs₁ ei₁) (hST : ∀ p, S p → T p)
    (hDE : ∀ p, D p → E p) : Grew reserved T E fs ei fs₁ ei₁ :=
  { h with
    only := fun p hp hnot => h.only p hp (mt (hST p) hnot)
    disk := fun c hc hne => h.disk c hc fun q hq hin => hne q hq (hin.imp_right (hDE q)) }

theorem Grew.trans (hzero : reserved 0) (h : Grew reserved S D fs ei fs₁ ei₁)
    (h' : Grew reserved S D fs₁ ei₁ fs₂ ei₂) : Grew reserved S D fs ei fs₂ ei₂ where
  geo := h'.geo.trans h.geo
  inodes := h'.inodes.trans h.inodes
  usedDirs := h'.usedDirs.trans h.usedDirs
  fields := h.fields.trans h'.fields
  only p hp hnot := by rw [h'.only p (h.geo ▸ hp) hnot, h.only p hp hnot]
  keep p hp hne := by
    have hfirst := h.keep p hp hne
    rw [h'.keep p (h.geo ▸ hp) (hfirst ▸ hne), hfirst]
  fresh p hp hold hne := by
    by_cases hmid : ptr fs₁ ei₁ p = 0
    · have hfree := h'.fresh p (h.geo ▸ hp) hmid hne
      by_contra hused
      rw [h.mono _ (by simpa using hused)] at hfree
      cases hfree
    · rw [h'.keep p (h.geo ▸ hp) hmid] at hne ⊢
      exact h.fresh p hp hold hne
  mono c hc := h'.mono c (h.mono c hc)
  new c hc := by
    rcases h'.new c hc with hmid | ⟨p, hp, hhole, heq, hne⟩
    · rcases h.new c hmid with hold | ⟨p, hp, hhole, heq, hne⟩
      · exact .inl hold
      · refine .inr ⟨p, hp, hhole, ?_, hne⟩
        rw [h'.keep p (h.geo ▸ hp) (heq ▸ hne), heq]
    · have hp' : p.Valid fs.geo.perBlock := h.geo ▸ hp
      refine .inr ⟨p, hp', ?_, heq, hne⟩
      by_contra hold
      exact hold (h.keep p hp' hold ▸ hhole)
  disk c hc hinner := by
    rw [← h.disk c hc hinner]
    refine h'.disk c ⟨h.geo ▸ hc.lt, hc.notReserved, h.mono c hc.used⟩ fun q hq hin heq => ?_
    have hq' : q.Valid fs.geo.perBlock := h.geo ▸ hq
    -- a block of the first step's result is old, or was not in use before
    by_cases hold : ptr fs ei q = 0
    · have hc0 : ptr fs₁ ei₁ q ≠ 0 := fun h0 => hc.notReserved (heq ▸ h0 ▸ hzero)
      have := h.fresh q hq' hold hc0
      rw [heq, hc.used] at this
      cases this
    · exact hinner q hq' hin (h.keep q hq' hold ▸ heq)
  tables j hj := by rw [h'.tables j (h.geo ▸ hj), h.tables j hj]

end Grew

/-! ## Taking a fresh block -/

/-- `fs'` is `fs` after a block `b` has been allocated, and cleared if `zero`. -/
structure Fresh (reserved : Nat → Prop) (fs : Fs) (b : Nat) (zero : Bool) (fs' : Fs) :
    Prop where
  lt : b < fs.geo.blocksCount
  notReserved : ¬ reserved b
  fresh : fs.blockUsed b = false
  used : ∀ c, fs'.blockUsed c = (decide (c = b) || fs.blockUsed c)
  geo : fs'.geo = fs.geo
  inodes : fs'.inodes = fs.inodes
  usedDirs : fs'.usedDirs = fs.usedDirs
  disk : ∀ c, c ≠ b → (∀ g < fs.geo.groupCount, c ≠ fs.geo.bgBlockBitmap g) →
    fs'.disk c = fs.disk c
  zeroed : zero = true → fs'.disk b = Buf.zero
  mounted : Mounted reserved fs'

section Fresh

variable {reserved : Nat → Prop} {fs fs' : Fs} {b c : Nat} {zero : Bool} {buf : Buf}

/-- Writing a data block keeps a volume mounted. -/
theorem Mounted.putData (hm : Mounted reserved fs) (hres : ¬ reserved b) (buf : Buf) :
    Mounted reserved { fs with disk := update fs.disk b buf } := by
  refine { hm with descs := fun g hg => ?_ }
  have hne : fs.geo.descBlock g ≠ b := fun heq => hres (heq ▸ hm.layout.reserved_desc g hg)
  rw [← hm.descs g hg]
  simp only [update_of_ne hne]

/-- Data blocks are not bitmap blocks. -/
theorem Mounted.ne_blockBitmap (hm : Mounted reserved fs) (hc : ¬ reserved c) :
    ∀ g < fs.geo.groupCount, c ≠ fs.geo.bgBlockBitmap g :=
  fun g hg heq => hc (heq ▸ hm.layout.reserved_blockBitmap g hg)

theorem Allocated.toFresh (h : Allocated reserved fs b fs') (zero : Bool) :
    Fresh reserved fs b zero (if zero then fs'.setBlockAllZero b else fs') := by
  have hgeo := h.frame.geo
  have hlt : b < fs'.geo.blocksCount := hgeo ▸ h.lt
  cases zero with
  | false =>
    exact ⟨h.lt, h.notReserved, h.fresh, h.used, hgeo, h.frame.inodes, h.frame.usedDirs,
      fun c _ hc => h.frame.disk c hc, fun hz => (by cases hz), h.mounted⟩
  | true =>
    rw [if_pos rfl, setBlockAllZero]
    refine ⟨h.lt, h.notReserved, h.fresh, fun c => ?_, ?_, ?_, ?_, fun c hcb hc => ?_,
      fun _ => ?_, ?_⟩
    · rw [blockUsed_putBlock, h.used]
    · rw [putBlock_geo, hgeo]
    · rw [putBlock_inodes, h.frame.inodes]
    · rw [putBlock_usedDirs, h.frame.usedDirs]
    · rw [putBlock_eq h.mounted.layout hlt]
      exact (update_of_ne hcb _ _).trans (h.frame.disk c hc)
    · rw [putBlock_eq h.mounted.layout hlt]
      exact update_self _ _ _
    · rw [putBlock_eq h.mounted.layout hlt]
      exact h.mounted.putData h.notReserved _

/-- Taking a fresh block leaves the data blocks in use alone. -/
theorem Fresh.disk_of_used (h : Fresh reserved fs b zero fs') (hm : Mounted reserved fs)
    (hc : DataUsed reserved fs c) : fs'.disk c = fs.disk c := by
  refine h.disk c (fun heq => ?_) (hm.ne_blockBitmap hc.notReserved)
  have hfree := h.fresh
  rw [← heq, hc.used] at hfree
  cases hfree

/-- The inode table does not depend on data blocks and block bitmaps. -/
theorem Mounted.tables (hm : Mounted reserved fs) (hm' : Mounted reserved fs')
    (hgeo : fs'.geo = fs.geo)
    (hdisk : ∀ c, reserved c → (∀ g < fs.geo.groupCount, c ≠ fs.geo.bgBlockBitmap g) →
      fs'.disk c = fs.disk c) {j : Nat} (hj : ValidIno fs.geo j) :
    fs'.readInode j = fs.readInode j := by
  refine readInode_congr hm hm' hgeo (fun g hg k hk => ?_) hj
  exact hdisk _ (hm.layout.reserved_table g hg k hk)
    fun h hh => (hm.layout.blockBitmap_ne_table h hh g hg k hk).symm

end Fresh

/-! ## The fields an extension writes -/

section Fields

variable {geo : Geometry} {ei : Buf} {slot k b : Nat}

@[simp] theorem iBlock_charge (geo : Geometry) (ei : Buf) (k : Nat) :
    iBlock (charge geo ei) k = iBlock ei k :=
  get32_put32_of_disjoint (by omega)

theorem iBlock_setIBlock (hb : b < 2 ^ 32) :
    iBlock (setIBlock ei slot b) k = if k = slot then b else iBlock ei k :=
  get32_put32_entry hb

theorem sameFields_charge (geo : Geometry) (ei : Buf) : SameFields ei (charge geo ei) :=
  fun _ hj => put32_of_not_mem (by omega)

theorem sameFields_setIBlock (hslot : slot < 14) (ei : Buf) (b : Nat) :
    SameFields ei (setIBlock ei slot b) :=
  fun _ hj => put32_of_not_mem (by omega)

end Fields

/-! ## One pointer -/

/-- What a function that ensures a block at position `target` does, filling only holes
in `S`.  The copy of the inode is unchanged unless `dirty` is set. -/
structure Ensured (reserved : Nat → Prop) (live : Nat → Option Buf) (ino : Nat)
    (S : Pos → Prop) (target : Pos) (w : Work) (r : Work × Option Nat) : Prop where
  owned : Owned reserved r.1.fs (Function.update live ino (some r.1.ei))
  grew : Grew reserved S (fun _ => False) w.fs w.ei r.1.fs r.1.ei
  dirty : r.1.dirty = true ∨ r.1 = w
  result : ∀ b, r.2 = some b → b ≠ 0 ∧ ptr r.1.fs r.1.ei target = b

section Ensure

variable {reserved : Nat → Prop} {live : Nat → Option Buf} {ino : Nat} {w : Work}
  {fs fs' : Fs} {ei ei' : Buf} {q : Pos} {b j slot parent : Nat} {zero : Bool}
  {S T : Pos → Prop} {p target : Pos} {r : Work × Option Nat}

/-- Filling the hole at `q` with the fresh block `b`. -/
theorem attach_step (h : Owned reserved fs (update live ino (some ei))) (hS : S q)
    {fs₁ : Fs} (hfresh : Fresh reserved fs b zero fs₁) (hq : q.Valid fs.geo.perBlock)
    (hhole : ptr fs ei q = 0) (hptr : ∀ p : Pos, p.Valid fs.geo.perBlock →
      ptr fs' ei' p = if p = q then b else ptr fs ei p)
    (hm : Mounted reserved fs') (hgeo : fs'.geo = fs.geo) (hinodes : fs'.inodes = fs₁.inodes)
    (hdirs : fs'.usedDirs = fs₁.usedDirs) (hblocks : fs'.blocks = fs₁.blocks)
    (hfields : SameFields ei ei')
    (hdisk : ∀ c, (∀ q : Pos, q.Valid fs.geo.perBlock → ptr fs ei q ≠ 0 → q.Inner →
      ptr fs ei q ≠ c) → fs'.disk c = fs₁.disk c) :
    Grew reserved S (fun _ => False) fs ei fs' ei' ∧
      Owned reserved fs' (update live ino (some ei')) := by
  have hused : ∀ c, fs'.blockUsed c = (decide (c = b) || fs.blockUsed c) := fun c => by
    rw [← hfresh.used, blockUsed, blockUsed, hblocks, hgeo, hfresh.geo]
  have hb0 : b ≠ 0 := fun h0 => hfresh.notReserved (h0 ▸ h.mounted.layout.reserved_zero)
  have hdata : ∀ c, DataUsed reserved fs c →
      (∀ q : Pos, q.Valid fs.geo.perBlock → q.Inner → ptr fs ei q ≠ c) →
      fs'.disk c = fs.disk c := by
    intro c hc hinner
    rw [hdisk c fun q hq _ => hinner q hq, hfresh.disk_of_used h.mounted hc]
  refine ⟨⟨hgeo, hinodes.trans hfresh.inodes, hdirs.trans hfresh.usedDirs, hfields,
    fun p hp hne => ?_, fun p hp hne => ?_, fun p hp hzero hne => ?_, fun c hc => ?_,
    fun c hc => ?_, fun c hc hne => hdata c hc fun q hq hin => hne q hq (.inl hin),
    fun j hj => ?_⟩, ?_⟩
  · have hpq : p ≠ q := fun heq => hne (heq ▸ hS)
    rw [hptr p hp, if_neg hpq]
  · have hpq : p ≠ q := fun heq => hne (heq ▸ hhole)
    rw [hptr p hp, if_neg hpq]
  · rw [hptr p hp] at hne ⊢
    split
    · exact hfresh.fresh
    · next hpq => exact absurd hzero (by rwa [if_neg hpq] at hne)
  · rw [hused, hc, Bool.or_true]
  · rw [hused, Bool.or_eq_true, decide_eq_true_iff] at hc
    rcases hc with hc | hc
    · exact .inr ⟨q, hq, hhole, by rw [hptr q hq, if_pos rfl, hc], hc ▸ hb0⟩
    · exact .inl hc
  · refine h.mounted.tables hm hgeo (fun c hc hne => ?_) hj
    have hcb : c ≠ b := fun heq => hfresh.notReserved (heq ▸ hc)
    rw [← hfresh.disk c hcb hne]
    exact hdisk c fun q hq h0 _ heq => (h.data hq h0).notReserved (heq ▸ hc)
  · exact h.attach ⟨hm, hgeo, fun c hc hne => hdata c hc fun q hq _ => hne q hq⟩
      hq hfresh.lt hfresh.notReserved hfresh.fresh hused hptr

/-- The pointers after the hole at `q` has been filled with a block `b`, empty if it is
a pointer block. -/
theorem ptr_attach {n : Nat} (hhole : ptr fs ei q = 0) (hb0 : b ≠ 0)
    (hroot : ∀ s < 14, iBlock ei' s = if (⟨s, []⟩ : Pos) = q then b else iBlock ei s)
    (hentry : ∀ r : Pos, r.Valid n → r.Inner → ptr fs ei r ≠ 0 → ∀ j < n,
      (fs'.disk (ptr fs ei r)).get32 (4 * j) =
        if r.child j = q then b else (fs.disk (ptr fs ei r)).get32 (4 * j))
    (hparent : ∀ r j, child r j = q → ptr fs ei r ≠ 0)
    (hempty : q.Inner → fs'.disk b = Buf.zero) :
    ∀ p : Pos, p.Valid n → ptr fs' ei' p = if p = q then b else ptr fs ei p := by
  intro p hp
  refine ptr_eq_of (fun p => if p = q then b else ptr fs ei p) hroot (fun r j hr => ?_)
    (fun r hr hin hne j hj => ?_) hp
  · have hrq : r ≠ q := fun heq => hb0 (by rwa [if_pos heq] at hr)
    rw [if_neg hrq] at hr
    rw [if_neg fun hchild => hparent r j hchild hr, ptr_child_of_eq hr]
  · by_cases hrq : r = q
    · have hchild : r.child j ≠ q := hrq ▸ child_ne r j
      rw [if_pos hrq, if_neg hchild, hempty (hrq ▸ hin), get32_zero,
        ptr_child_of_eq (hrq ▸ hhole)]
    · rw [if_neg hrq] at hne ⊢
      rw [hentry r hr hin hne j hj, ptr_child_of_ne hne]

section

variable (h : Owned reserved w.fs (update live ino (some w.ei)))
include h

/-- Only the block count of the inode has changed. -/
theorem charge_step (S : Pos → Prop) (target : Pos) :
    Ensured reserved live ino S target w
      ({ w with ei := charge w.fs.geo w.ei, dirty := true }, none) := by
  have hptr : ∀ p : Pos, p.Valid w.fs.geo.perBlock →
      ptr w.fs (charge w.fs.geo w.ei) p = ptr w.fs w.ei p :=
    fun p hp => ptr_congr (fun _ _ => iBlock_charge _ _ _) (fun _ _ _ _ => rfl) hp
  have howned := h.sameMap (h.reworked_self _) hptr fun _ hc => hc
  exact ⟨howned, ⟨rfl, rfl, rfl, sameFields_charge _ _, fun p hp _ => hptr p hp,
    fun p hp _ => hptr p hp, fun p hp h0 hne => absurd h0 (hptr p hp ▸ hne), fun _ hc => hc,
    fun _ hc => .inl hc, fun _ _ _ => rfl, fun _ _ => rfl⟩, .inl rfl, fun _ hb => (by cases hb)⟩

theorem Work.ensureSlot_spec
    (hS : S ⟨slot, []⟩) (hslot : slot < 14) (hzero : 0 < slotLevel slot → zero = true) :
    Ensured reserved live ino S ⟨slot, []⟩ w (w.ensureSlot slot zero) := by
  have hvalid := @valid_root w.fs.geo.perBlock slot hslot
  unfold ensureSlot
  by_cases hhole : iBlock w.ei slot = 0
  · simp only [hhole, if_true]
    cases halloc : w.fs.allocBlock with
    | none => exact charge_step h _ _
    | some r =>
      obtain ⟨b, fs₁⟩ := r
      have hfresh := (allocBlock_spec h.mounted halloc).toFresh zero
      have hb : b < 2 ^ 32 := hfresh.lt.trans h.mounted.layout.blocksCount_lt
      have hb0 : b ≠ 0 := fun h0 => hfresh.notReserved (h0 ▸ h.mounted.layout.reserved_zero)
      have hroot : ∀ s, iBlock (setIBlock (charge w.fs.geo w.ei) slot b) s =
          if s = slot then b else iBlock w.ei s := fun s => by
        rw [iBlock_setIBlock hb, iBlock_charge]
      have hkeep : ∀ r : Pos, r.Valid w.fs.geo.perBlock → ptr w.fs w.ei r ≠ 0 →
          (if zero then fs₁.setBlockAllZero b else fs₁).disk (ptr w.fs w.ei r) =
            w.fs.disk (ptr w.fs w.ei r) :=
        fun r hr hne => hfresh.disk_of_used h.mounted (h.data hr hne)
      have hptr := @ptr_attach w.fs (if zero then fs₁.setBlockAllZero b else fs₁) w.ei
        (setIBlock (charge w.fs.geo w.ei) slot b) ⟨slot, []⟩ b w.fs.geo.perBlock hhole hb0
        (fun s _ => by simp [hroot]) (fun r hr _ hne j _ => by
          rw [hkeep r hr hne, if_neg (by simp [child])])
        (fun r j hchild => by simp [child] at hchild)
        (fun hin => hfresh.zeroed (hzero (by simpa [Pos.Inner] using hin)))
      obtain ⟨hgrew, howned⟩ := attach_step h hS hfresh hvalid hhole hptr hfresh.mounted
        hfresh.geo rfl rfl rfl ((sameFields_charge _ _).trans (sameFields_setIBlock hslot _ _))
        fun _ _ => rfl
      exact ⟨howned, hgrew, .inl rfl, fun c hc => by
        cases hc
        exact ⟨hb0, by rw [hptr _ hvalid, if_pos rfl]⟩⟩
  · simp only [hhole, if_false]
    exact ⟨h, Grew.refl _ _ _ _ _, .inr rfl, fun b hb => by
      cases hb
      exact ⟨hhole, rfl⟩⟩

theorem Work.ensureEntry_spec (hS : S (q.child j)) (hq : q.Valid w.fs.geo.perBlock) (hin : q.Inner)
    (hparent : ptr w.fs w.ei q = parent) (hne : parent ≠ 0) (hj : j < w.fs.geo.perBlock)
    (hzero : (q.child j).Inner → zero = true) :
    Ensured reserved live ino S (q.child j) w (w.ensureEntry parent j zero) := by
  have hvalid := hq.child hin hj
  have hdata : DataUsed reserved w.fs parent := hparent ▸ h.data hq (hparent ▸ hne)
  have hchild := ptr_child_of_ne (hparent ▸ hne) j
  rw [hparent] at hchild
  unfold ensureEntry
  rw [readBlock_eq h.mounted.layout hdata.lt]
  by_cases hhole : (w.fs.disk parent).get32 (4 * j) = 0
  · simp only [hhole, if_true]
    cases halloc : w.fs.allocBlock with
    | none => exact charge_step h _ _
    | some r =>
      obtain ⟨b, fs₁⟩ := r
      have hfresh := (allocBlock_spec h.mounted halloc).toFresh zero
      have hb : b < 2 ^ 32 := hfresh.lt.trans h.mounted.layout.blocksCount_lt
      have hb0 : b ≠ 0 := fun h0 => hfresh.notReserved (h0 ▸ h.mounted.layout.reserved_zero)
      dsimp only
      generalize (if zero then fs₁.setBlockAllZero b else fs₁) = fs₂ at hfresh ⊢
      have hpb : b ≠ parent := by
        rintro rfl
        have hfree := hfresh.fresh
        rw [hdata.used] at hfree
        cases hfree
      rw [putBlock_eq hfresh.mounted.layout (hfresh.geo ▸ hdata.lt)]
      generalize hbuf : (w.fs.disk parent).put32 (4 * j) b = buf
      have hptr := @ptr_attach w.fs { fs₂ with disk := update fs₂.disk parent buf }
        w.ei (charge w.fs.geo w.ei) (q.child j) b w.fs.geo.perBlock (hchild.trans hhole) hb0
        (fun s _ => by rw [iBlock_charge, if_neg (by simp [child])])
        (fun r hr _ hne' i _ => ?_) (fun r i heq => ?_) (fun hinner => ?_)
      · obtain ⟨hgrew, howned⟩ := attach_step h hS hfresh hvalid (hchild.trans hhole) hptr
          (hfresh.mounted.putData hdata.notReserved _) hfresh.geo rfl rfl rfl
          (sameFields_charge _ _) fun c hc => update_of_ne (fun heq =>
            hc q hq (hparent ▸ hne) hin (hparent.trans heq.symm)) _ _
        exact ⟨howned, hgrew, .inl rfl, fun c hc => by
          cases hc
          exact ⟨hb0, by rw [hptr _ hvalid, if_pos rfl]⟩⟩
      · by_cases hrq : r = q
        · subst hrq
          simp only [hparent, update_self, child_inj, true_and, ← hbuf]
          exact get32_put32_index hb
        · have hblock : ptr w.fs w.ei r ≠ parent := fun heq =>
            hrq (h.pos_eq hr hq hne' (heq.trans hparent.symm))
          simp only [update_of_ne hblock, child_inj, hrq, false_and, if_false,
            hfresh.disk_of_used h.mounted (h.data hr hne')]
      · rw [(child_inj.mp heq).1, hparent]
        exact hne
      · simp only [update_of_ne hpb]
        exact hfresh.zeroed (hzero hinner)
  · simp only [hhole, if_false]
    exact ⟨h, Grew.refl _ _ _ _ _, .inr rfl, fun b hb => by
      cases hb
      exact ⟨hhole, hchild⟩⟩

end

/-! ## Chains of pointers -/

theorem Ensured.andThen {next : Work → Nat → Work × Option Nat}
    (h : Ensured reserved live ino S p w r) (hnext : ∀ b, b ≠ 0 → ptr r.1.fs r.1.ei p = b →
      Ensured reserved live ino S target r.1 (next r.1 b)) :
    Ensured reserved live ino S target w (andThen r next) := by
  obtain ⟨w', result⟩ := r
  cases result with
  | none => exact { h with result := fun b hb => by cases hb }
  | some b =>
    obtain ⟨hb0, hptr⟩ := h.result b rfl
    have hstep := hnext b hb0 hptr
    refine ⟨hstep.owned, h.grew.trans h.owned.mounted.layout.reserved_zero hstep.grew, ?_,
      hstep.result⟩
    rcases hstep.dirty with hd | hd
    · exact .inl hd
    · have hsame : andThen (w', some b) next = next w' b := rfl
      rw [hsame, hd]
      exact h.dirty

/-- The positions on the way to `p`, `p` included. -/
def OnChain (p q : Pos) : Prop := q.slot = p.slot ∧ q.path <:+ p.path

theorem OnChain.root (p : Pos) : OnChain p ⟨p.slot, []⟩ := ⟨rfl, List.nil_suffix⟩

theorem OnChain.self (p : Pos) : OnChain p p := ⟨rfl, List.suffix_rfl⟩

theorem OnChain.of_child (h : OnChain p (q.child j)) : OnChain p q :=
  ⟨h.1, (List.suffix_cons j q.path).trans h.2⟩

theorem ensured_none (h : Owned reserved w.fs (update live ino (some w.ei)))
    (S : Pos → Prop) (target : Pos) : Ensured reserved live ino S target w (w, none) :=
  ⟨h, Grew.refl _ _ _ _ _, .inr rfl, fun _ hb => by cases hb⟩

theorem Work.bmapAlloc_beyond {l : Nat} (hl : mapBlocks w.fs.geo.perBlock ≤ l) :
    w.bmapAlloc l = (w, none) := by
  rw [mapBlocks] at hl
  unfold bmapAlloc
  rw [if_neg (by omega), if_neg (by omega), if_neg (by omega)]

/-- `ext2_bmap_alloc` goes down the way to a logical block, one pointer after the other:
what holds of the slot, and is handed on from a pointer block to its entry, holds of the
logical block. -/
theorem Work.bmapAlloc_rec {R : Pos → Work × Option Nat → Prop} {l : Nat}
    (hl : l < mapBlocks w.fs.geo.perBlock)
    (hslot : ∀ slot zero, slot < 14 → (zero = true ↔ 0 < slotLevel slot) →
      OnChain (leafPos w.fs.geo.perBlock l) ⟨slot, []⟩ → R ⟨slot, []⟩ (w.ensureSlot slot zero))
    (hentry : ∀ (q : Pos) (j : Nat) (zero : Bool) (r : Work × Option Nat), R q r →
      q.Valid w.fs.geo.perBlock → q.Inner → j < w.fs.geo.perBlock →
      (zero = true ↔ (q.child j).Inner) → OnChain (leafPos w.fs.geo.perBlock l) (q.child j) →
      R (q.child j) (andThen r fun w b => w.ensureEntry b j zero)) :
    R (leafPos w.fs.geo.perBlock l) (w.bmapAlloc l) := by
  rw [mapBlocks] at hl
  unfold bmapAlloc leafPos at *
  by_cases hdir : l < ndirBlocks
  · simp only [hdir, if_true] at hslot ⊢
    apply hslot l false (Nat.lt_of_lt_of_le hdir (by decide)) ?_ (OnChain.self _)
    simp [slotLevel, hdir]
  by_cases hind : l < ndirBlocks + w.fs.geo.perBlock
  · simp only [hdir, hind, if_true, if_false] at hslot hentry ⊢
    have hroot : R ⟨indBlock, []⟩ (w.ensureSlot indBlock true) :=
      hslot indBlock true (by decide) (by decide) (OnChain.root ⟨indBlock, [l - ndirBlocks]⟩)
    exact hentry ⟨indBlock, []⟩ (l - ndirBlocks) false _ hroot
      (valid_root _ (by decide)) (by decide) (by omega)
      (iff_of_false Bool.false_ne_true (Pos.Leaf.not_inner rfl)) (OnChain.self _)
  · simp only [hdir, hind, hl, if_true, if_false] at hslot hentry ⊢
    have hoff : l - (ndirBlocks + w.fs.geo.perBlock) <
        w.fs.geo.perBlock * w.fs.geo.perBlock := by omega
    generalize l - (ndirBlocks + w.fs.geo.perBlock) = offset at hoff hslot hentry ⊢
    have hn : 0 < w.fs.geo.perBlock := Nat.pos_of_mul_pos_right (Nat.zero_lt_of_lt hoff)
    have hdiv : offset / w.fs.geo.perBlock < w.fs.geo.perBlock := Nat.div_lt_of_lt_mul hoff
    have hmod := Nat.mod_lt offset hn
    generalize offset / w.fs.geo.perBlock = i at hdiv hslot hentry ⊢
    generalize offset % w.fs.geo.perBlock = k at hmod hslot hentry ⊢
    have hroot : R ⟨dindBlock, []⟩ (w.ensureSlot dindBlock true) :=
      hslot dindBlock true (by decide) (by decide) (OnChain.root ⟨dindBlock, [k, i]⟩)
    have hinner : (child ⟨dindBlock, []⟩ i).Inner := by
      simp [child, Pos.Inner, slotLevel, dindBlock, ndirBlocks]
    have hmid := hentry ⟨dindBlock, []⟩ i true _ hroot ⟨by decide, Nat.zero_le _, by simp⟩
      (by decide) hdiv (iff_of_true rfl hinner)
      (OnChain.of_child (OnChain.self ⟨dindBlock, [k, i]⟩))
    exact hentry ⟨dindBlock, [i]⟩ k false _ hmid
      ⟨by simp [dindBlock], by simp [slotLevel, dindBlock, ndirBlocks], by simpa using hdiv⟩
      hinner hmod (iff_of_false Bool.false_ne_true (Pos.Leaf.not_inner rfl)) (OnChain.self _)

/-- `ext2_bmap_alloc` fills holes on the way to logical block `l` only, and when it
succeeds it returns the block that is there afterwards. -/
theorem Work.bmapAlloc_spec (h : Owned reserved w.fs (update live ino (some w.ei))) (l : Nat) :
    Ensured reserved live ino (OnChain (leafPos w.fs.geo.perBlock l))
      (leafPos w.fs.geo.perBlock l) w (w.bmapAlloc l) := by
  by_cases hl : l < mapBlocks w.fs.geo.perBlock
  · apply bmapAlloc_rec (R := fun p r =>
      Ensured reserved live ino (OnChain (leafPos w.fs.geo.perBlock l)) p w r) hl
    · intro slot zero hslot hzero hchain
      exact ensureSlot_spec h hchain hslot hzero.mpr
    · intro q j zero r hr hq hin hj hzero hchain
      have hgeo := hr.grew.geo
      refine hr.andThen fun b hb0 hb => ?_
      exact ensureEntry_spec hr.owned hchain (hgeo ▸ hq) hin hb hb0 (hgeo ▸ hj) hzero.mpr
  · rw [bmapAlloc_beyond (Nat.le_of_not_lt hl)]
    exact ensured_none h _ _

end Ensure

end Osx64.Ext2
