import Osx64.Ext2.BlockTree

/-!
# Block ownership

`live` gives the inode copy that counts for every inode number in use.  A volume is
`Owned` when every block some inode reaches is a data block marked used, reached
from that inode only, at one position only.  The lemmas here say how this survives
when one inode and the disk change: `Owned.attach` when a hole gets a fresh block,
`Owned.cut` when pointers are cleared and their blocks freed, `Owned.sameMap` when
no pointer changes.
-/

namespace Osx64.Ext2

open Function Ownership Pos

/-- Block `b` is a data block of the volume, and marked used. -/
structure DataUsed (reserved : Nat → Prop) (fs : Fs) (b : Nat) : Prop where
  lt : b < fs.geo.blocksCount
  notReserved : ¬ reserved b
  used : fs.blockUsed b = true

/-- The pointer at a position of a live inode. -/
def own (fs : Fs) (live : Nat → Option Buf) (x : Nat × Pos) : Nat :=
  match live x.1 with
  | none => 0
  | some ei => if x.2.Valid fs.geo.perBlock then ptr fs ei x.2 else 0

/-- Every reachable block is in use, and reached once. -/
structure Owned (reserved : Nat → Prop) (fs : Fs) (live : Nat → Option Buf) : Prop where
  mounted : Mounted reserved fs
  exclusive : Exclusive 0 (DataUsed reserved fs) (own fs live)

/-- The disk has changed only in blocks of one inode and in blocks that are free or metadata. -/
structure Reworked (reserved : Nat → Prop) (fs : Fs) (ei : Buf) (fs' : Fs) : Prop where
  mounted : Mounted reserved fs'
  geo : fs'.geo = fs.geo
  disk : ∀ c, DataUsed reserved fs c →
    (∀ q : Pos, q.Valid fs.geo.perBlock → ptr fs ei q ≠ c) → fs'.disk c = fs.disk c

theorem Owned.reworked_self {reserved : Nat → Prop} {fs : Fs} {live : Nat → Option Buf}
    (h : Owned reserved fs live) (ei : Buf) : Reworked reserved fs ei fs :=
  ⟨h.mounted, rfl, fun _ _ _ => rfl⟩

section Own

variable {reserved : Nat → Prop} {fs fs' : Fs} {live : Nat → Option Buf} {ino j : Nat}
  {ei ei' ej : Buf} {p q : Pos} {b c : Nat}

theorem own_eq (fs : Fs) (h : live ino = some ei) (hp : p.Valid fs.geo.perBlock) :
    own fs live (ino, p) = ptr fs ei p := by
  rw [own, h]
  exact if_pos hp

theorem own_of_not_valid (hp : ¬ p.Valid fs.geo.perBlock) : own fs live (ino, p) = 0 := by
  rw [own]
  split
  · rfl
  · exact if_neg hp

namespace Owned

variable (h : Owned reserved fs live)

include h

theorem dataUsed (hino : live ino = some ei) (hp : p.Valid fs.geo.perBlock)
    (hne : ptr fs ei p ≠ 0) : DataUsed reserved fs (ptr fs ei p) := by
  have hown := own_eq fs hino hp
  have hused := h.exclusive.used (ino, p) (hown ▸ hne)
  rwa [hown] at hused

/-- A block is reached from one inode only, at one position only. -/
theorem inj (hino : live ino = some ei) (hp : p.Valid fs.geo.perBlock)
    (hj : live j = some ej) (hq : q.Valid fs.geo.perBlock) (hne : ptr fs ei p ≠ 0)
    (heq : ptr fs ei p = ptr fs ej q) : ino = j ∧ p = q := by
  have hx := own_eq fs hino hp
  have hy := own_eq fs hj hq
  exact Prod.mk.inj (h.exclusive.inj (ino, p) (j, q) (hx ▸ hne) (by rw [hx, hy, heq]))

omit h in
theorem data (h : Owned reserved fs (update live ino (some ei))) (hp : p.Valid fs.geo.perBlock)
    (hne : ptr fs ei p ≠ 0) : DataUsed reserved fs (ptr fs ei p) :=
  h.dataUsed (update_self _ _ _) hp hne

omit h in
theorem pos_eq (h : Owned reserved fs (update live ino (some ei))) (hp : p.Valid fs.geo.perBlock)
    (hq : q.Valid fs.geo.perBlock) (hne : ptr fs ei p ≠ 0) (heq : ptr fs ei p = ptr fs ei q) :
    p = q :=
  (h.inj (update_self _ _ _) hp (update_self _ _ _) hq hne heq).2

section

variable (hino : live ino = some ei) (hr : Reworked reserved fs ei fs')
include hino hr

/-- What the operations do to one inode is invisible to the others. -/
theorem ptr_other (hj : live j = some ej) (hne : j ≠ ino)
    (hp : p.Valid fs.geo.perBlock) : ptr fs' ej p = ptr fs ej p := by
  refine ptr_congr (fun _ _ => rfl) (fun q hq _ hq0 => ?_) hp
  refine hr.disk _ (h.dataUsed hj hq hq0) fun r hvalid heq => hne ?_
  exact (h.inj hj hq hino hvalid hq0 heq.symm).1

/-- Ownership after inode `ino` has changed to `ei'`. -/
theorem own_update (x : Nat × Pos) :
    own fs' (update live ino (some ei')) x =
      if x.1 = ino then if x.2.Valid fs.geo.perBlock then ptr fs' ei' x.2 else 0
      else own fs live x := by
  obtain ⟨j, p⟩ := x
  simp only [own, update_apply, hr.geo]
  by_cases hne : j = ino
  · simp only [hne, if_true]
  · simp only [hne, if_false]
    cases hj : live j with
    | none => rfl
    | some ej =>
      by_cases hp : p.Valid fs.geo.perBlock
      · simp only [hp, if_true]
        exact h.ptr_other hino hr hj hne hp
      · simp only [hp, if_false]

end

/-- Ownership does not look at metadata, nor at free blocks. -/
theorem sameData (hm : Mounted reserved fs') (hgeo : fs'.geo = fs.geo)
    (hdisk : ∀ c, DataUsed reserved fs c → fs'.disk c = fs.disk c)
    (hused : ∀ c, fs.blockUsed c = true → fs'.blockUsed c = true) : Owned reserved fs' live := by
  have hown : ∀ x, own fs' live x = own fs live x := by
    intro ⟨j, p⟩
    simp only [own, hgeo]
    cases hj : live j with
    | none => rfl
    | some ej =>
      by_cases hp : p.Valid fs.geo.perBlock
      · simp only [hp, if_true]
        exact ptr_congr (fun _ _ => rfl) (fun q hq _ h0 => hdisk _ (h.dataUsed hj hq h0)) hp
      · simp only [hp, if_false]
  refine ⟨hm, h.exclusive.release (fun x => .inl (hown x)) fun x _ hx => ?_⟩
  exact ⟨hgeo ▸ hx.lt, hx.notReserved, hused _ hx.used⟩

/-- On an owned volume `ext2_bmap` reads the pointer to the logical block. -/
theorem bmap_eq (hino : live ino = some ei) {l : Nat} (hl : l < mapBlocks fs.geo.perBlock) :
    bmap fs ei l = ptr fs ei (leafPos fs.geo.perBlock l) := by
  have hread : ∀ q : Pos, q.Valid fs.geo.perBlock → ptr fs ei q ≠ 0 →
      fs.readBlock (ptr fs ei q) = some (fs.disk (ptr fs ei q)) := fun q hq hne =>
    Fs.readBlock_eq h.mounted.layout (h.dataUsed hino hq hne).lt
  have hroot := @valid_root fs.geo.perBlock
  rw [mapBlocks] at hl
  unfold bmap leafPos
  by_cases hdir : l < ndirBlocks
  · simp only [hdir, if_true, ptr_root]
  by_cases hind : l < ndirBlocks + fs.geo.perBlock
  · simp only [hdir, hind, if_true, if_false]
    have hchild := ptr_child fs ei ⟨indBlock, []⟩ (l - ndirBlocks)
    rw [ptr_root, child] at hchild
    rw [hchild]
    by_cases h0 : iBlock ei indBlock = 0
    · simp only [h0, if_true]
    · have hsome := hread ⟨indBlock, []⟩ (hroot _ (by decide)) h0
      rw [ptr_root] at hsome
      simp only [h0, if_false, hsome]
  · simp only [hdir, hind, hl, if_true, if_false]
    have hoff : l - (ndirBlocks + fs.geo.perBlock) < fs.geo.perBlock * fs.geo.perBlock := by omega
    generalize l - (ndirBlocks + fs.geo.perBlock) = offset at hoff ⊢
    have hmid := ptr_child fs ei ⟨dindBlock, []⟩ (offset / fs.geo.perBlock)
    have hleaf := ptr_child fs ei (child ⟨dindBlock, []⟩ (offset / fs.geo.perBlock))
      (offset % fs.geo.perBlock)
    have hvalid : (child ⟨dindBlock, []⟩ (offset / fs.geo.perBlock)).Valid
        fs.geo.perBlock :=
      (hroot dindBlock (by decide)).child (by decide) (Nat.div_lt_of_lt_mul hoff)
    change _ = ptr fs ei (child (child ⟨dindBlock, []⟩ _) _)
    rw [hleaf]
    rw [ptr_root] at hmid
    by_cases h0 : iBlock ei dindBlock = 0
    · simp only [h0, if_true] at hmid ⊢
      rw [if_pos hmid]
    · have hsome := hread ⟨dindBlock, []⟩ (hroot _ (by decide)) h0
      rw [ptr_root] at hsome
      simp only [h0, if_false, hsome] at hmid ⊢
      rw [← hmid]
      by_cases h1 : ptr fs ei (child ⟨dindBlock, []⟩ (offset / fs.geo.perBlock)) = 0
      · simp only [h1, if_true]
      · simp only [h1, if_false, hread _ hvalid h1]

omit h in
theorem bmap_beyond {l : Nat} (hl : mapBlocks fs.geo.perBlock ≤ l) :
    bmap fs ei l = minusOne := by
  rw [mapBlocks] at hl
  unfold bmap
  rw [if_neg (by omega), if_neg (by omega), if_neg (by omega)]

end Owned

/-! ## Changing one inode -/

variable (h : Owned reserved fs (Function.update live ino (some ei)))

include h

section

variable (hr : Reworked reserved fs ei fs')
include hr

/-- A hole of inode `ino` has been filled with a fresh block. -/
theorem Owned.attach (hq : q.Valid fs.geo.perBlock) (hlt : b < fs.geo.blocksCount)
    (hres : ¬ reserved b) (hfresh : fs.blockUsed b = false)
    (hused : ∀ c, fs'.blockUsed c = (decide (c = b) || fs.blockUsed c))
    (hptr : ∀ p : Pos, p.Valid fs.geo.perBlock →
      ptr fs' ei' p = if p = q then b else ptr fs ei p) :
    Owned reserved fs' (update live ino (some ei')) := by
  have hino : update live ino (some ei) ino = some ei := update_self _ _ _
  have hidem : update (update live ino (some ei)) ino (some ei') =
      update live ino (some ei') := update_idem _ _ _
  rw [← hidem]
  refine ⟨hr.mounted, h.exclusive.attach (x := (ino, q)) (b := b) ?_ ?_ ?_ ?_⟩
  · intro hb
    rw [hb.used] at hfresh
    cases hfresh
  · exact ⟨hr.geo ▸ hlt, hres, by simp [hused]⟩
  · exact fun c hc => ⟨hr.geo ▸ hc.lt, hc.notReserved, by simp [hused, hc.used]⟩
  · intro ⟨j, p⟩
    rw [h.own_update hino hr]
    simp only [Prod.mk.injEq]
    by_cases hj : j = ino
    · subst hj
      by_cases hp : p.Valid fs.geo.perBlock
      · simp only [if_true, true_and, hp, hptr p hp, own_eq fs hino hp]
      · have hpq : p ≠ q := fun heq => hp (heq ▸ hq)
        simp only [if_true, true_and, hp, if_false, hpq, own_of_not_valid hp]
    · simp only [hj, if_false, false_and]

/-- Pointers of inode `ino` have been cleared, and only blocks it has lost that way
have been freed. -/
theorem Owned.cut (hptr : ∀ p : Pos, p.Valid fs.geo.perBlock →
      ptr fs' ei' p = ptr fs ei p ∨ ptr fs' ei' p = 0)
    (hused : ∀ c, fs.blockUsed c = true →
      (∀ p : Pos, p.Valid fs.geo.perBlock → ptr fs ei p = c → ptr fs' ei' p = c) →
      fs'.blockUsed c = true) :
    Owned reserved fs' (update live ino (some ei')) := by
  have hino : update live ino (some ei) ino = some ei := update_self _ _ _
  have hidem : update (update live ino (some ei)) ino (some ei') =
      update live ino (some ei') := update_idem _ _ _
  rw [← hidem]
  have hown : ∀ x, own fs' (update _ ino (some ei')) x = _ :=
    h.own_update hino hr
  refine ⟨hr.mounted, h.exclusive.release (fun ⟨j, p⟩ => ?_) (fun ⟨j, p⟩ hne hc => ?_)⟩
  · rw [hown]
    by_cases hj : j = ino
    · subst hj
      by_cases hp : p.Valid fs.geo.perBlock
      · simp only [if_true, hp, own_eq fs hino hp]
        exact hptr p hp
      · simp only [if_true, hp, if_false, or_true]
    · simp only [hj, if_false, true_or]
  · refine ⟨hr.geo ▸ hc.lt, hc.notReserved, hused _ hc.used fun q hq hqc => ?_⟩
    rw [hown] at hne hqc ⊢
    by_cases hj : j = ino
    · subst hj
      by_cases hp : p.Valid fs.geo.perBlock
      · simp only [if_true, hp] at hne hqc ⊢
        have hsame := (hptr p hp).resolve_right hne
        have hpq := h.pos_eq hp hq (hsame ▸ hne) (hsame ▸ hqc.symm)
        rw [hpq]
      · simp only [if_true, hp, if_false, ne_eq, not_true] at hne
    · simp only [hj, if_false] at hne hqc ⊢
      have hback := own_eq fs hino hq
      have hxy := h.exclusive.inj (j, p) (ino, q) hne (by rw [hback, hqc])
      exact absurd (Prod.mk.inj hxy).1 hj

/-- No pointer has changed, and no block been freed. -/
theorem Owned.sameMap (hptr : ∀ p : Pos, p.Valid fs.geo.perBlock → ptr fs' ei' p = ptr fs ei p)
    (hused : ∀ c, fs.blockUsed c = true → fs'.blockUsed c = true) :
    Owned reserved fs' (update live ino (some ei')) :=
  h.cut hr (fun p hp => .inl (hptr p hp)) fun c hc _ => hused c hc

end

end Own

end Osx64.Ext2
