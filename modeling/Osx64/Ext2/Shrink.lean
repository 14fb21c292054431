import Osx64.Ext2.Grow

/-!
# Cutting a block map

What the freeing loops do to the volume.  `Freed` describes calls of
`ext2_free_block`: a set of blocks loses its marks and no data block changes.
`Shrunk` describes a complete cut: the pointers in a set of positions are gone, and
exactly the blocks they held are free.  Cuts compose, so the specification of
`ext2_truncate_blocks` is put together from the cuts its three parts make.
-/

namespace Osx64.Ext2

open Function List

/-! ## Freeing blocks -/

/-- From `fs` to `fs'` the blocks in `B` have been freed. -/
structure Freed (reserved : Nat → Prop) (fs : Fs) (B : Nat → Prop) (fs' : Fs) : Prop where
  used : ∀ c, fs'.blockUsed c = true ↔ fs.blockUsed c = true ∧ ¬ B c
  frame : OnlyBlockBitmap fs fs'
  mounted : Mounted reserved fs'

section Freed

variable {reserved : Nat → Prop} {fs fs₁ fs₂ : Fs} {B C : Nat → Prop} {b c : Nat}

theorem OnlyBlockBitmap.trans (h : OnlyBlockBitmap fs fs₁) (h' : OnlyBlockBitmap fs₁ fs₂) :
    OnlyBlockBitmap fs fs₂ :=
  ⟨h'.geo.trans h.geo, h'.inodes.trans h.inodes, h'.usedDirs.trans h.usedDirs,
    fun c hc => (h'.disk c (h.geo ▸ hc)).trans (h.disk c hc)⟩

theorem Freed.refl (hm : Mounted reserved fs) (hB : ∀ c, ¬ B c) : Freed reserved fs B fs :=
  ⟨fun c => by simp [hB c], ⟨rfl, rfl, rfl, fun _ _ => rfl⟩, hm⟩

section

variable (h : Freed reserved fs B fs₁)
include h

theorem Freed.trans (h' : Freed reserved fs₁ C fs₂) :
    Freed reserved fs (fun c => B c ∨ C c) fs₂ :=
  ⟨fun c => by rw [h'.used, h.used, not_or, and_assoc], h.frame.trans h'.frame, h'.mounted⟩

theorem Freed.congr (hBC : ∀ c, B c ↔ C c) :
    Freed reserved fs C fs₁ :=
  ⟨fun c => by rw [h.used, hBC], h.frame, h.mounted⟩

theorem Freed.disk (hm : Mounted reserved fs)
    (hc : ¬ reserved c) : fs₁.disk c = fs.disk c :=
  h.frame.disk c (hm.ne_blockBitmap hc)

end

theorem freeBlock_freed (hm : Mounted reserved fs) (hlt : b < fs.geo.blocksCount)
    (hres : ¬ reserved b) : Freed reserved fs (· = b) (fs.freeBlock b) := by
  have h := Fs.freeBlock_spec hm hlt hres
  refine ⟨fun c => ?_, h.frame, h.mounted⟩
  rw [h.used, Bool.and_eq_true, Bool.not_eq_true', decide_eq_false_iff_not, and_comm]

/-- A loop whose steps free blocks frees the union of what they free.  `P` is what else
the steps rely on, given the indices still to come. -/
theorem foldl_freed {σ : Type} (vol : σ → Fs) (P : List Nat → σ → Prop)
    (step : σ → Nat → σ) (T : Nat → Nat → Prop)
    (hstep : ∀ s k rest, P (k :: rest) s → OnlyBlockBitmap fs (vol s) →
      Mounted reserved (vol s) → P rest (step s k) ∧ Freed reserved (vol s) (T k) (vol (step s k)))
    (indices : List Nat) (s : σ) (hP : P indices s) (hs : Freed reserved fs B (vol s)) :
    P [] (indices.foldl step s) ∧
      Freed reserved fs (fun c => B c ∨ ∃ k ∈ indices, T k c) (vol (indices.foldl step s)) := by
  induction indices generalizing s B with
  | nil => exact ⟨hP, hs.congr fun c => by simp⟩
  | cons k rest ih =>
    obtain ⟨hP', hk⟩ := hstep s k rest hP hs.frame hs.mounted
    obtain ⟨hfin, hfreed⟩ := ih (step s k) hP' (hs.trans hk)
    exact ⟨hfin, hfreed.congr fun c => by simp [or_assoc]⟩

end Freed

/-! ## Subtrees -/

/-- Block `c` is `b`, or one of the blocks reached from it through `level` levels of
pointer blocks. -/
def InSubtree (disk : Nat → Buf) (n : Nat) : Nat → Nat → Nat → Prop
  | 0, b, c => c = b
  | level + 1, b, c => c = b ∨ ∃ i < n, (disk b).get32 (4 * i) ≠ 0 ∧
      InSubtree disk n level ((disk b).get32 (4 * i)) c

section Subtree

variable {reserved : Nat → Prop} {fs fs' : Fs} {ei : Buf} {n level b c : Nat}
  {disk disk' : Nat → Buf} {p q : Pos}

theorem inSubtree_self (disk : Nat → Buf) (n level b : Nat) : InSubtree disk n level b b := by
  cases level with
  | zero => rfl
  | succ level => exact .inl rfl

theorem inSubtree_congr (h : ∀ c, InSubtree disk n level b c → disk' c = disk c) :
    InSubtree disk' n level b c ↔ InSubtree disk n level b c := by
  induction level generalizing b with
  | zero => rfl
  | succ level ih =>
    have hb : disk' b = disk b := h b (inSubtree_self _ _ _ _)
    simp only [InSubtree, hb]
    refine or_congr_right (exists_congr fun i => and_congr_right fun hi =>
      and_congr_right fun hne => ih fun c hc => ?_)
    exact h c (.inr ⟨i, hi, hne, hc⟩)

/-- `freeSubtree` frees the subtree, and does to the inode copy only what `count` does. -/
theorem freeSubtree_spec (strict : Bool) {count : Buf → Buf} {P : Buf → Prop}
    (hcount : ∀ e, P e → P (count e)) (hm : Mounted reserved fs)
    (hdata : ∀ c, InSubtree fs.disk n level b c → c < fs.geo.blocksCount ∧ ¬ reserved c)
    (hei : P ei) :
    Freed reserved fs (InSubtree fs.disk n level b)
        (freeSubtree n strict count level (fs, ei) b).1 ∧
      P (freeSubtree n strict count level (fs, ei) b).2 := by
  induction level generalizing fs ei b with
  | zero =>
    obtain ⟨hlt, hres⟩ := hdata b rfl
    exact ⟨freeBlock_freed hm hlt hres, hcount _ hei⟩
  | succ level ih =>
    obtain ⟨hlt, hres⟩ := hdata b (inSubtree_self _ _ _ _)
    simp only [freeSubtree, Fs.readBlock_eq hm.layout hlt]
    let entry := fun k => (fs.disk b).get32 (4 * k)
    have hloop := foldl_freed (B := fun _ => False) Prod.fst
      (fun rest s => (∀ k ∈ rest, k < n) ∧ P s.2)
      (fun s i => if entry i = 0 then s else freeSubtree n strict count level s (entry i))
      (fun k c => entry k ≠ 0 ∧ InSubtree fs.disk n level (entry k) c) ?_
      (List.range n) (fs, ei) ⟨fun k hk => mem_range.mp hk, hei⟩
      (Freed.refl hm fun _ hc => hc)
    · obtain ⟨⟨-, hP⟩, hfreed⟩ := hloop
      have hlast := freeBlock_freed hfreed.mounted (hfreed.frame.geo ▸ hlt) hres
      refine ⟨(hfreed.trans hlast).congr fun c => ?_, hcount _ hP⟩
      simp only [InSubtree, mem_range, false_or]
      rw [or_comm]
    · rintro ⟨fs₁, ei₁⟩ k rest ⟨hrest, hP⟩ hframe hm₁
      have hk := hrest k mem_cons_self
      have hrest' : ∀ j ∈ rest, j < n := fun j hj => hrest j (mem_cons_of_mem k hj)
      by_cases h0 : entry k = 0
      · simp only [h0, if_true, ne_eq, not_true, false_and]
        exact ⟨⟨hrest', hP⟩, Freed.refl hm₁ fun _ hc => hc⟩
      · simp only [h0, if_false, ne_eq, not_false_iff, true_and]
        have hsub : ∀ c, InSubtree fs.disk n level (entry k) c →
            c < fs.geo.blocksCount ∧ ¬ reserved c := fun c hc => hdata c (.inr ⟨k, hk, h0, hc⟩)
        have hsame : ∀ c, InSubtree fs₁.disk n level (entry k) c ↔
            InSubtree fs.disk n level (entry k) c := fun c => inSubtree_congr fun c hc =>
          hframe.disk c (hm.ne_blockBitmap (hsub c hc).2)
        obtain ⟨hfreed, hP'⟩ := ih hm₁ (fun c hc => hframe.geo ▸ hsub c ((hsame c).mp hc)) hP
        exact ⟨⟨hrest', hP'⟩, hfreed.congr hsame⟩

end Subtree

/-! ## Ancestors -/

section Chain

variable {fs : Fs} {ei : Buf} {n j c level : Nat} {p q r : Pos}

theorem OnChain.trans (h : OnChain p q) (h' : OnChain q r) : OnChain p r :=
  ⟨h'.1.trans h.1, h'.2.trans h.2⟩

theorem OnChain.child (q : Pos) (j : Nat) : OnChain (q.child j) q :=
  OnChain.of_child (OnChain.self _)

theorem OnChain.of_child_left (h : OnChain (p.child j) q) : q = p.child j ∨ OnChain p q := by
  obtain ⟨hslot, hpath⟩ := h
  rcases suffix_cons_iff.mp hpath with heq | hsub
  · left
    cases q
    exact congrArg₂ Pos.mk hslot heq
  · exact .inr ⟨hslot, hsub⟩

theorem OnChain.valid (h : OnChain p q) (hp : p.Valid n) : q.Valid n :=
  ⟨h.1 ▸ hp.slot_lt, (h.2.length_le.trans hp.depth).trans_eq (by rw [h.1]),
    fun j hj => hp.index j (h.2.mem hj)⟩

/-- Below `q` there is `q` itself, and what is below its entries. -/
theorem OnChain.cases (h : OnChain p q) : p = q ∨ ∃ j, OnChain p (q.child j) := by
  obtain ⟨hslot, pre, hpre⟩ := h
  obtain ⟨ps, pp⟩ := p
  obtain ⟨qs, qp⟩ := q
  dsimp only at hslot hpre
  rcases eq_nil_or_concat pre with rfl | ⟨front, j, rfl⟩
  · left
    rw [hslot, ← hpre, nil_append]
  · right
    refine ⟨j, hslot, front, ?_⟩
    rw [← hpre, concat_eq_append, append_assoc]
    rfl

theorem OnChain.ptr_ne (h : OnChain p q) (hp : ptr fs ei p ≠ 0) : ptr fs ei q ≠ 0 := by
  obtain ⟨hslot, pre, hpre⟩ := h
  obtain ⟨ps, pp⟩ := p
  obtain ⟨qs, qp⟩ := q
  subst hslot hpre
  induction pre with
  | nil => exact hp
  | cons j pre ih =>
    refine ih fun h0 => hp ?_
    exact @ptr_child_of_eq fs ei ⟨qs, pre ++ qp⟩ h0 j

/-- The blocks of the subtree at a position are those its descendants hold. -/
theorem inSubtree_iff (hq : q.Valid n) (hlevel : q.path.length + level = slotLevel q.slot)
    (hne : ptr fs ei q ≠ 0) :
    InSubtree fs.disk n level (ptr fs ei q) c ↔
      ∃ p : Pos, p.Valid n ∧ OnChain p q ∧ ptr fs ei p = c ∧ c ≠ 0 := by
  induction level generalizing q with
  | zero =>
    refine ⟨fun h => ⟨q, hq, OnChain.self q, h.symm, h ▸ hne⟩, ?_⟩
    rintro ⟨p, hp, hchain, heq, -⟩
    have hlen : p.path.length ≤ q.path.length := by
      have := hp.depth
      rw [← hchain.1] at this
      omega
    have hpq : p = q := by
      have hpath := hchain.2.eq_of_length_le hlen
      cases p
      cases q
      exact congrArg₂ Pos.mk hchain.1.symm hpath.symm
    exact (hpq ▸ heq).symm
  | succ level ih =>
    have hin : q.Inner := by
      rw [Pos.Inner]
      omega
    have hchild : ∀ j < n, (fs.disk (ptr fs ei q)).get32 (4 * j) ≠ 0 →
        (InSubtree fs.disk n level ((fs.disk (ptr fs ei q)).get32 (4 * j)) c ↔
          ∃ p : Pos, p.Valid n ∧ OnChain p (q.child j) ∧ ptr fs ei p = c ∧ c ≠ 0) := by
      intro j hj h0
      rw [← ptr_child_of_ne hne] at h0 ⊢
      exact ih (hq.child hin hj) (by simp only [Pos.child, length_cons]; omega) h0
    constructor
    · rintro (h | ⟨j, hj, h0, h⟩)
      · exact ⟨q, hq, OnChain.self q, h.symm, h ▸ hne⟩
      · obtain ⟨p, hp, hchain, heq⟩ := (hchild j hj h0).mp h
        exact ⟨p, hp, hchain.trans (OnChain.child q j), heq⟩
    · rintro ⟨p, hp, hchain, heq, hc⟩
      rcases hchain.cases with rfl | ⟨j, hj⟩
      · exact .inl heq.symm
      · have hjn := (hj.valid hp).of_child.2.2
        have h0 : (fs.disk (ptr fs ei q)).get32 (4 * j) ≠ 0 := by
          rw [← ptr_child_of_ne hne]
          exact hj.ptr_ne (heq ▸ hc)
        exact .inr ⟨j, hjn, h0, (hchild j hjn h0).mpr ⟨p, hp, hj, heq, hc⟩⟩

end Chain

/-! ## Cuts -/

/-- From `fs, ei` to `fs', ei'` the pointers at the positions in `Cut` have been
cleared, exactly the blocks they held have been freed, and nothing else in use has
changed. -/
structure Shrunk (reserved : Nat → Prop) (Cut : Pos → Prop) (fs : Fs) (ei : Buf) (fs' : Fs)
    (ei' : Buf) : Prop where
  geo : fs'.geo = fs.geo
  inodes : fs'.inodes = fs.inodes
  usedDirs : fs'.usedDirs = fs.usedDirs
  fields : SameFields ei ei'
  cut : ∀ p : Pos, p.Valid fs.geo.perBlock → Cut p → ptr fs' ei' p = 0
  keep : ∀ p : Pos, p.Valid fs.geo.perBlock → ¬ Cut p → ptr fs' ei' p = ptr fs ei p
  used : ∀ c, fs'.blockUsed c = true ↔ fs.blockUsed c = true ∧
    ¬ ∃ p : Pos, p.Valid fs.geo.perBlock ∧ Cut p ∧ ptr fs ei p = c ∧ c ≠ 0
  disk : ∀ c, ¬ reserved c →
    (∀ q : Pos, q.Valid fs.geo.perBlock → q.Inner → ptr fs ei q ≠ c) → fs'.disk c = fs.disk c
  tables : ∀ j, ValidIno fs.geo j → fs'.readInode j = fs.readInode j
  mounted : Mounted reserved fs'

section Shrunk

variable {reserved : Nat → Prop} {live : Nat → Option Buf} {ino : Nat} {Cut Cut' : Pos → Prop}
  {fs fs' fs₁ fs₂ : Fs} {ei ei' ei₁ ei₂ : Buf}

theorem Shrunk.congr (h : Shrunk reserved Cut fs ei fs' ei')
    (hcut : ∀ p : Pos, p.Valid fs.geo.perBlock → (Cut p ↔ Cut' p)) :
    Shrunk reserved Cut' fs ei fs' ei' :=
  { h with
    cut := fun p hp hc => h.cut p hp ((hcut p hp).mpr hc)
    keep := fun p hp hc => h.keep p hp (mt (hcut p hp).mp hc)
    used := fun c => by
      rw [h.used]
      refine and_congr_right fun _ => not_congr (exists_congr fun p => ?_)
      exact and_congr_right fun hp => by rw [hcut p hp] }

/-- Cutting where there is nothing but holes. -/
theorem Shrunk.refl (hm : Mounted reserved fs)
    (hhole : ∀ p : Pos, p.Valid fs.geo.perBlock → Cut p → ptr fs ei p = 0) :
    Shrunk reserved Cut fs ei fs ei where
  geo := rfl
  inodes := rfl
  usedDirs := rfl
  fields _ _ := rfl
  cut := hhole
  keep _ _ _ := rfl
  used c := by
    refine (and_iff_left ?_).symm
    rintro ⟨p, hp, hcut, heq, hne⟩
    exact hne (heq ▸ hhole p hp hcut)
  disk _ _ _ := rfl
  tables _ _ := rfl
  mounted := hm

theorem Shrunk.trans (h : Shrunk reserved Cut fs ei fs₁ ei₁)
    (h' : Shrunk reserved Cut' fs₁ ei₁ fs₂ ei₂) (hzero : reserved 0) :
    Shrunk reserved (fun p => Cut p ∨ Cut' p) fs ei fs₂ ei₂ where
  geo := h'.geo.trans h.geo
  inodes := h'.inodes.trans h.inodes
  usedDirs := h'.usedDirs.trans h.usedDirs
  fields := h.fields.trans h'.fields
  cut p hp hc := by
    by_cases hc' : Cut' p
    · exact h'.cut p (h.geo ▸ hp) hc'
    · rw [h'.keep p (h.geo ▸ hp) hc', h.cut p hp (hc.resolve_right hc')]
  keep p hp hc := by
    rw [not_or] at hc
    rw [h'.keep p (h.geo ▸ hp) hc.2, h.keep p hp hc.1]
  used c := by
    rw [h'.used, h.used, and_assoc, h.geo]
    refine and_congr_right fun _ => ?_
    rw [← not_or]
    refine not_congr ⟨?_, ?_⟩
    · rintro (⟨p, hp, hcut, heq⟩ | ⟨p, hp, hcut, heq, hne⟩)
      · exact ⟨p, hp, .inl hcut, heq⟩
      · by_cases hc : Cut p
        · exact absurd (heq.symm.trans (h.cut p hp hc)) hne
        · exact ⟨p, hp, .inr hcut, (h.keep p hp hc).symm.trans heq, hne⟩
    · rintro ⟨p, hp, hcut, heq, hne⟩
      by_cases hc : Cut p
      · exact .inl ⟨p, hp, hc, heq, hne⟩
      · exact .inr ⟨p, hp, hcut.resolve_left hc, (h.keep p hp hc).trans heq, hne⟩
  disk c hc hinner := by
    rw [← h.disk c hc hinner]
    refine h'.disk c hc fun q hq hin heq => ?_
    rw [h.geo] at hq
    by_cases hcut : Cut q
    · exact hc (heq ▸ h.cut q hq hcut ▸ hzero)
    · exact hinner q hq hin (h.keep q hq hcut ▸ heq)
  tables j hj := by rw [h'.tables j (h.geo ▸ hj), h.tables j hj]
  mounted := h'.mounted

/-- A cut keeps the ownership of the volume. -/
theorem Shrunk.owned (h : Shrunk reserved Cut fs ei fs' ei')
    (ho : Owned reserved fs (update live ino (some ei))) :
    Owned reserved fs' (update live ino (some ei')) := by
  refine ho.cut
    ⟨h.mounted, h.geo, fun c hc hne => h.disk c hc.notReserved fun q hq _ => hne q hq⟩
    (fun p hp => ?_) (fun c hc hkeep => ?_)
  · by_cases hcut : Cut p
    · exact .inr (h.cut p hp hcut)
    · exact .inl (h.keep p hp hcut)
  · refine (h.used c).mpr ⟨hc, ?_⟩
    rintro ⟨p, hp, hcut, heq, hne⟩
    exact hne ((hkeep p hp heq).symm.trans (h.cut p hp hcut))

/-- How a cut is shown: the blocks of the cut positions have been freed, then the
pointers to them cleared in the inode and in pointer blocks that stay. -/
theorem shrunk_of_freed (ho : Owned reserved fs (update live ino (some ei)))
    (hdown : ∀ q j, Cut q → Cut (Pos.child q j)) (hfreed : Freed reserved fs
      (fun c => ∃ p : Pos, p.Valid fs.geo.perBlock ∧ Cut p ∧ ptr fs ei p = c ∧ c ≠ 0) fs₁)
    (hm : Mounted reserved fs') (hgeo : fs'.geo = fs₁.geo) (hblocks : fs'.blocks = fs₁.blocks)
    (hinodes : fs'.inodes = fs₁.inodes) (hdirs : fs'.usedDirs = fs₁.usedDirs)
    (hfields : SameFields ei ei')
    (hrootCut : ∀ s < 14, Cut ⟨s, []⟩ → iBlock ei' s = 0)
    (hrootKeep : ∀ s < 14, ¬ Cut ⟨s, []⟩ → iBlock ei' s = iBlock ei s)
    (hentryCut : ∀ q : Pos, q.Valid fs.geo.perBlock → q.Inner → ptr fs ei q ≠ 0 → ¬ Cut q →
      ∀ j < fs.geo.perBlock, Cut (q.child j) → (fs'.disk (ptr fs ei q)).get32 (4 * j) = 0)
    (hentryKeep : ∀ q : Pos, q.Valid fs.geo.perBlock → q.Inner → ptr fs ei q ≠ 0 → ¬ Cut q →
      ∀ j < fs.geo.perBlock, ¬ Cut (q.child j) →
      (fs'.disk (ptr fs ei q)).get32 (4 * j) = (fs.disk (ptr fs ei q)).get32 (4 * j))
    (hdisk : ∀ c, (∀ q : Pos, q.Valid fs.geo.perBlock → q.Inner → ptr fs ei q ≠ 0 →
      ptr fs ei q ≠ c) → fs'.disk c = fs₁.disk c) :
    Shrunk reserved Cut fs ei fs' ei' := by
  classical
  have hgeo' : fs'.geo = fs.geo := hgeo.trans hfreed.frame.geo
  have hptr : ∀ p : Pos, p.Valid fs.geo.perBlock →
      ptr fs' ei' p = if Cut p then 0 else ptr fs ei p := by
    intro p hp
    refine ptr_eq_of (fun p => if Cut p then 0 else ptr fs ei p) (fun s hs => ?_)
      (fun q j hq => ?_) (fun q hq hin hne j hj => ?_) hp
    · split
      · next hc => exact hrootCut s hs hc
      · next hc => exact hrootKeep s hs hc
    · split
      · rfl
      · next hc =>
          have hq' : ¬ Cut q := fun h => hc (hdown q j h)
          rw [if_neg hq'] at hq
          exact ptr_child_of_eq hq j
    · have hq' : ¬ Cut q := fun h => hne (if_pos h)
      rw [if_neg hq'] at hne ⊢
      split
      · next hc => exact hentryCut q hq hin hne hq' j hj hc
      · next hc => rw [hentryKeep q hq hin hne hq' j hj hc, ptr_child_of_ne hne]
  refine ⟨hgeo', hinodes.trans hfreed.frame.inodes, hdirs.trans hfreed.frame.usedDirs, hfields,
    fun p hp hc => ?_, fun p hp hc => ?_, fun c => ?_, fun c hc hinner => ?_, fun j hj => ?_, hm⟩
  · rw [hptr p hp, if_pos hc]
  · rw [hptr p hp, if_neg hc]
  · rw [← hfreed.used, Fs.blockUsed, Fs.blockUsed, hblocks, hgeo]
  · rw [hdisk c fun q hq hin _ => hinner q hq hin, hfreed.disk ho.mounted hc]
  · refine ho.mounted.tables hm hgeo' (fun c hc hne => ?_) hj
    rw [← hfreed.frame.disk c hne]
    exact hdisk c fun q hq _ h0 heq => (ho.data hq h0).notReserved (heq ▸ hc)

end Shrunk

end Osx64.Ext2
