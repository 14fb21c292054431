import Osx64.Ext2.File

/-!
# File operations and ownership

What `ext2_write`, `ext2_setattr` and `ext2_delete` do to the pointers of the inode and to
the bitmaps, whether they succeed or not.
-/

namespace Osx64.Ext2

open Function Option Work

section Leaf

variable {reserved : Nat → Prop} {live : Nat → Option Buf} {ino : Nat} {fs fs' : Fs}
  {ei : Buf} {p : Pos} {S D : Pos → Prop}

/-- Writing a data block of an inode changes no pointer. -/
theorem ptr_writeLeaf (ho : Owned reserved fs (update live ino (some ei)))
    (hp : p.Valid fs.geo.perBlock) (hleaf : p.Leaf) (buf : Buf)
    {q : Pos} (hq : q.Valid fs.geo.perBlock) :
    ptr { fs with disk := update fs.disk (ptr fs ei p) buf } ei q = ptr fs ei q := by
  refine ptr_congr (fun _ _ => rfl) (fun r hr hin h0 => ?_) hq
  refine update_of_ne (fun heq => ?_) _ _
  have hrp := ho.pos_eq hr hp h0 heq
  exact hleaf.not_inner (hrp ▸ hin)

theorem writeLeaf_spec (ho : Owned reserved fs (update live ino (some ei)))
    (hp : p.Valid fs.geo.perBlock) (hleaf : p.Leaf) (hne : ptr fs ei p ≠ 0) (hD : D p)
    (buf : Buf) (hfs' : { fs with disk := update fs.disk (ptr fs ei p) buf } = fs') :
    Grew reserved S D fs ei fs' ei ∧
      Owned reserved fs' (update live ino (some ei)) := by
  subst hfs'
  have hdata := ho.data hp hne
  have hptr : ∀ q : Pos, q.Valid fs.geo.perBlock → _ := fun q hq =>
    ptr_writeLeaf ho hp hleaf buf hq
  have hm := ho.mounted.putData hdata.notReserved buf
  refine ⟨⟨rfl, rfl, rfl, fun _ _ => rfl, fun q hq _ => hptr q hq, fun q hq _ => hptr q hq,
    fun q hq h0 hq' => absurd h0 (hptr q hq ▸ hq'), fun _ hc => hc, fun _ hc => .inl hc,
    fun c hc hne' => ?_, fun j hj => ?_⟩, ?_⟩
  · exact update_of_ne (hne' p hp (.inr hD)).symm _ _
  · refine ho.mounted.tables hm rfl (fun c hc _ => ?_) hj
    have hcp : c ≠ ptr fs ei p := fun heq => hdata.notReserved (heq ▸ hc)
    exact update_of_ne hcp _ _
  · refine ho.sameMap ⟨hm, rfl, fun c _ hne' => ?_⟩ hptr fun _ hc => hc
    exact update_of_ne (hne' p hp).symm _ _

end Leaf

/-! ## Writing -/

/-- The positions on the way to a logical block in `L`. -/
def Chains (n : Nat) (L : Nat → Prop) (p : Pos) : Prop := ∃ l, L l ∧ OnChain (leafPos n l) p

/-- The positions of the logical blocks in `L`. -/
def Leaves (n : Nat) (L : Nat → Prop) (p : Pos) : Prop := ∃ l, L l ∧ p = leafPos n l

section Write

variable {reserved : Nat → Prop} {live : Nat → Option Buf} {ino : Nat} {w : Work}
  {L : Nat → Prop} {l b : Nat}

theorem Work.bmapAlloc_lt (h : (w.bmapAlloc l).2 = some b) :
    l < mapBlocks w.fs.geo.perBlock := by
  by_contra hl
  rw [bmapAlloc_beyond (Nat.le_of_not_lt hl)] at h
  cases h

/-- The block `ext2_bmap_alloc` returns is a data block of the volume. -/
theorem Work.bmapAlloc_data (ho : Owned reserved w.fs (update live ino (some w.ei)))
    (h : (w.bmapAlloc l).2 = some b) :
    DataUsed reserved (w.bmapAlloc l).1.fs b ∧ b ≠ minusOne := by
  have hens := bmapAlloc_spec ho l
  obtain ⟨hb0, hptr⟩ := hens.result b h
  have hvalid : (leafPos w.fs.geo.perBlock l).Valid (w.bmapAlloc l).1.fs.geo.perBlock := by
    rw [hens.grew.geo]
    exact leafPos_valid (bmapAlloc_lt h)
  have hdata := hens.owned.data hvalid (hptr ▸ hb0)
  rw [hptr] at hdata
  refine ⟨hdata, ?_⟩
  have hlt := hdata.lt
  have hcount := hens.owned.mounted.layout.blocksCount_lt
  rw [minusOne]
  omega

/-- The bytes that are in a block before a round of the loop copies to it. -/
def chunkBase (fs : Fs) (len b : Nat) : Buf :=
  if len = fs.geo.blockSize then Buf.zero else fs.disk b

/-- A round of the loop fails only for want of a block. -/
theorem writeChunk_eq (data : Buf) (offset len done : Nat)
    (ho : Owned reserved w.fs (update live ino (some w.ei))) (l : Nat) :
    writeChunk data w l offset len done =
      (w.bmapAlloc l).2.elim ((w.bmapAlloc l).1, false) fun b =>
        ({ (w.bmapAlloc l).1 with
          fs :=
            { (w.bmapAlloc l).1.fs with
              disk := update (w.bmapAlloc l).1.fs.disk b
                ((chunkBase (w.bmapAlloc l).1.fs len b).blit offset (data.drop done) len) } },
          true) := by
  unfold writeChunk
  have hmounted := (bmapAlloc_spec ho l).owned.mounted
  have hdata := fun b => bmapAlloc_data (b := b) ho (l := l)
  generalize w.bmapAlloc l = r at hmounted hdata
  obtain ⟨w₁, result⟩ := r
  cases result with
  | none => rfl
  | some b =>
    obtain ⟨hb, hne⟩ := hdata b rfl
    have hbase : (if len = w₁.fs.geo.blockSize then some Buf.zero else w₁.fs.readBlock b) =
        some (chunkBase w₁.fs len b) := by
      rw [Fs.readBlock_eq hmounted.layout hb.lt, chunkBase]
      split <;> rfl
    simp only [getD_some, hne, if_false, hbase, Fs.writeBlock_eq hmounted.layout hb.lt,
      elim_some]

/-- What one round of the loop does: in any case it extends the map towards one logical
block; when it succeeds, the bytes are in place there, on top of `base`, which is the
old contents of the block if it was there before and is not overwritten whole. -/
structure ChunkWritten (reserved : Nat → Prop) (live : Nat → Option Buf) (ino : Nat)
    (data : Buf) (w : Work) (l offset len done : Nat) (r : Work × Bool) : Prop where
  owned : Owned reserved r.1.fs (update live ino (some r.1.ei))
  grew : Grew reserved (Chains w.fs.geo.perBlock (· = l)) (Leaves w.fs.geo.perBlock (· = l))
    w.fs w.ei r.1.fs r.1.ei
  dirty : r.1.dirty = true ∨ (r.1.ei = w.ei ∧ r.1.dirty = w.dirty)
  written : r.2 = true → l < mapBlocks w.fs.geo.perBlock ∧
    ptr r.1.fs r.1.ei (leafPos w.fs.geo.perBlock l) ≠ 0 ∧
    ∃ base, r.1.fs.disk (ptr r.1.fs r.1.ei (leafPos w.fs.geo.perBlock l)) =
        base.blit offset (data.drop done) len ∧
      (ptr w.fs w.ei (leafPos w.fs.geo.perBlock l) ≠ 0 → len ≠ w.fs.geo.blockSize →
        base = w.fs.disk (ptr w.fs w.ei (leafPos w.fs.geo.perBlock l)))

theorem writeChunk_spec (data : Buf) (offset len done : Nat)
    (ho : Owned reserved w.fs (update live ino (some w.ei))) (l : Nat) :
    ChunkWritten reserved live ino data w l offset len done
      (writeChunk data w l offset len done) := by
  have hens := bmapAlloc_spec ho l
  rw [writeChunk_eq data offset len done ho l]
  cases halloc : w.bmapAlloc l with
  | mk w₁ result =>
    rw [halloc] at hens
    have hdirty : w₁.dirty = true ∨ (w₁.ei = w.ei ∧ w₁.dirty = w.dirty) :=
      hens.dirty.imp_right fun h => by rw [show w₁ = w from h]; exact ⟨rfl, rfl⟩
    have hgrew : Grew reserved (Chains w.fs.geo.perBlock (· = l))
        (Leaves w.fs.geo.perBlock (· = l)) w.fs w.ei w₁.fs w₁.ei :=
      hens.grew.weaken (fun p hp => ⟨l, rfl, hp⟩) fun _ h => h.elim
    cases result with
    | none => exact ⟨hens.owned, hgrew, hdirty, fun h => by cases h⟩
    | some b =>
      dsimp only [elim_some]
      obtain ⟨hb0, hptr⟩ := hens.result b rfl
      have hl : l < mapBlocks w.fs.geo.perBlock :=
        bmapAlloc_lt (b := b) (by rw [halloc])
      have hvalid : (leafPos w.fs.geo.perBlock l).Valid w₁.fs.geo.perBlock := by
        rw [hens.grew.geo]
        exact leafPos_valid hl
      have hne : ptr w₁.fs w₁.ei (leafPos w.fs.geo.perBlock l) ≠ 0 := by rwa [hptr]
      generalize hbuf : chunkBase w₁.fs len b = base
      have hD : Leaves w.fs.geo.perBlock (· = l) (leafPos w.fs.geo.perBlock l) :=
        ⟨l, rfl, rfl⟩
      have hleaf := leafPos_leaf w.fs.geo.perBlock l
      obtain ⟨hgrew₂, howned₂⟩ := writeLeaf_spec hens.owned hvalid hleaf hne hD
        (base.blit offset (data.drop done) len) rfl
      have hsame := ptr_writeLeaf hens.owned hvalid hleaf
        (base.blit offset (data.drop done) len) hvalid
      rw [hptr] at hgrew₂ howned₂ hsame
      refine ⟨howned₂, hgrew.trans ho.mounted.layout.reserved_zero hgrew₂, hdirty,
        fun _ => ⟨hl, by rwa [hsame], base, ?_, fun hold hlen => ?_⟩⟩
      · rw [hsame]
        exact update_self _ _ _
      · have hvalid' : (leafPos w.fs.geo.perBlock l).Valid w.fs.geo.perBlock :=
          leafPos_valid hl
        have hkeep := hens.grew.keep _ hvalid' hold
        rw [← hbuf, chunkBase, if_neg (by rw [hens.grew.geo]; exact hlen), ← hptr, hkeep]
        refine hens.grew.disk _ (ho.data hvalid' hold) fun q hq hin heq => ?_
        have hqp := ho.pos_eq hvalid' hq hold heq.symm
        exact hleaf.not_inner (hqp ▸ hin.resolve_right id)

/-- Whatever becomes of a write, it fills holes on the way to the blocks in its range,
writes their data, and leaves everything else in use alone. -/
structure LoopWritten (reserved : Nat → Prop) (live : Nat → Option Buf) (ino : Nat)
    (L : Nat → Prop) (w w' : Work) : Prop where
  owned : Owned reserved w'.fs (update live ino (some w'.ei))
  grew : Grew reserved (Chains w.fs.geo.perBlock L) (Leaves w.fs.geo.perBlock L)
    w.fs w.ei w'.fs w'.ei
  dirty : w'.dirty = true ∨ (w'.ei = w.ei ∧ w'.dirty = w.dirty)

/-- One round of the loop of `ext2_write`. -/
theorem writeLoop_succ (data : Buf) (w : Work) (pos : Nat) {count : Nat} (hcount : count ≠ 0)
    (done fuel : Nat) :
    writeLoop data w pos count done (fuel + 1) =
      let toWrite := min (w.fs.geo.blockSize - pos % w.fs.geo.blockSize) count
      let r := writeChunk data w (u32 (pos / w.fs.geo.blockSize)) (pos % w.fs.geo.blockSize)
        toWrite done
      if r.2 then writeLoop data r.1 (pos + toWrite) (count - toWrite) (done + toWrite) fuel
      else (r.1, pos, false) := by
  rw [writeLoop, if_neg hcount]
  dsimp only
  generalize writeChunk data w _ _ _ done = r
  obtain ⟨w₁, ok⟩ := r
  cases ok <;> rfl

theorem writeLoop_spec (data : Buf) {pos count done fuel : Nat}
    (ho : Owned reserved w.fs (update live ino (some w.ei)))
    (hL : ∀ q, pos ≤ q → q < pos + count → L (u32 (q / w.fs.geo.blockSize))) :
    LoopWritten reserved live ino L w (writeLoop data w pos count done fuel).1 := by
  induction fuel generalizing w pos count done with
  | zero => exact ⟨ho, Grew.refl _ _ _ _ _, .inr ⟨rfl, rfl⟩⟩
  | succ fuel ih =>
    by_cases hcount : count = 0
    · rw [writeLoop, if_pos hcount]
      exact ⟨ho, Grew.refl _ _ _ _ _, .inr ⟨rfl, rfl⟩⟩
    rw [writeLoop_succ data w pos hcount]
    dsimp only
    generalize hstep : min (w.fs.geo.blockSize - pos % w.fs.geo.blockSize) count = step
    have hchunk := writeChunk_spec data (pos % w.fs.geo.blockSize) step done ho
      (u32 (pos / w.fs.geo.blockSize))
    generalize writeChunk data w (u32 (pos / w.fs.geo.blockSize)) (pos % w.fs.geo.blockSize)
      step done = r at hchunk ⊢
    obtain ⟨w₁, ok⟩ := r
    have hmem : L (u32 (pos / w.fs.geo.blockSize)) := hL pos le_rfl (by omega)
    have hgrew : Grew reserved (Chains w.fs.geo.perBlock L) (Leaves w.fs.geo.perBlock L)
        w.fs w.ei w₁.fs w₁.ei :=
      hchunk.grew.weaken (fun p ⟨l, hl, hp⟩ => ⟨l, hl ▸ hmem, hp⟩)
        fun p ⟨l, hl, hp⟩ => ⟨l, hl ▸ hmem, hp⟩
    cases ok with
    | false => exact ⟨hchunk.owned, hgrew, hchunk.dirty⟩
    | true =>
      have hgeo : w₁.fs.geo = w.fs.geo := hchunk.grew.geo
      have hrest := @ih w₁ (pos + step) (count - step) (done + step) hchunk.owned
        fun q hq hq' => by
          rw [hgeo]
          exact hL q (by omega) (by omega)
      have hgrew₂ := hrest.grew
      rw [hgeo] at hgrew₂
      refine ⟨hrest.owned, hgrew.trans ho.mounted.layout.reserved_zero hgrew₂, ?_⟩
      rcases hrest.dirty with hd | ⟨he, hd⟩
      · exact .inl hd
      · rcases hchunk.dirty with hd₁ | ⟨he₁, hd₁⟩
        · exact .inl (hd.trans hd₁)
        · exact .inr ⟨he.trans he₁, hd.trans hd₁⟩

end Write

end Osx64.Ext2
