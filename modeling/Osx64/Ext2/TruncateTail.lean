import Osx64.Ext2.FileBytes

/-!
# What a truncation leaves behind

After `ext2_truncate_blocks` the blocks below the new end should be as they were, and
what only served blocks behind it should be free: the data blocks, and every pointer
block that covers no block below the end.  `FreesTail` says this of one call, with the
record of the blocks it frees.

The code gets there by index computations, one for each kind of pointer block.  They go
wrong in four ways, and in no other (`freesTail_iff`): when the end falls on the first
block of a second-level pointer block, that block is emptied and kept; direct blocks
behind the old size are passed over; from `2^32` blocks on the new end wraps; and a new
end of `2^31` blocks or more sends the first loop in front of the array.
-/

namespace Osx64.Ext2

open Function List Nat Pos

/-! ## Blocks covered by a position -/

/-- The pointer at `p` is on the way to logical block `l`. -/
def Covers (n : Nat) (p : Pos) (l : Nat) : Prop := l < mapBlocks n ∧ OnChain (leafPos n l) p

/-- The pointer at `p` serves no logical block below `N`. -/
def Tail (n N : Nat) (p : Pos) : Prop := ∀ l, Covers n p l → N ≤ l

section Covers

variable {n N l first i j k : Nat} {p : Pos}

theorem tail_iff (hfirst : Covers n p first) (hle : ∀ l, Covers n p l → first ≤ l) :
    Tail n N p ↔ N ≤ first :=
  ⟨fun h => h first hfirst, fun h l hl => h.trans (hle l hl)⟩

/-- The positions, one shape after the other. -/
theorem Pos.Valid.cases (hp : p.Valid n) :
    (∃ k < ndirBlocks, p = ⟨k, []⟩) ∨ p = ⟨indBlock, []⟩ ∨ (∃ j < n, p = ⟨indBlock, [j]⟩) ∨
      p = ⟨dindBlock, []⟩ ∨ (∃ i < n, p = ⟨dindBlock, [i]⟩) ∨
      ∃ i < n, ∃ k < n, p = ⟨dindBlock, [k, i]⟩ := by
  obtain ⟨slot, path⟩ := p
  obtain ⟨hslot, hdepth, hindex⟩ := hp
  dsimp only at *
  have hcases : slot < ndirBlocks ∨ slot = indBlock ∨ slot = dindBlock := by
    rw [ndirBlocks, indBlock, dindBlock]
    omega
  rcases hcases with h | rfl | rfl
  · rw [slotLevel, if_pos h, le_zero, length_eq_zero_iff] at hdepth
    exact .inl ⟨slot, h, by rw [hdepth]⟩
  · rcases path with _ | ⟨j, _ | _⟩
    · exact .inr (.inl rfl)
    · exact .inr (.inr (.inl ⟨j, hindex j (by simp), rfl⟩))
    · exact absurd hdepth (by simp [slotLevel, indBlock, ndirBlocks])
  · rcases path with _ | ⟨k, _ | ⟨i, _ | _⟩⟩
    · exact .inr (.inr (.inr (.inl rfl)))
    · exact .inr (.inr (.inr (.inr (.inl ⟨k, hindex k (by simp), rfl⟩))))
    · exact .inr (.inr (.inr (.inr (.inr ⟨i, hindex i (by simp), k, hindex k (by simp), rfl⟩))))
    · exact absurd hdepth (by simp [slotLevel, dindBlock, ndirBlocks])

theorem onChain_iff {slot : Nat} {path : List Nat} :
    OnChain ⟨slot, path⟩ p ↔ p.slot = slot ∧ p.path <:+ path := Iff.rfl

/-- The pointers on the way to a logical block. -/
def OnWay (n l : Nat) (p : Pos) : Prop :=
  (l < ndirBlocks ∧ p = ⟨l, []⟩) ∨
  (ndirBlocks ≤ l ∧ l < ndirBlocks + n ∧
    (p = ⟨indBlock, []⟩ ∨ p = ⟨indBlock, [l - ndirBlocks]⟩)) ∨
  (ndirBlocks + n ≤ l ∧ (p = ⟨dindBlock, []⟩ ∨
    p = ⟨dindBlock, [(l - (ndirBlocks + n)) / n]⟩ ∨
    p = ⟨dindBlock, [(l - (ndirBlocks + n)) % n, (l - (ndirBlocks + n)) / n]⟩))

theorem onChain_leafPos : OnChain (leafPos n l) p ↔ OnWay n l p := by
  obtain ⟨slot, path⟩ := p
  unfold OnWay
  by_cases hdir : l < ndirBlocks
  · have hnot : ¬ ndirBlocks ≤ l ∧ ¬ ndirBlocks + n ≤ l := by omega
    simp [leafPos, onChain_iff, hdir, hnot]
  by_cases hind : l < ndirBlocks + n
  · have hnot : ndirBlocks ≤ l ∧ ¬ ndirBlocks + n ≤ l := by omega
    simp [leafPos, onChain_iff, hdir, hind, hnot, suffix_cons_iff]
    tauto
  · have hnot : ndirBlocks ≤ l ∧ ndirBlocks + n ≤ l := by omega
    simp [leafPos, onChain_iff, hdir, hind, hnot, suffix_cons_iff]
    tauto

/-- The order of numbers is that of quotients, and then of remainders. -/
theorem le_mul_add_iff {d k : Nat} (i : Nat) (hk : k < n) :
    d ≤ i * n + k ↔ d / n < i ∨ (d / n = i ∧ d % n ≤ k) := by
  have hn : 0 < n := zero_lt_of_lt hk
  have hd := div_add_mod' d n
  have hmod := mod_lt d hn
  rcases lt_trichotomy (d / n) i with h | h | h
  · have hmul : (d / n + 1) * n ≤ i * n := mul_le_mul_right n h
    rw [succ_mul] at hmul
    omega
  · rw [← h]
    omega
  · have hmul : (i + 1) * n ≤ d / n * n := mul_le_mul_right n h
    rw [succ_mul] at hmul
    omega

theorem tail_of_onWay (hlt : first < ndirBlocks + n + n * n) (hfirst : OnWay n first p)
    (hle : ∀ l, OnWay n l p → first ≤ l) : Tail n N p ↔ N ≤ first :=
  tail_iff ⟨hlt, onChain_leafPos.mpr hfirst⟩ fun l hl => hle l (onChain_leafPos.mp hl.2)

theorem tail_ind (hj : j < n) : Tail n N ⟨indBlock, [j]⟩ ↔ N ≤ ndirBlocks + j := by
  apply tail_of_onWay (by omega) (.inr (.inl ⟨by omega, by omega, .inr (by simp)⟩))
  intro l hl
  simp [OnWay, ndirBlocks, indBlock, dindBlock] at hl ⊢
  omega

section Tail

variable (hn : 0 < n)

include hn

theorem tail_direct (hk : k < ndirBlocks) : Tail n N ⟨k, []⟩ ↔ N ≤ k := by
  apply tail_of_onWay (by omega) (.inl ⟨hk, rfl⟩)
  intro l hl
  simp [OnWay, ndirBlocks, indBlock, dindBlock] at hl hk
  omega

theorem tail_ind_root : Tail n N ⟨indBlock, []⟩ ↔ N ≤ ndirBlocks := by
  apply tail_of_onWay (by omega) (.inr (.inl ⟨le_rfl, by omega, .inl rfl⟩))
  intro l hl
  simp [OnWay, ndirBlocks, indBlock, dindBlock] at hl ⊢
  omega

theorem tail_dind_root : Tail n N ⟨dindBlock, []⟩ ↔ N ≤ ndirBlocks + n := by
  have hsquare : 0 < n * n := mul_pos hn hn
  apply tail_of_onWay (by omega) (.inr (.inr ⟨le_rfl, .inl rfl⟩))
  intro l hl
  simp [OnWay, ndirBlocks, indBlock, dindBlock] at hl ⊢
  omega

omit hn in
theorem mul_add_le_mul (hi : i < n) : i * n + n ≤ n * n := by
  rw [← succ_mul]
  exact mul_le_mul_right n hi

theorem tail_dind (hi : i < n) : Tail n N ⟨dindBlock, [i]⟩ ↔ N ≤ ndirBlocks + n + i * n := by
  have hmul := mul_add_le_mul hi
  apply tail_of_onWay (by omega)
  · refine .inr (.inr ⟨by omega, .inr (.inl ?_)⟩)
    rw [Nat.add_sub_cancel_left, Nat.mul_div_cancel _ hn]
  · intro l hl
    simp [OnWay, ndirBlocks, indBlock, dindBlock] at hl ⊢
    obtain ⟨hl', rfl⟩ := hl
    have := div_mul_le_self (l - (12 + n)) n
    omega

theorem tail_leaf (hi : i < n) (hk : k < n) :
    Tail n N ⟨dindBlock, [k, i]⟩ ↔ N ≤ ndirBlocks + n + (i * n + k) := by
  have hmul := mul_add_le_mul hi
  have hdiv : (i * n + k) / n = i ∧ (i * n + k) % n = k := by
    rw [mul_comm, mul_add_div hn, div_eq_of_lt hk, mul_add_mod,
      mod_eq_of_lt hk]
    exact ⟨rfl, rfl⟩
  apply tail_of_onWay (by omega)
  · refine .inr (.inr ⟨by omega, .inr (.inr ?_)⟩)
    rw [Nat.add_sub_cancel_left, hdiv.1, hdiv.2]
  · intro l hl
    simp [OnWay, ndirBlocks, indBlock, dindBlock] at hl ⊢
    obtain ⟨hl', rfl, rfl⟩ := hl
    have := div_add_mod (l - (12 + n)) n
    rw [mul_comm] at this
    omega

/-- Where the code and the rule agree, and where they do not. -/
theorem tail_iff_cutAt (hp : p.Valid n) (old : Nat) :
    Tail n N p ↔ CutAt n N old p ∨ (p.slot < ndirBlocks ∧ N ≤ p.slot ∧ old ≤ p.slot) ∨
      ∃ m, 0 < m ∧ N = ndirBlocks + n + m * n ∧ p = ⟨dindBlock, [m]⟩ := by
  rcases hp.cases with ⟨k, hk, rfl⟩ | rfl | ⟨j, hj, rfl⟩ | rfl | ⟨i, hi, rfl⟩ | ⟨i, hi, k, hk, rfl⟩
  · rw [tail_direct hn hk]
    simp [CutAt, CutInd, CutDind, indBlock, dindBlock, ndirBlocks] at hk ⊢
    omega
  · rw [tail_ind_root hn]
    simp [CutAt, CutInd, CutDind, indBlock, dindBlock, ndirBlocks, OnChain, child]
  · rw [tail_ind hj]
    simp [CutAt, CutInd, CutDind, indBlock, dindBlock, ndirBlocks, OnChain, child,
      suffix_cons_iff]
    omega
  · rw [tail_dind_root hn]
    simp [CutAt, CutInd, CutDind, indBlock, dindBlock, ndirBlocks, OnChain, child]
  · rw [tail_dind hn hi]
    simp [CutAt, CutInd, CutDind, indBlock, dindBlock, ndirBlocks, OnChain, child,
      suffix_cons_iff]
    rcases Nat.eq_zero_or_pos i with rfl | hpos
    · generalize (N - (12 + n)) / n = d
      omega
    · have hle : n ≤ i * n := Nat.le_mul_of_pos_left n hpos
      have hlt : N - (12 + n) < i * n ↔ (N - (12 + n)) / n < i := (div_lt_iff_lt_mul hn).symm
      omega
  · have hdiv := le_mul_add_iff (d := N - (12 + n)) i hk
    rw [tail_leaf hn hi hk]
    simp [CutAt, CutInd, CutDind, indBlock, dindBlock, ndirBlocks, OnChain, child,
      suffix_cons_iff]
    omega

end Tail

end Covers

/-! ## The call -/

/-- `N`, the number of blocks a file of `size` bytes needs. -/
def blocksFor (geo : Geometry) (size : Nat) : Nat := (size + geo.blockSize - 1) / geo.blockSize

/-- What a truncation to `N` blocks should have done: the blocks below `N` are where they
were and no others are left, the blocks that served only the tail have been freed, each
once, and `i_blocks` is less by their sectors. -/
structure TailFreed (fs : Fs) (ei : Buf) (N : Nat) (s : Trace) : Prop where
  kept : ∀ k < mapBlocks fs.geo.perBlock, k < N → bmap s.fs s.ei k = bmap fs ei k
  gone : ∀ k < mapBlocks fs.geo.perBlock, N ≤ k → bmap s.fs s.ei k = 0
  once : s.freed.Nodup
  freed : ∀ c, c ∈ s.freed ↔
    ∃ p : Pos, p.Valid fs.geo.perBlock ∧ Tail fs.geo.perBlock N p ∧ ptr fs ei p = c ∧ c ≠ 0
  count : u32 (iBlocks s.ei + fs.geo.blockSize / 512 * s.freed.length) = iBlocks ei

/-- `ext2_truncate_blocks` on an inode of `size` bytes succeeds, and frees the tail. -/
def FreesTail (fs : Fs) (ei : Buf) (size newSize : Nat) : Prop :=
  ∃ s, Trace.truncateBlocks fs ei size newSize = .ok (s, true) ∧
    TailFreed fs ei (blocksFor fs.geo newSize) s

/-- When the index computations come out right. -/
structure CutsTail (fs : Fs) (ei : Buf) (size newSize : Nat) : Prop where
  /-- in front of the array the first loop meets only zero words of the inode -/
  inside : 2 ^ 31 ≤ newBlocks fs.geo newSize → ∀ i, newBlocks fs.geo newSize ≤ i →
    i < sizeBlocks fs.geo size → ∃ offset, slotOffset i = some offset ∧ ei.get32 offset = 0
  /-- there are no direct blocks behind the old size -/
  direct : blocksFor fs.geo newSize < 2 ^ 32 → ∀ k < ndirBlocks,
    blocksFor fs.geo newSize ≤ k → sizeBlocks fs.geo size ≤ k → iBlock ei k = 0
  /-- the new end is not the first block of a second-level pointer block that is there -/
  boundary : blocksFor fs.geo newSize < 2 ^ 32 → ∀ m, 0 < m → m < fs.geo.perBlock →
    blocksFor fs.geo newSize = ndirBlocks + fs.geo.perBlock + m * fs.geo.perBlock →
    ptr fs ei ⟨dindBlock, [m]⟩ = 0
  /-- a new end that wraps cuts only holes -/
  wrapped : 2 ^ 32 ≤ blocksFor fs.geo newSize → ∀ p : Pos, p.Valid fs.geo.perBlock →
    CutAt fs.geo.perBlock (newBlocks fs.geo newSize) (sizeBlocks fs.geo size) p →
    ptr fs ei p = 0

section Record

variable {n i fuel b level : Nat} {s s' : Trace} {count : Buf → Buf}

/-! A record only gets longer. -/

theorem freed_freeSubtree (n : Nat) (count : Buf → Buf) (level : Nat) (s : Trace) (b : Nat) :
    s.freed <+: (Trace.freeSubtree n count level s b).freed := by
  induction level generalizing s b with
  | zero => exact prefix_append _ _
  | succ level ih =>
    rw [Trace.freeSubtree]
    cases s.fs.readBlock b with
    | none => exact prefix_rfl
    | some buf =>
      refine List.IsPrefix.trans ?_ (prefix_append _ _)
      refine foldlRecOn (range n) _ (motive := fun x : Trace => s.freed <+: x.freed)
        prefix_rfl ?_
      intro x hx k _
      split
      · exact hx
      · exact hx.trans (ih x _)

theorem freed_freeIndBlocks (s : Trace) (b level : Nat) :
    s.freed <+: (s.freeIndBlocks b level).freed := by
  rw [Trace.freeIndBlocks]
  split
  · exact prefix_rfl
  · exact freed_freeSubtree _ _ _ _ _

theorem freed_freeEntries (level : Nat) (s : Trace) (buf : Buf) (indices : List Nat) :
    s.freed <+: (Trace.freeEntries level s buf indices).1.freed := by
  refine foldlRecOn indices _
    (motive := fun x : Trace × Buf => s.freed <+: x.1.freed) prefix_rfl ?_
  intro x hx k _
  dsimp only
  split
  · exact hx
  · exact hx.trans (freed_freeIndBlocks _ _ _)

theorem freed_truncateDirect (h : s.truncateDirect i fuel = .ok s') : s.freed <+: s'.freed := by
  induction fuel generalizing s i with
  | zero =>
    cases h
    exact prefix_rfl
  | succ fuel ih =>
    rw [Trace.truncateDirect] at h
    split at h
    · cases hoff : slotOffset i with
      | none =>
        rw [hoff] at h
        cases h
      | some offset =>
        rw [hoff] at h
        dsimp only at h
        split at h
        · exact ih h
        · exact (prefix_append _ _).trans (ih h)
    · cases h
      exact prefix_rfl

theorem freed_truncateInd (s : Trace) (new : Nat) : s.freed <+: (s.truncateInd new).1.freed := by
  rw [Trace.truncateInd]
  split
  · split
    · exact prefix_rfl
    · exact freed_freeIndBlocks _ _ _
  · split
    · exact prefix_rfl
    · cases s.fs.readBlock (iBlock s.ei indBlock) with
      | none => exact prefix_rfl
      | some buf => exact freed_freeEntries _ _ _ _

theorem freed_truncateSubs (start : Nat) (s : Trace) (buf : Buf) (indices : List Nat) :
    s.freed <+: (s.truncateSubs start buf indices).1.freed := by
  induction indices generalizing s buf with
  | nil => exact prefix_rfl
  | cons i rest ih =>
    rw [Trace.truncateSubs]
    split
    · exact ih s buf
    · split
      · cases s.fs.readBlock (buf.get32 (4 * i)) with
        | none => exact prefix_rfl
        | some sub => exact (freed_freeEntries _ _ _ _).trans (ih (Trace.putBlock _ _ _) buf)
      · exact (freed_freeIndBlocks _ _ _).trans (ih _ _)

theorem freed_truncateDind (s : Trace) (new : Nat) : s.freed <+: (s.truncateDind new).1.freed := by
  rw [Trace.truncateDind]
  split
  · split
    · exact prefix_rfl
    · exact freed_freeIndBlocks _ _ _
  · split
    · exact prefix_rfl
    · cases s.fs.readBlock (iBlock s.ei dindBlock) with
      | none => exact prefix_rfl
      | some buf =>
        dsimp only
        split
        · exact freed_truncateSubs _ _ _ _
        · exact freed_truncateSubs _ _ _ _

/-- What the first loop frees is in the record of the call. -/
theorem freed_truncateBlocks {fs : Fs} {ei : Buf} {size : Nat} {newSize : Int} {ok : Bool}
    (h : Trace.truncateBlocks fs ei size newSize = .ok (s', ok)) :
    ∃ s, Trace.truncateDirect ⟨fs, ei, []⟩ (newBlocks fs.geo newSize)
      (sizeBlocks fs.geo size - newBlocks fs.geo newSize) = .ok s ∧ s.freed <+: s'.freed := by
  rw [Trace.truncateBlocks] at h
  cases hrun : Trace.truncateDirect ⟨fs, ei, []⟩ (newBlocks fs.geo newSize)
      (sizeBlocks fs.geo size - newBlocks fs.geo newSize) with
  | error e =>
    rw [hrun] at h
    cases h
  | ok s =>
    rw [hrun] at h
    refine ⟨s, rfl, ?_⟩
    have hind := freed_truncateInd s (newBlocks fs.geo newSize)
    rw [Except.map] at h
    cases hstep : s.truncateInd (newBlocks fs.geo newSize) with
    | mk s₁ ok₁ =>
      rw [hstep] at h hind
      cases ok₁ with
      | false =>
        cases h
        exact hind
      | true =>
        have hdind := freed_truncateDind s₁ (newBlocks fs.geo newSize)
        dsimp only at h
        rw [Except.ok.inj h] at hdind
        exact hind.trans hdind

/-- In front of the array, a first loop that frees nothing has met zeros only. -/
theorem zeros_of_truncateDirect (hi : 2 ^ 31 ≤ i) (h : s.truncateDirect i fuel = .ok s')
    (hnil : s'.freed = s.freed) {k : Nat} (hk : i ≤ k) (hk' : k < i + fuel) :
    ∃ offset, slotOffset k = some offset ∧ s.ei.get32 offset = 0 := by
  induction fuel generalizing s i with
  | zero => omega
  | succ fuel ih =>
    rw [Trace.truncateDirect, if_pos (.inr hi)] at h
    cases hoff : slotOffset i with
    | none =>
      rw [hoff] at h
      cases h
    | some offset =>
      rw [hoff] at h
      dsimp only at h
      by_cases h0 : s.ei.get32 offset = 0
      · rw [if_pos h0] at h
        rcases eq_or_lt_of_le hk with rfl | hlt
        · exact ⟨offset, hoff, h0⟩
        · exact ih (by omega) h hnil hlt (by omega)
      · rw [if_neg h0] at h
        have hprefix := (freed_truncateDirect h).length_le
        rw [hnil] at hprefix
        simp [Trace.free] at hprefix

/-- In front of the array, a first loop that meets zeros only does nothing. -/
theorem truncateDirect_zeros (hi : 2 ^ 31 ≤ i)
    (hzero : ∀ k, i ≤ k → k < i + fuel → ∃ offset, slotOffset k = some offset ∧
      s.ei.get32 offset = 0) : s.truncateDirect i fuel = .ok s := by
  induction fuel generalizing i with
  | zero => rfl
  | succ fuel ih =>
    obtain ⟨offset, hoff, h0⟩ := hzero i le_rfl (by omega)
    rw [Trace.truncateDirect, if_pos (.inr hi), hoff]
    dsimp only
    rw [if_pos h0]
    exact ih (by omega) fun k hk hk' => hzero k (by omega) (by omega)

end Record

section Tail

variable {reserved : Nat → Prop} {live : Nat → Option Buf} {ino : Nat} {fs : Fs} {ei : Buf}
  {size newSize : Nat} {s : Trace} {p : Pos}

/-- `new_blocks` is the number of blocks the new size needs, cut to 32 bits. -/
theorem newBlocks_natCast (geo : Geometry) (newSize : Nat) :
    newBlocks geo newSize = u32 (blocksFor geo newSize) := by
  have hbs := blockSize_pos geo
  have hsum : ((newSize : Int) + geo.blockSize - 1) =
      ((newSize + geo.blockSize - 1 : Nat) : Int) := by
    omega
  rw [newBlocks, hsum, ← Int.ofNat_tdiv, blocksFor, u32]
  omega

theorem perBlock_pos (hgeo : Layout fs.geo reserved) : 0 < fs.geo.perBlock := by
  rw [Geometry.perBlock]
  rcases hgeo.blockSize_cases with h | h | h <;> simp [h]

/-- Every pointer serves some block. -/
theorem Tail.lt_mapBlocks {n N : Nat} (hn : 0 < n) (hp : p.Valid n) (h : Tail n N p) :
    N < mapBlocks n := by
  have hsquare : 0 < n * n := mul_pos hn hn
  rw [mapBlocks]
  rcases hp.cases with ⟨k, hk, rfl⟩ | rfl | ⟨j, hj, rfl⟩ | rfl | ⟨i, hi, rfl⟩ | ⟨i, hi, k, hk, rfl⟩
  · rw [tail_direct hn hk] at h
    omega
  · rw [tail_ind_root hn] at h
    omega
  · rw [tail_ind hj] at h
    omega
  · rw [tail_dind_root hn] at h
    omega
  · rw [tail_dind hn hi] at h
    have hmul := mul_add_le_mul hi
    omega
  · rw [tail_leaf hn hi hk] at h
    have hmul := mul_add_le_mul hi
    omega

section

variable (ho : Owned reserved fs (update live ino (some ei)))
include ho

/-- With zeros in front of the array the call is a cut. -/
theorem trimBlocks_of_inside
    (hinside : 2 ^ 31 ≤ newBlocks fs.geo newSize → ∀ i, newBlocks fs.geo newSize ≤ i →
      i < sizeBlocks fs.geo size → ∃ offset, slotOffset i = some offset ∧ ei.get32 offset = 0) :
    ∃ s, Trace.truncateBlocks fs ei size newSize = .ok (s, true) ∧
      Trimmed reserved
        (CutAt fs.geo.perBlock (newBlocks fs.geo newSize) (sizeBlocks fs.geo size))
        ⟨fs, ei, []⟩ s := by
  by_cases hunder : Underruns fs.geo size newSize
  · have hrun : Trace.truncateDirect ⟨fs, ei, []⟩ (newBlocks fs.geo newSize)
        (sizeBlocks fs.geo size - newBlocks fs.geo newSize) = .ok ⟨fs, ei, []⟩ := by
      apply truncateDirect_zeros hunder.1
      intro k hk hk'
      exact hinside hunder.1 k hk (by omega)
    apply trimBlocks_of_direct ho
    refine ⟨_, hrun, Trimmed.refl ho.mounted fun p _ hp => ?_⟩
    have := hunder.1
    rw [ndirBlocks] at hp
    omega
  · exact trimBlocks ho hunder

/-- What the call should have done, in terms of the positions it cuts. -/
theorem tailFreed_iff
    {Cut : Pos → Prop} (hcut : Trimmed reserved Cut ⟨fs, ei, []⟩ s) (N : Nat) :
    TailFreed fs ei N s ↔ ∀ p : Pos, p.Valid fs.geo.perBlock → ptr fs ei p ≠ 0 →
      (Cut p ↔ Tail fs.geo.perBlock N p) := by
  have hlive : update live ino (some ei) ino = some ei := update_self _ _ _
  obtain ⟨T, hfreed, hnodup, hmem, hcount⟩ := hcut.record
  obtain rfl : s.freed = T := hfreed.trans (nil_append T)
  constructor
  · intro h p hp hne
    have hboth := (hmem (ptr fs ei p)).symm.trans (h.freed (ptr fs ei p))
    have hself : ∀ Q : Pos → Prop, (∃ q : Pos, q.Valid fs.geo.perBlock ∧ Q q ∧
        ptr fs ei q = ptr fs ei p ∧ ptr fs ei p ≠ 0) ↔ Q p := by
      intro Q
      constructor
      · rintro ⟨q, hq, hQ, heq, -⟩
        obtain rfl := ho.pos_eq hp hq hne heq.symm
        exact hQ
      · exact fun hQ => ⟨p, hp, hQ, rfl, hne⟩
    rwa [hself, hself] at hboth
  · intro h
    have ho' := hcut.shrunk.owned ho
    have hgeo : s.fs.geo = fs.geo := hcut.shrunk.geo
    have hbmap : ∀ k < mapBlocks fs.geo.perBlock, bmap s.fs s.ei k =
        ptr s.fs s.ei (leafPos fs.geo.perBlock k) := fun k hk => by
      rw [ho'.bmap_eq (update_self _ _ _) (hgeo.symm ▸ hk), hgeo]
    have hleaf : ∀ k < mapBlocks fs.geo.perBlock,
        Tail fs.geo.perBlock N (leafPos fs.geo.perBlock k) ↔ N ≤ k := by
      intro k hk
      apply tail_iff ⟨hk, OnChain.self _⟩
      intro l hl
      exact (leafPos_of_onChain hl.2).le
    refine ⟨fun k hk hlt => ?_, fun k hk hle => ?_, hnodup, fun c => ?_, ?_⟩
    · rw [hbmap k hk, ho.bmap_eq hlive hk]
      by_cases hcutk : Cut (leafPos fs.geo.perBlock k)
      · by_cases hne : ptr fs ei (leafPos fs.geo.perBlock k) = 0
        · rw [hcut.shrunk.cut _ (leafPos_valid hk) hcutk]
          exact hne.symm
        · have := (hleaf k hk).mp ((h _ (leafPos_valid hk) hne).mp hcutk)
          omega
      · exact hcut.shrunk.keep _ (leafPos_valid hk) hcutk
    · rw [hbmap k hk]
      by_cases hcutk : Cut (leafPos fs.geo.perBlock k)
      · exact hcut.shrunk.cut _ (leafPos_valid hk) hcutk
      · refine (hcut.shrunk.keep _ (leafPos_valid hk) hcutk).trans ?_
        by_contra hne
        exact hcutk ((h _ (leafPos_valid hk) hne).mpr ((hleaf k hk).mpr hle))
    · rw [hmem]
      refine exists_congr fun p => and_congr_right fun hp => ?_
      constructor
      · rintro ⟨hQ, heq, hc⟩
        exact ⟨(h p hp (heq ▸ hc)).mp hQ, heq, hc⟩
      · rintro ⟨hQ, heq, hc⟩
        exact ⟨(h p hp (heq ▸ hc)).mpr hQ, heq, hc⟩
    · have hdelta : fs.geo.blockSize / 512 = fs.geo.delta := by
        rw [Geometry.blockSize, Geometry.delta]
        omega
      rw [hdelta]
      exact hcount

end

section

variable (hgeo : Layout fs.geo reserved)
include hgeo

theorem mapBlocks_lt_of_layout :
    mapBlocks fs.geo.perBlock < 2 ^ 31 := by
  have hle := perBlock_le hgeo
  have hsquare := mul_le_mul hle hle
  rw [mapBlocks, ndirBlocks]
  omega

/-- A call that frees the tail has met only zeros in front of the array. -/
theorem FreesTail.inside (h : FreesTail fs ei size newSize)
    (hlow : 2 ^ 31 ≤ newBlocks fs.geo newSize) {i : Nat} (hi : newBlocks fs.geo newSize ≤ i)
    (hi' : i < sizeBlocks fs.geo size) :
    ∃ offset, slotOffset i = some offset ∧ ei.get32 offset = 0 := by
  obtain ⟨s, hrun, htail⟩ := h
  obtain ⟨s₁, hdirect, hprefix⟩ := freed_truncateBlocks hrun
  have hmap := mapBlocks_lt_of_layout hgeo
  have hlarge : mapBlocks fs.geo.perBlock ≤ blocksFor fs.geo newSize := by
    have : u32 (blocksFor fs.geo newSize) ≤ blocksFor fs.geo newSize := mod_le _ _
    rw [newBlocks_natCast] at hlow
    omega
  have hnil : s.freed = [] := by
    apply eq_nil_iff_forall_not_mem.mpr
    intro c hc
    obtain ⟨p, hp, hpt, -⟩ := (htail.freed c).mp hc
    have := hpt.lt_mapBlocks (perBlock_pos hgeo) hp
    omega
  rw [hnil, prefix_nil] at hprefix
  exact zeros_of_truncateDirect hlow hdirect hprefix hi (by omega)

/-- The conditions on the index computations say that the code cuts where it should,
wherever there is something to cut. -/
theorem cutsTail_iff : CutsTail fs ei size newSize ↔
    (2 ^ 31 ≤ newBlocks fs.geo newSize → ∀ i, newBlocks fs.geo newSize ≤ i →
      i < sizeBlocks fs.geo size → ∃ offset, slotOffset i = some offset ∧
      ei.get32 offset = 0) ∧
    ∀ p : Pos, p.Valid fs.geo.perBlock → ptr fs ei p ≠ 0 →
      (CutAt fs.geo.perBlock (newBlocks fs.geo newSize) (sizeBlocks fs.geo size) p ↔
        Tail fs.geo.perBlock (blocksFor fs.geo newSize) p) := by
  have hn := perBlock_pos hgeo
  have hmap := mapBlocks_lt_of_layout hgeo
  have hnew := newBlocks_natCast fs.geo newSize
  rcases lt_or_ge (blocksFor fs.geo newSize) (2 ^ 32) with hfits | hwraps
  · rw [u32_of_lt hfits] at hnew
    constructor
    · intro h
      refine ⟨h.inside, fun p hp hne => ?_⟩
      rw [hnew, tail_iff_cutAt hn hp (sizeBlocks fs.geo size)]
      refine ⟨.inl, fun hor => ?_⟩
      rcases hor with hc | ⟨hslot, hle, hold⟩ | ⟨m, hm, hN, rfl⟩
      · exact hc
      · exact absurd (ptr_eq_zero_of_slot (h.direct hfits p.slot hslot hle hold)) hne
      · exact absurd (h.boundary hfits m hm (hp.index m (by simp)) hN) hne
    · rintro ⟨hin, h⟩
      refine ⟨hin, fun _ k hk hle hold => ?_, fun _ m hm hmn hN => ?_, fun hge => by omega⟩
      · by_contra hne
        have hp : Pos.Valid fs.geo.perBlock ⟨k, []⟩ :=
          ⟨lt_of_lt_of_le hk (by decide), zero_le _, by simp⟩
        have hc := (h ⟨k, []⟩ hp hne).mpr ((tail_direct hn hk).mpr hle)
        simp [CutAt, CutInd, CutDind, indBlock, dindBlock, ndirBlocks] at hc hk
        omega
      · by_contra hne
        have hp : Pos.Valid fs.geo.perBlock ⟨dindBlock, [m]⟩ :=
          ⟨by simp [dindBlock], by simp [slotLevel, dindBlock, ndirBlocks], by simpa using hmn⟩
        have hc := (h ⟨dindBlock, [m]⟩ hp hne).mpr ((tail_dind hn hmn).mpr hN.le)
        rw [hnew, hN] at hc
        simp [CutAt, CutInd, CutDind, indBlock, dindBlock, ndirBlocks, OnChain, child,
          suffix_cons_iff, Nat.mul_div_cancel _ hn] at hc
        omega
  · -- the new end is behind the map, so nothing should be cut
    have hnone : ∀ p : Pos, p.Valid fs.geo.perBlock →
        ¬ Tail fs.geo.perBlock (blocksFor fs.geo newSize) p := by
      intro p hp hpt
      have := hpt.lt_mapBlocks hn hp
      omega
    constructor
    · intro h
      refine ⟨h.inside, fun p hp hne => ⟨fun hc => ?_, fun hpt => absurd hpt (hnone p hp)⟩⟩
      exact absurd (h.wrapped hwraps p hp hc) hne
    · rintro ⟨hin, h⟩
      refine ⟨hin, fun hlt => by omega, fun hlt => by omega, fun _ p hp hc => ?_⟩
      by_contra hne
      exact hnone p hp ((h p hp hne).mp hc)

end

/-- `ext2_truncate_blocks` frees exactly the tail if and only if its index computations
come out right. -/
theorem freesTail_iff (ho : Owned reserved fs (update live ino (some ei))) :
    FreesTail fs ei size newSize ↔ CutsTail fs ei size newSize := by
  have hgeo := ho.mounted.layout
  rw [cutsTail_iff hgeo]
  constructor
  · intro h
    have hin := fun hlow (i : Nat) hi hi' => h.inside hgeo hlow (i := i) hi hi'
    obtain ⟨s, hrun, hcut⟩ := trimBlocks_of_inside ho hin
    obtain ⟨s', hrun', htail⟩ := h
    rw [hrun] at hrun'
    cases hrun'
    exact ⟨hin, (tailFreed_iff ho hcut _).mp htail⟩
  · rintro ⟨hin, h⟩
    obtain ⟨s, hrun, hcut⟩ := trimBlocks_of_inside ho hin
    exact ⟨s, hrun, (tailFreed_iff ho hcut _).mpr h⟩

end Tail

/-- File `a` is cut to 1000 bytes, and loses three of its four blocks. -/
theorem freesTail_iff_sample : FreesTail sample.fs sampleFile.ei 4096 1000 := by
  apply (freesTail_iff sampleFile_owned).mpr
  refine ⟨fun h => absurd h (by decide), fun _ => by decide, fun _ m _ _ hN => ?_,
    fun h => absurd h (by decide)⟩
  have hsmall : blocksFor sample.fs.geo 1000 = 1 := by decide
  rw [hsmall, ndirBlocks] at hN
  omega

/-- File `a` after a byte has been written at the beginning of block 524, the first block
of the second second-level pointer block.  Blocks 13 to 15 have become the double indirect
block, that pointer block, and the data block. -/
def sparseFile : WriteResult := write sample.fs sampleFile (fun _ => 1) 1 (524 * 1024) 0

/-- Cut at block 524, the file loses the data block only.  The pointer block serves no
other block, and stays. -/
theorem not_freesTail_of_boundary :
    (∃ L, Owned sampleReserved sparseFile.fs
      (update L 12 (some sparseFile.inode.ei))) ∧
    524 * 1024 < sparseFile.inode.size ∧
    ((Trace.truncateBlocks sparseFile.fs sparseFile.inode.ei sparseFile.inode.size
      ((524 * 1024 : Nat) : Int)).map fun r => r.1.freed) = .ok [15] ∧
    ptr sparseFile.fs sparseFile.inode.ei ⟨dindBlock, [1]⟩ = 14 ∧
    ¬ FreesTail sparseFile.fs sparseFile.inode.ei sparseFile.inode.size (524 * 1024) := by
  have hinv : Inv sampleReserved ⟨sparseFile.fs,
      update (Ext2.load sample 12).mem 12 (some sparseFile.inode)⟩ :=
    (Inv.rules _).write sampleFile_inv sampleFile_mem (fun _ => 1) 1 (524 * 1024)
      0 trivial False.elim
  have hmem : update (Ext2.load sample 12).mem 12 (some sparseFile.inode) 12 =
      some sparseFile.inode := update_self _ _ _
  have hgeo : sparseFile.fs.geo.perBlock = 256 ∧
      blocksFor sparseFile.fs.geo (524 * 1024) = 524 := by
    decide +kernel
  have hrun : ((Trace.truncateBlocks sparseFile.fs sparseFile.inode.ei sparseFile.inode.size
      ((524 * 1024 : Nat) : Int)).map fun r => r.1.freed) = .ok [15] := by decide +kernel
  have hptr : ptr sparseFile.fs sparseFile.inode.ei ⟨dindBlock, [1]⟩ = 14 := by decide +kernel
  refine ⟨⟨_, hinv.owned_self hmem⟩, by decide +kernel, hrun, hptr, ?_⟩
  rintro ⟨s, hok, htail⟩
  rw [hok] at hrun
  have hfreed : s.freed = [15] := Except.ok.inj hrun
  have hfree : 14 ∈ s.freed := by
    apply (htail.freed 14).mpr
    refine ⟨⟨dindBlock, [1]⟩, ?_, ?_, hptr, by decide⟩
    · rw [hgeo.1]
      decide
    · rw [hgeo.1, hgeo.2]
      exact (tail_dind (by decide) (by decide)).mpr (by decide)
  rw [hfreed] at hfree
  exact absurd hfree (by decide)

end Osx64.Ext2
