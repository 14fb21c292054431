import Osx64.Ext2.FileBytes

/-!
# Blocks asked for and blocks to be had

How far an extension of a block map gets can be told beforehand.  `spareBlocks` are the
blocks that `ext2_alloc_block` hands out one after the other, and `missing` are the holes on
the ways to some logical blocks, in the order in which `ext2_bmap_alloc` comes to them.  The
first hole gets the first block, and so on (`Fed`); the loop of `ext2_write` stops inside the
map exactly if there are more holes than blocks (`writeLoop_served`).
-/

namespace Osx64.Ext2

open Function List Nat Work

/-! ## Blocks to be had -/

namespace BitPool

/-- How often a counter of 16 bits can be lowered until it is zero. -/
def chances (free : Nat) : Nat := if free = 0 then 0 else u16 (free + (2 ^ 16 - 1)) + 1

/-- The bits that group `g` has to give: the clear ones, as far as the counter goes. -/
def spareOf (p : BitPool) (bits g : Nat) : List (Nat × Nat) :=
  (((range bits).filter fun i => !p.bit g i).take (chances (p.free g))).map (g, ·)

/-- The bits that the search finds one after the other. -/
def spare (p : BitPool) (groups bits : Nat) : List (Nat × Nat) :=
  (range groups).flatMap (p.spareOf bits)

variable {p : BitPool} {groups bits g i : Nat}

theorem first_eq_find (p : Nat → Bool) (n : Nat) : Scan.first p 0 n = (range n).find? p := by
  cases hfind : (range n).find? p with
  | none =>
    rw [find?_range_eq_none] at hfind
    exact Scan.first_eq_none.mpr fun j _ hj => by simpa using hfind j hj
  | some i =>
    obtain ⟨hi, hlt, hbefore⟩ := find?_range_eq_some.mp hfind
    exact Scan.first_eq_some.mpr ⟨Nat.zero_le i, mem_range.mp hlt, hi,
      fun j _ hj => by simpa using hbefore j hj⟩

theorem find_eq_head (p : BitPool) (groups bits : Nat) :
    p.find groups bits = (p.spare groups bits).head? := by
  rw [find, spare, head?_flatMap]
  congr 1
  funext g
  rw [spareOf, head?_map, head?_take, head?_filter, first_eq_find, chances]
  by_cases hfree : p.free g = 0 <;> simp [hfree]

/-- What is left of the group after its first bit has been taken. -/
theorem spareOf_take (hhead : (p.spareOf bits g).head? = some (g, i)) :
    p.spareOf bits g = (g, i) :: (p.take g i).spareOf bits g := by
  have hfree : p.free g ≠ 0 := by
    intro hzero
    simp [spareOf, chances, hzero] at hhead
  have hlow : chances (p.free g) = chances ((p.take g i).free g) + 1 := by
    have htake : (p.take g i).free g = u16 (p.free g + (2 ^ 16 - 1)) := update_self ..
    have hlt : u16 (p.free g + (2 ^ 16 - 1)) < 2 ^ 16 := mod_lt _ (by decide)
    rw [htake, chances, if_neg hfree]
    generalize u16 (p.free g + (2 ^ 16 - 1)) = free at hlt
    unfold chances u16
    split <;> omega
  rw [spareOf, hlow, head?_map, head?_take, if_neg (succ_ne_zero _)] at hhead
  cases hbits : (range bits).filter fun j => !p.bit g j with
  | nil => simp [hbits] at hhead
  | cons j rest =>
    obtain rfl : j = i := by simpa [hbits] using hhead
    have hrest : (range bits).filter (fun k => !(p.take g j).bit g k) = rest := by
      have hsub : (range bits).filter (fun k => !(p.take g j).bit g k) =
          ((range bits).filter fun k => !p.bit g k).filter (· ≠ j) := by
        rw [filter_filter]
        refine filter_congr fun k _ => ?_
        rw [bit_take]
        by_cases hk : k = j <;> simp [hk]
      have hnodup : (j :: rest).Nodup := hbits ▸ nodup_range.filter _
      rw [hsub, hbits, filter_cons_of_neg (by simp), filter_eq_self]
      intro k hk
      simp only [decide_eq_true_eq]
      rintro rfl
      exact (nodup_cons.mp hnodup).1 hk
    rw [spareOf, spareOf, hlow, hbits, hrest, take_succ_cons, map_cons]

/-- The search takes the first of the spare bits and leaves the others. -/
theorem spare_take (hfind : p.find groups bits = some (g, i)) :
    p.spare groups bits = (g, i) :: (p.take g i).spare groups bits := by
  have hother : ∀ g', g' ≠ g → (p.take g i).spareOf bits g' = p.spareOf bits g' := by
    intro g' hg'
    have hfree : (p.take g i).free g' = p.free g' := update_of_ne hg' _ _
    have hbit : ∀ j, (p.take g i).bit g' j = p.bit g' j := fun j => by simp [bit_take, hg']
    simp only [spareOf, hfree, hbit]
  rw [find_eq_head, spare, head?_flatMap, findSome?_eq_some_iff] at hfind
  obtain ⟨l₁, g', l₂, hrange, hhead, hnone⟩ := hfind
  obtain rfl : g' = g := by
    have hmem := mem_of_mem_head? hhead
    simp only [spareOf, mem_map, Prod.mk.injEq] at hmem
    obtain ⟨-, -, hg, -⟩ := hmem
    exact hg
  have hnodup := hrange ▸ nodup_range (n := groups)
  rw [nodup_append, nodup_cons] at hnodup
  have hkeep : ∀ l : List Nat, g' ∉ l →
      l.flatMap ((p.take g' i).spareOf bits) = l.flatMap (p.spareOf bits) := by
    intro l hl
    refine flatMap_congr fun g hg => hother g ?_
    rintro rfl
    exact hl hg
  have hempty : l₁.flatMap (p.spareOf bits) = [] :=
    flatMap_eq_nil_iff.mpr fun g hg => head?_eq_none_iff.mp (hnone g hg)
  have hleft : g' ∉ l₁ := fun hmem => hnodup.2.2 g' hmem g' mem_cons_self rfl
  rw [spare, spare, hrange, flatMap_append, flatMap_append, flatMap_cons, flatMap_cons,
    hkeep l₁ hleft, hempty, hkeep l₂ hnodup.2.1.1, spareOf_take hhead]
  rfl

end BitPool

/-- The blocks that `ext2_alloc_block` hands out one after the other. -/
def Fs.spareBlocks (fs : Fs) : List Nat :=
  (fs.blocks.spare fs.geo.groupCount (fs.geo.blockSize * 8)).map fun (g, i) =>
    u32 (g * fs.geo.blocksPerGroup + i + fs.geo.firstDataBlock)

section Spare

variable {fs fs' : Fs} {b : Nat}

theorem Fs.spareBlocks_congr (hgeo : fs'.geo = fs.geo) (hblocks : fs'.blocks = fs.blocks) :
    fs'.spareBlocks = fs.spareBlocks := by
  rw [spareBlocks, spareBlocks, hgeo, hblocks]

theorem Fs.spareBlocks_of_none (h : fs.allocBlock = none) : fs.spareBlocks = [] := by
  rw [allocBlock, Option.map_eq_none_iff, BitPool.find_eq_head, head?_eq_none_iff] at h
  rw [spareBlocks, h, map_nil]

theorem Fs.spareBlocks_of_some (h : fs.allocBlock = some (b, fs')) :
    fs.spareBlocks = b :: fs'.spareBlocks := by
  obtain ⟨⟨g, i⟩, hfind, heq⟩ := Option.map_eq_some_iff.mp h
  obtain ⟨rfl, rfl⟩ := Prod.mk.inj heq
  have htake : (fs.takeBlock g i).spareBlocks =
      Fs.spareBlocks { fs with blocks := fs.blocks.take g i } :=
    spareBlocks_congr (putBlock_geo _ _ _) (putBlock_blocks _ _ _)
  rw [htake, spareBlocks, BitPool.spare_take hfind, map_cons]
  rfl

end Spare

/-! ## Blocks asked for -/

/-- The positions from a slot of the inode down a path. -/
def wayDown (slot : Nat) : List Nat → List Pos
  | [] => [⟨slot, []⟩]
  | j :: path => wayDown slot path ++ [⟨slot, j :: path⟩]

/-- The positions on the way to `p`. -/
def Pos.way (p : Pos) : List Pos := wayDown p.slot p.path

/-- The holes on the ways to some logical blocks, in the order in which they are filled. -/
def missingOf (n : Nat) : (Pos → Bool) → List Nat → List Pos
  | _, [] => []
  | hole, l :: ls =>
    let holes := (leafPos n l).way.filter hole
    holes ++ missingOf n (fun p => hole p && !holes.contains p) ls

/-- The blocks that a file lacks on the ways to some logical blocks. -/
def missing (fs : Fs) (ei : Buf) (ls : List Nat) : List Pos :=
  missingOf fs.geo.perBlock (fun p => ptr fs ei p == 0) ls

/-- The logical blocks of a range of positions. -/
def rangeBlocks (geo : Geometry) (pos len : Nat) : List Nat :=
  if len = 0 then []
  else (range' (pos / geo.blockSize)
    ((pos + len - 1) / geo.blockSize + 1 - pos / geo.blockSize)).map u32

/-- Those up to the first one that the map has no place for. -/
def mapped (n : Nat) (ls : List Nat) : List Nat := ls.takeWhile (· < mapBlocks n)

section Missing

variable {n l pos len : Nat} {p q : Pos} {geo : Geometry}

theorem Pos.way_child (p : Pos) (j : Nat) : (p.child j).way = p.way ++ [p.child j] := rfl

theorem Pos.mem_way : q ∈ p.way ↔ OnChain p q := by
  obtain ⟨slot, path⟩ := p
  obtain ⟨slot', path'⟩ := q
  induction path with
  | nil => simp [way, wayDown, OnChain]
  | cons j path ih =>
    have hchild := way_child ⟨slot, path⟩ j
    rw [child] at hchild
    rw [hchild, mem_append, ih, mem_singleton, OnChain, OnChain, Pos.mk.injEq, suffix_cons_iff]
    simp only
    tauto

/-- The holes that a write to `len` bytes from `pos` on comes to, as far as the map goes. -/
def needed (fs : Fs) (ei : Buf) (pos len : Nat) : List Pos :=
  missing fs ei (mapped fs.geo.perBlock (rangeBlocks fs.geo pos len))

/-- The blocks that are missing on the way to the one behind the end of a directory; none if the
map has no place for it. -/
def missingBehind (fs : Fs) (dir : Inode) : List Pos :=
  missing fs dir.ei (mapped fs.geo.perBlock [sizeBlocks fs.geo dir.size])

theorem missingOf_congr {hole hole' : Pos → Bool} {ls : List Nat}
    (hls : ∀ l ∈ ls, l < mapBlocks n) (h : ∀ p : Pos, p.Valid n → hole p = hole' p) :
    missingOf n hole ls = missingOf n hole' ls := by
  induction ls generalizing hole hole' with
  | nil => rfl
  | cons l ls ih =>
    obtain ⟨hl, hls⟩ := forall_mem_cons.mp hls
    have hholes : (leafPos n l).way.filter hole = (leafPos n l).way.filter hole' :=
      filter_congr fun p hp => h p ((Pos.mem_way.mp hp).valid (leafPos_valid hl))
    rw [missingOf, missingOf, hholes]
    congr 1
    exact ih hls fun p hp => by rw [h p hp]

theorem mapped_cons_of_lt (hl : l < mapBlocks n) (ls : List Nat) :
    mapped n (l :: ls) = l :: mapped n ls :=
  takeWhile_cons_of_pos (by exact decide_eq_true hl)

theorem mapped_cons_of_not_lt (hl : ¬l < mapBlocks n) (ls : List Nat) : mapped n (l :: ls) = [] :=
  takeWhile_cons_of_neg (by simpa using hl)

theorem lt_of_mem_mapped {ls : List Nat} (hl : l ∈ mapped n ls) : l < mapBlocks n := by
  induction ls with
  | nil => cases hl
  | cons m ls ih =>
    by_cases hm : m < mapBlocks n
    · rw [mapped_cons_of_lt hm] at hl
      rcases mem_cons.mp hl with rfl | hl
      · exact hm
      · exact ih hl
    · rw [mapped_cons_of_not_lt hm] at hl
      cases hl

theorem mem_missingOf {hole : Pos → Bool} {ls : List Nat} (hp : p ∈ missingOf n hole ls) :
    hole p = true ∧ ∃ l ∈ ls, OnChain (leafPos n l) p := by
  induction ls generalizing hole with
  | nil => cases hp
  | cons l ls ih =>
    rcases mem_append.mp hp with hp | hp
    · rw [mem_filter] at hp
      exact ⟨hp.2, l, mem_cons_self, Pos.mem_way.mp hp.1⟩
    · obtain ⟨hhole, m, hm, hchain⟩ := ih hp
      exact ⟨(Bool.and_eq_true_iff.mp hhole).1, m, mem_cons_of_mem l hm, hchain⟩

theorem mem_rangeBlocks {geo : Geometry} {pos : Nat} (hl : l ∈ rangeBlocks geo pos len) :
    ∃ q, pos ≤ q ∧ q < pos + len ∧ blockAt geo q = l := by
  rw [rangeBlocks] at hl
  split at hl
  · cases hl
  · obtain ⟨i, hi, rfl⟩ := mem_map.mp hl
    rw [mem_range'_1] at hi
    have hbs := blockSize_pos geo
    -- the position is the first one of block `i`, or `pos` if that is in the middle of it
    have hlast : i * geo.blockSize ≤ pos + len - 1 :=
      (Nat.le_div_iff_mul_le hbs).mp (by omega)
    by_cases hfirst : pos ≤ i * geo.blockSize
    · refine ⟨i * geo.blockSize, hfirst, by omega, ?_⟩
      rw [blockAt, Nat.mul_div_cancel _ hbs]
    · refine ⟨pos, le_rfl, by omega, ?_⟩
      have hdiv : i ≤ pos / geo.blockSize := (Nat.le_div_iff_mul_le hbs).mpr (by omega)
      rw [blockAt, Nat.le_antisymm hi.1 hdiv]

/-- The first block of a range is that of its first position. -/
theorem rangeBlocks_succ (geo : Geometry) (pos : Nat) (hlen : len ≠ 0) :
    let step := min (geo.blockSize - pos % geo.blockSize) len
    rangeBlocks geo pos len = blockAt geo pos :: rangeBlocks geo (pos + step) (len - step) := by
  intro step
  have hbs := blockSize_pos geo
  have hmod := mod_lt pos hbs
  have hdiv := div_add_mod pos geo.blockSize
  rw [rangeBlocks, if_neg hlen, rangeBlocks, blockAt]
  by_cases hend : len ≤ geo.blockSize - pos % geo.blockSize
  · have hstep : step = len := Nat.min_eq_right hend
    have hlast : (pos + len - 1) / geo.blockSize = pos / geo.blockSize := by
      have hin := @div_of_lt_block geo pos (len - 1) (by omega)
      rw [← hin.1]
      congr 1
      omega
    simp [hstep, hlast]
  · have hstep : step = geo.blockSize - pos % geo.blockSize := Nat.min_eq_left (by omega)
    have hnext : (pos + step) / geo.blockSize = pos / geo.blockSize + 1 := by
      rw [show pos + step = geo.blockSize * (pos / geo.blockSize + 1) by rw [mul_succ]; omega,
        Nat.mul_div_cancel_left _ hbs]
    have hle : pos / geo.blockSize + 1 ≤ (pos + len - 1) / geo.blockSize := by
      rw [← hnext]
      exact Nat.div_le_div_right (by omega)
    rw [if_neg (by omega), hnext, show pos + step + (len - step) - 1 = pos + len - 1 by omega,
      show (pos + len - 1) / geo.blockSize + 1 - pos / geo.blockSize =
        (pos + len - 1) / geo.blockSize + 1 - (pos / geo.blockSize + 1) + 1 by omega,
      range'_succ, map_cons]

end Missing

/-! ## Who gets what -/

/-- The holes `ps` have been filled with the first spare blocks, in this order, and no other
pointer has changed. -/
structure Fed (w : Work) (ps : List Pos) (w' : Work) : Prop where
  geo : w'.fs.geo = w.fs.geo
  spare : w'.fs.spareBlocks = w.fs.spareBlocks.drop ps.length
  new : ∀ (k : Nat) (p : Pos), ps[k]? = some p → w.fs.spareBlocks[k]? = some (ptr w'.fs w'.ei p)
  old : ∀ p : Pos, p.Valid w.fs.geo.perBlock → p ∉ ps → ptr w'.fs w'.ei p = ptr w.fs w.ei p

/-- What a function that fills the holes `ps` comes to. -/
structure Served (w : Work) (ps : List Pos) (r : Work × Option Nat) : Prop where
  isSome_iff : r.2.isSome = true ↔ ps.length ≤ w.fs.spareBlocks.length
  fed : r.2.isSome = true → Fed w ps r.1

section Served

variable {reserved : Nat → Prop} {live : Nat → Option Buf} {ino : Nat} {w w₁ w₂ : Work}
  {ps ps' : List Pos} {p : Pos} {l b : Nat}

theorem Fed.refl (w : Work) : Fed w [] w :=
  ⟨rfl, rfl, fun k p hp => by simp at hp, fun _ _ _ => rfl⟩

theorem Fed.trans (h : Fed w ps w₁) (h' : Fed w₁ ps' w₂) (hdisj : ∀ p ∈ ps, p ∉ ps')
    (hvalid : ∀ p ∈ ps, p.Valid w.fs.geo.perBlock) : Fed w (ps ++ ps') w₂ := by
  refine ⟨h'.geo.trans h.geo, ?_, fun k p hk => ?_, fun p hp hnot => ?_⟩
  · rw [h'.spare, h.spare, drop_drop, length_append]
  · by_cases hlt : k < ps.length
    · rw [getElem?_append_left hlt] at hk
      have hmem := mem_of_getElem? hk
      rw [h'.old p (h.geo.symm ▸ hvalid p hmem) (hdisj p hmem)]
      exact h.new k p hk
    · rw [getElem?_append_right (Nat.le_of_not_lt hlt)] at hk
      have hnew := h'.new _ p hk
      rwa [h.spare, getElem?_drop, Nat.add_sub_cancel' (Nat.le_of_not_lt hlt)] at hnew
  · rw [mem_append, not_or] at hnot
    exact (h'.old p (h.geo.symm ▸ hp) hnot.2).trans (h.old p hp hnot.1)

/-- A block that is there already is not asked for. -/
theorem served_present (w : Work) (b : Nat) : Served w [] (w, some b) :=
  ⟨by simp, fun _ => .refl w⟩

theorem served_starved {w' : Work} (hnone : w.fs.allocBlock = none) :
    Served w [p] (w', none) := by
  refine ⟨?_, fun h => by cases h⟩
  simp [Fs.spareBlocks_of_none hnone]

/-- One hole has been filled. -/
theorem served_taken {fs : Fs} {r : Work × Option Nat}
    (hens : Ensured reserved live ino (· = p) p w r) (halloc : w.fs.allocBlock = some (b, fs))
    (hresult : r.2 = some b) (hgeo : fs.geo = w.fs.geo) (hblocks : r.1.fs.blocks = fs.blocks) :
    Served w [p] r := by
  have hspare := Fs.spareBlocks_of_some halloc
  refine ⟨by simp [hresult, hspare], fun _ => ⟨hens.grew.geo, ?_, fun k q hk => ?_,
    fun q hq hne => hens.grew.only q hq (by simpa using hne)⟩⟩
  · rw [hspare]
    exact Fs.spareBlocks_congr (hens.grew.geo.trans hgeo.symm) hblocks
  · obtain ⟨rfl, rfl⟩ : k = 0 ∧ p = q := by
      cases k with
      | zero => exact ⟨rfl, by simpa using hk⟩
      | succ k => simp at hk
    rw [hspare, (hens.result b hresult).2]
    rfl

section

variable (h : Owned reserved w.fs (update live ino (some w.ei)))
include h

theorem Work.ensureSlot_served {slot : Nat} {zero : Bool} (hslot : slot < 14)
    (hzero : 0 < slotLevel slot → zero = true) :
    Served w ([⟨slot, []⟩].filter fun p => ptr w.fs w.ei p == 0) (w.ensureSlot slot zero) := by
  have hens := ensureSlot_spec (S := (· = ⟨slot, []⟩)) h rfl hslot hzero
  unfold ensureSlot at hens ⊢
  by_cases hhole : iBlock w.ei slot = 0
  · simp only [hhole, if_true, filter_cons, ptr_root, beq_self_eq_true, filter_nil] at hens ⊢
    cases halloc : w.fs.allocBlock with
    | none => exact served_starved halloc
    | some r =>
      obtain ⟨b, fs⟩ := r
      simp only [halloc] at hens ⊢
      exact served_taken hens halloc rfl (Fs.allocBlock_spec h.mounted halloc).frame.geo
        (blocks_zeroed zero)
  · simp only [hhole, if_false, filter_cons, ptr_root, beq_iff_eq, filter_nil]
    exact served_present _ _

theorem Work.ensureEntry_served {q : Pos} {j parent : Nat} {zero : Bool}
    (hq : q.Valid w.fs.geo.perBlock) (hin : q.Inner) (hparent : ptr w.fs w.ei q = parent)
    (hne : parent ≠ 0) (hj : j < w.fs.geo.perBlock) (hzero : (q.child j).Inner → zero = true) :
    Served w ([q.child j].filter fun p => ptr w.fs w.ei p == 0) (w.ensureEntry parent j zero) := by
  have hens := ensureEntry_spec (S := (· = q.child j)) h rfl hq hin hparent hne hj hzero
  have hdata : DataUsed reserved w.fs parent := hparent ▸ h.data hq (hparent ▸ hne)
  have hchild : ptr w.fs w.ei (q.child j) = (w.fs.disk parent).get32 (4 * j) := by
    rw [ptr_child_of_ne (hparent ▸ hne), hparent]
  unfold ensureEntry at hens ⊢
  rw [Fs.readBlock_eq h.mounted.layout hdata.lt] at hens ⊢
  by_cases hhole : (w.fs.disk parent).get32 (4 * j) = 0
  · simp only [hhole, if_true, filter_cons, hchild, beq_self_eq_true, filter_nil] at hens ⊢
    cases halloc : w.fs.allocBlock with
    | none => exact served_starved halloc
    | some r =>
      obtain ⟨b, fs⟩ := r
      simp only [halloc] at hens ⊢
      exact served_taken hens halloc rfl (Fs.allocBlock_spec h.mounted halloc).frame.geo
        ((Fs.putBlock_blocks _ _ _).trans (blocks_zeroed zero))
  · simp only [hhole, if_false, filter_cons, hchild, beq_iff_eq, filter_nil]
    exact served_present _ _

/-- `ext2_bmap_alloc` fills the holes on the way to a logical block, if there are enough blocks. -/
theorem Work.bmapAlloc_served (hl : l < mapBlocks w.fs.geo.perBlock) :
    Served w ((leafPos w.fs.geo.perBlock l).way.filter fun p => ptr w.fs w.ei p == 0)
      (w.bmapAlloc l) := by
  have hboth : Ensured reserved live ino (fun _ => True) (leafPos w.fs.geo.perBlock l) w
      (w.bmapAlloc l) ∧ Served w
        ((leafPos w.fs.geo.perBlock l).way.filter fun p => ptr w.fs w.ei p == 0)
          (w.bmapAlloc l) := by
    apply bmapAlloc_rec (R := fun p r => Ensured reserved live ino (fun _ => True) p w r ∧
      Served w (p.way.filter fun p => ptr w.fs w.ei p == 0) r) hl
    · intro slot zero hslot hzero _
      exact ⟨ensureSlot_spec h trivial hslot hzero.mpr, ensureSlot_served h hslot hzero.mpr⟩
    · intro q j zero r ⟨hens, hserved⟩ hq hin hj hzero _
      have hgeo := hens.grew.geo
      have hq' : q.Valid r.1.fs.geo.perBlock := hgeo ▸ hq
      refine ⟨hens.andThen fun b hb0 hb => ensureEntry_spec hens.owned trivial hq' hin hb hb0
        (hgeo ▸ hj) hzero.mpr, ?_⟩
      have hnot : q.child j ∉ q.way := fun hmem => by
        have hle := (Pos.mem_way.mp hmem).2.length_le
        simp [Pos.child] at hle
      rw [Pos.way_child, filter_append]
      obtain ⟨w₁, result⟩ := r
      cases result with
      | none =>
        refine ⟨?_, fun hsome => by cases hsome⟩
        have hfew := hserved.isSome_iff
        simp only [andThen, Option.isSome_none, Bool.false_eq_true, false_iff,
          length_append] at hfew ⊢
        omega
      | some b =>
        obtain ⟨hb0, hb⟩ := hens.result b rfl
        have hfed := hserved.fed rfl
        have hsame : ptr w₁.fs w₁.ei (q.child j) = ptr w.fs w.ei (q.child j) :=
          hfed.old _ (hq.child hin hj) fun hmem => hnot (mem_of_mem_filter hmem)
        have hnext := ensureEntry_served hens.owned hq' hin hb hb0 (hgeo ▸ hj) hzero.mpr
        simp only [filter_cons, filter_nil, hsame] at hnext
        have hspare := hfed.spare
        have hle := hserved.isSome_iff.mp rfl
        simp only [andThen, filter_cons, filter_nil]
        refine ⟨?_, fun hsome => hfed.trans (hnext.fed hsome) ?_ ?_⟩
        · rw [hnext.isSome_iff, hspare, length_drop, length_append]
          omega
        · intro p hp hmem
          have hpq : p = q.child j := by
            split at hmem
            · exact mem_singleton.mp hmem
            · cases hmem
          exact hnot (hpq ▸ mem_of_mem_filter hp)
        · intro p hp
          exact (Pos.mem_way.mp (mem_of_mem_filter hp)).valid hq
  exact hboth.2

end

/-- Writing the data of a leaf changes neither pointers nor bitmap. -/
theorem Fed.writeLeaf (h : Fed w ps w₁) (ho : Owned reserved w₁.fs (update live ino (some w₁.ei)))
    (hp : p.Valid w₁.fs.geo.perBlock) (hleaf : p.Leaf) (buf : Buf)
    (hvalid : ∀ p ∈ ps, p.Valid w.fs.geo.perBlock) :
    Fed w ps { w₁ with
      fs := { w₁.fs with disk := update w₁.fs.disk (ptr w₁.fs w₁.ei p) buf } } := by
  have hptr := fun (q : Pos) (hq : q.Valid w.fs.geo.perBlock) =>
    ptr_writeLeaf ho hp hleaf buf (h.geo.symm ▸ hq : q.Valid w₁.fs.geo.perBlock)
  refine ⟨h.geo, h.spare, fun k q hk => ?_, fun q hq hnot => (hptr q hq).trans (h.old q hq hnot)⟩
  rw [h.new k q hk]
  exact congrArg some (hptr q (hvalid q (mem_of_getElem? hk))).symm

/-- One round of `ext2_write` fills the holes on the way to its block, or fails for want of spare
blocks. -/
theorem writeChunk_served (data : Buf) (offset len done : Nat)
    (ho : Owned reserved w.fs (update live ino (some w.ei)))
    (hl : l < mapBlocks w.fs.geo.perBlock) :
    let r := writeChunk data w l offset len done
    let holes := (leafPos w.fs.geo.perBlock l).way.filter fun p => ptr w.fs w.ei p == 0
    (r.2 = true ↔ holes.length ≤ w.fs.spareBlocks.length) ∧ (r.2 = true → Fed w holes r.1) := by
  dsimp only
  have hserved := bmapAlloc_served ho hl
  have hens := bmapAlloc_spec ho l
  rw [writeChunk_eq data offset len done ho l]
  generalize w.bmapAlloc l = r at hserved hens
  obtain ⟨w₁, result⟩ := r
  have hsome := hserved.isSome_iff
  cases result with
  | none => exact ⟨hsome, fun h => by cases h⟩
  | some b =>
    have hb : ptr w₁.fs w₁.ei (leafPos w.fs.geo.perBlock l) = b := (hens.result b rfl).2
    subst hb
    refine ⟨hsome, fun _ => (hserved.fed rfl).writeLeaf hens.owned ?_ (leafPos_leaf _ _) _ ?_⟩
    · exact hens.grew.geo.symm ▸ leafPos_valid hl
    · intro p hp
      exact (Pos.mem_way.mp (mem_of_mem_filter hp)).valid (leafPos_valid hl)

/-- After a round the holes are those from before, without the ones that it filled. -/
theorem Fed.hole_eq (hfed : Fed w ps w₁)
    (hleaf : ptr w₁.fs w₁.ei (leafPos w.fs.geo.perBlock l) ≠ 0)
    (hps : ∀ p ∈ ps, OnChain (leafPos w.fs.geo.perBlock l) p) (hp : p.Valid w.fs.geo.perBlock) :
    (ptr w₁.fs w₁.ei p == 0) = ((ptr w.fs w.ei p == 0) && !ps.contains p) := by
  by_cases hmem : p ∈ ps
  · have hne := (hps p hmem).ptr_ne hleaf
    simp [hne, hmem]
  · rw [hfed.old p hp hmem]
    simp [hmem]

/-- The loop of `ext2_write` stops inside the map exactly if the holes on the ways to the blocks
of its range are more than the spare blocks, and fills them if it comes to its end. -/
theorem writeLoop_served (data : Buf) {pos count done fuel : Nat}
    (ho : Owned reserved w.fs (update live ino (some w.ei))) (hfuel : count ≤ fuel) :
    let r := writeLoop data w pos count done fuel
    let ps := needed w.fs w.ei pos count
    (r.2.2 = false ∧ InMap w.fs.geo r.2.1 ↔ w.fs.spareBlocks.length < ps.length) ∧
      (r.2.2 = true → Fed w ps r.1) := by
  induction fuel generalizing w pos count done with
  | zero =>
    obtain rfl : count = 0 := le_zero.mp hfuel
    exact ⟨by simp [writeLoop, needed, rangeBlocks, mapped, missing, missingOf], fun _ => .refl w⟩
  | succ fuel ih =>
    by_cases hcount : count = 0
    · subst hcount
      exact ⟨by simp [writeLoop, needed, rangeBlocks, mapped, missing, missingOf], fun _ => .refl w⟩
    rw [writeLoop_succ data w pos hcount, needed, rangeBlocks_succ w.fs.geo pos hcount]
    dsimp only
    have hmod := mod_lt pos (blockSize_pos w.fs.geo)
    generalize hstep : min (w.fs.geo.blockSize - pos % w.fs.geo.blockSize) count = step
    rw [show u32 (pos / w.fs.geo.blockSize) = blockAt w.fs.geo pos from rfl]
    by_cases hmap : InMap w.fs.geo pos
    · have hchunk := writeChunk_spec data (pos % w.fs.geo.blockSize) step done ho
        (blockAt w.fs.geo pos)
      have hserved := writeChunk_served data (pos % w.fs.geo.blockSize) step done ho hmap
      rw [mapped_cons_of_lt hmap, missing, missingOf, length_append]
      generalize hholes : (leafPos w.fs.geo.perBlock (blockAt w.fs.geo pos)).way.filter
        (fun p => ptr w.fs w.ei p == 0) = holes at hserved
      have hway : ∀ p ∈ holes, OnChain (leafPos w.fs.geo.perBlock (blockAt w.fs.geo pos)) p := by
        intro p hp
        rw [← hholes] at hp
        exact Pos.mem_way.mp (mem_of_mem_filter hp)
      generalize writeChunk data w (blockAt w.fs.geo pos) _ step done = r at hchunk hserved
      obtain ⟨w₁, ok⟩ := r
      obtain ⟨hok, hfed⟩ := hserved
      cases ok with
      | false =>
        have hlt := (not_congr hok).mp Bool.false_ne_true
        exact ⟨iff_of_true ⟨rfl, hmap⟩ (by omega), fun h => by cases h⟩
      | true =>
        replace hfed := hfed rfl
        have hle := hok.mp rfl
        have hleaf := (hchunk.written rfl).2.1
        have hrest := @ih w₁ (pos + step) (count - step) (done + step) hchunk.owned (by omega)
        dsimp only at hrest
        -- what the rest of the loop misses are the holes that this round has not filled
        rw [needed, missing, hfed.geo, hfed.spare, length_drop,
          missingOf_congr (fun _ => lt_of_mem_mapped) fun p => hfed.hole_eq hleaf hway] at hrest
        refine ⟨hrest.1.trans (by omega), fun hend => hfed.trans (hrest.2 hend) ?_ ?_⟩
        · intro p hp hmem
          have hnot := (mem_missingOf hmem).1
          simp [hp] at hnot
        · exact fun p hp => (hway p hp).valid (leafPos_valid hmap)
    · have hchunk : writeChunk data w (blockAt w.fs.geo pos) (pos % w.fs.geo.blockSize) step done =
          (w, false) := by
        rw [writeChunk_eq data _ step done ho, bmapAlloc_beyond (Nat.le_of_not_lt hmap)]
        rfl
      rw [hchunk, mapped_cons_of_not_lt hmap]
      exact ⟨by simp [hmap, missing, missingOf], fun h => by cases h⟩

end Served

end Osx64.Ext2
