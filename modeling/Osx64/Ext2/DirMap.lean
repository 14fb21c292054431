import Osx64.Ext2.Data
import Osx64.Ext2.DirChain
import Osx64.Ext2.OwnedRun

/-!
# A directory is a finite map

The entries of a well-formed directory, block after block, form an association list that
`ext2_lookup` reads.  `ext2_dir_add_entry` puts a new entry somewhere into this list and
`ext2_dir_remove_entry` takes one out; the blocks stay exact chains.

This needs that the length of a new name fits the eight bits of `name_len`.  For a longer
name the new record carries the length modulo 256, and the name is not found again.  The
blocks have 1, 2 or 4 KiB: a block of 64 KiB is more than the 16 bits of `rec_len` can say.
-/

namespace Osx64.Ext2

open Function Assoc List Option Nat Ext2.Fs Buf

/-! ## Entries -/

/-- The offsets of the records of a block. -/
def offsets (bs : Nat) (b : Buf) (o : Nat) : Nat → List Nat
  | 0 => []
  | fuel + 1 => if bs ≤ o then [] else o :: offsets bs b (o + deRecLen b o) fuel

/-- The entries of a block. -/
def blockEntries (bs : Nat) (b : Buf) : List (List UInt8 × Nat) := entriesAt b (offsets bs b 0 bs)

/-- The entries of the logical block `l`; a hole has none. -/
def leafEntries (fs : Fs) (ei : Buf) (l : Nat) : List (List UInt8 × Nat) :=
  ((leafData fs ei l).map (blockEntries fs.geo.blockSize)).getD []

/-- The entries of a directory. -/
def dirEntries (fs : Fs) (dir : Inode) : List (List UInt8 × Nat) :=
  (dirBlocks fs dir).flatMap (leafEntries fs dir.ei)

/-- A directory of a volume with blocks of 1, 2 or 4 KiB (`Layout`) whose blocks are owned: its
blocks are exact chains of records, and no name occurs twice. -/
structure DirOk (reserved : Nat → Prop) (L : Nat → Option Buf) (fs : Fs) (dir : Inode) :
    Prop where
  owned : Owned reserved fs L
  valid : ValidIno fs.geo dir.ino
  live : L dir.ino = some dir.ei
  size_le : dir.size ≤ mapBlocks fs.geo.perBlock * fs.geo.blockSize
  chain : ∀ l < sizeBlocks fs.geo dir.size, ∀ b, leafData fs dir.ei l = some b →
    ∃ os, Chain b 0 os fs.geo.blockSize
  nodup : (keys (dirEntries fs dir)).Nodup

section Entries

variable {reserved : Nat → Prop} {L : Nat → Option Buf} {fs fs' : Fs} {dir : Inode} {b : Buf}
  {bs o l : Nat} {os : List Nat} {name : List UInt8}

theorem offsets_eq {fuel : Nat} (h : Chain b o os bs) (hfuel : bs ≤ o + fuel) :
    offsets bs b o fuel = os := by
  induction fuel generalizing o os with
  | zero =>
    cases h with
    | nil => rfl
    | cons hrec htail =>
      have hle := htail.le
      have hroom := hrec.room
      omega
  | succ fuel ih =>
    cases h with
    | nil => rw [offsets, if_pos le_rfl]
    | cons hrec htail =>
      have hle := htail.le
      have hroom := hrec.room
      rw [offsets, if_neg (by omega), ih htail (by omega)]

theorem blockEntries_eq (h : Chain b 0 os bs) : blockEntries bs b = entriesAt b os := by
  rw [blockEntries, offsets_eq h (by omega)]

theorem sizeBlocks_le (hgeo : Layout fs.geo reserved) {size n : Nat}
    (h : size ≤ n * fs.geo.blockSize) : sizeBlocks fs.geo size ≤ n := by
  have hbs := hgeo.blockSize_pos
  unfold sizeBlocks u32 u64
  refine (mod_le _ _).trans ?_
  calc (size + fs.geo.blockSize - 1) % 2 ^ 64 / fs.geo.blockSize
      ≤ (size + fs.geo.blockSize - 1) / fs.geo.blockSize := Nat.div_le_div_right (mod_le _ _)
    _ ≤ n := by
      rw [div_le_iff_le_mul_add_pred hbs, mul_comm]
      omega

section

variable (h : DirOk reserved L fs dir)
include h

theorem DirOk.lt (hl : l < sizeBlocks fs.geo dir.size) :
    l < mapBlocks fs.geo.perBlock :=
  hl.trans_le (sizeBlocks_le h.owned.mounted.layout h.size_le)

/-- What the search loop finds at one logical block of a directory. -/
theorem DirOk.scanDir_cons {α : Type}
    {visit : Buf → Option Nat → Nat → Except Fault (Option α)} {rest : List Nat}
    (hl : l < sizeBlocks fs.geo dir.size) :
    scanDir fs dir.ei visit (l :: rest) =
      match leafData fs dir.ei l with
      | none => scanDir fs dir.ei visit rest
      | some b =>
        match scanBlock fs.geo.blockSize b (visit b) none 0 fs.geo.blockSize with
        | .error e => .error e
        | .ok (some a) => .ok (.here (bmap fs dir.ei l, a))
        | .ok none => scanDir fs dir.ei visit rest := by
  have hlt := h.lt hl
  have hbmap := h.owned.bmap_eq h.live hlt
  rw [scanDir]
  by_cases h0 : bmap fs dir.ei l = 0
  · rw [if_pos h0, leafData_eq_none.mpr (hbmap ▸ h0)]
  · have hne : ptr fs dir.ei (leafPos fs.geo.perBlock l) ≠ 0 := hbmap ▸ h0
    have hdata := h.owned.dataUsed h.live (leafPos_valid hlt) hne
    have hread := readBlock_eq h.owned.mounted.layout hdata.lt
    rw [if_neg h0, leafData, if_neg hne]
    rw [← hbmap] at hread ⊢
    rewrite [hread]
    rfl

theorem DirOk.scan_matchName (blocks : List Nat)
    (hblocks : ∀ l ∈ blocks, l < sizeBlocks fs.geo dir.size) :
    (scanDir fs dir.ei (matchName fs.geo.blockSize name) blocks).map (fun
      | .here (_, ino) => some ino
      | .missing => none
      | .ioError => none) =
      .ok ((blocks.flatMap (leafEntries fs dir.ei)).lookup name) := by
  induction blocks with
  | nil => rfl
  | cons l rest ih =>
    have hl := hblocks l mem_cons_self
    have hrest := ih fun k hk => hblocks k (mem_cons_of_mem l hk)
    rw [h.scanDir_cons hl, flatMap_cons, lookup_append, leafEntries]
    cases hdata : leafData fs dir.ei l with
    | none => exact hrest
    | some b =>
      obtain ⟨os, hchain⟩ := h.chain l hl b hdata
      dsimp only [map_some, getD_some]
      rw [scanBlock_eq hchain (by omega), scanList_matchName hchain, blockEntries_eq hchain]
      cases (entriesAt b os).lookup name with
      | none => exact hrest
      | some ino => rfl

/-- `ext2_lookup` reads the association list of the entries. -/
theorem DirOk.lookupIno_eq (name : List UInt8) :
    lookupIno fs dir name = .ok ((dirEntries fs dir).lookup name) :=
  h.scan_matchName _ fun _ hl => mem_range.mp hl

end

end Entries

/-! ## One block changes -/

section Change

variable {reserved : Nat → Prop} {L : Nat → Option Buf} {fs fs' : Fs} {dir dir' : Inode}
  {b b' : Buf} {l ino type : Nat} {os : List Nat} {name : List UInt8}

/-- What holds of a directory after a change, apart from the names being different. -/
structure DirShape (reserved : Nat → Prop) (L : Nat → Option Buf) (fs : Fs) (dir : Inode) :
    Prop where
  owned : Owned reserved fs L
  valid : ValidIno fs.geo dir.ino
  live : L dir.ino = some dir.ei
  size_le : dir.size ≤ mapBlocks fs.geo.perBlock * fs.geo.blockSize
  chain : ∀ l < sizeBlocks fs.geo dir.size, ∀ b, leafData fs dir.ei l = some b →
    ∃ os, Chain b 0 os fs.geo.blockSize

theorem DirShape.dirOk (h : DirShape reserved L fs dir)
    (hnodup : (keys (dirEntries fs dir)).Nodup) : DirOk reserved L fs dir :=
  { h with nodup := hnodup }

section

variable (h : DirOk reserved L fs dir)
include h

/-- One block of a directory is exchanged for another chain of records. -/
theorem DirOk.exchange (hl : l < sizeBlocks fs.geo dir.size)
    (hb : leafData fs dir.ei l = some b) (hchain : Chain b' 0 os fs.geo.blockSize)
    (hgeo : fs'.geo = fs.geo) (howned : Owned reserved fs' L)
    (hdata : ∀ k < mapBlocks fs.geo.perBlock,
      leafData fs' dir.ei k = if k = l then some b' else leafData fs dir.ei k) :
    DirShape reserved L fs' dir ∧ ∃ front back,
      dirEntries fs dir = front ++ blockEntries fs.geo.blockSize b ++ back ∧
      dirEntries fs' dir = front ++ entriesAt b' os ++ back := by
  have hleaf : ∀ k < sizeBlocks fs.geo dir.size,
      leafData fs' dir.ei k = if k = l then some b' else leafData fs dir.ei k :=
    fun k hk => hdata k (h.lt hk)
  refine ⟨⟨howned, hgeo ▸ h.valid, h.live, by rw [hgeo]; exact h.size_le, fun k hk c hc => ?_⟩, ?_⟩
  · rw [hgeo] at hk ⊢
    rw [hleaf k hk] at hc
    by_cases hkl : k = l
    · rw [if_pos hkl, some_inj] at hc
      exact ⟨os, hc ▸ hchain⟩
    · rw [if_neg hkl] at hc
      exact h.chain k hk c hc
  · have hmem : l ∈ dirBlocks fs dir := mem_range.mpr hl
    obtain ⟨s, t, hsplit⟩ := append_of_mem hmem
    have hnodup : (s ++ l :: t).Nodup := hsplit ▸ nodup_range
    rw [nodup_middle, nodup_cons] at hnodup
    have hother : ∀ k ∈ s ++ t, leafEntries fs' dir.ei k = leafEntries fs dir.ei k := by
      intro k hk
      have hkl : k ≠ l := fun heq => hnodup.1 (heq ▸ hk)
      have hk' : k ∈ dirBlocks fs dir := by
        rw [hsplit]
        rcases mem_append.mp hk with hks | hkt
        · exact mem_append_left _ hks
        · exact mem_append_right _ (mem_cons_of_mem l hkt)
      rw [leafEntries, leafEntries, hleaf k (mem_range.mp hk'), if_neg hkl, hgeo]
    have hblocks : dirBlocks fs' dir = dirBlocks fs dir := by rw [dirBlocks, dirBlocks, hgeo]
    refine ⟨s.flatMap (leafEntries fs dir.ei), t.flatMap (leafEntries fs dir.ei), ?_, ?_⟩
    · rw [dirEntries, hsplit, flatMap_append, flatMap_cons, leafEntries, hb,
        append_assoc]
      rfl
    · have hself : leafEntries fs' dir.ei l = entriesAt b' os := by
        rw [leafEntries, hleaf l hl, if_pos rfl, hgeo, map_some, getD_some,
          blockEntries_eq hchain]
      rw [dirEntries, hblocks, hsplit, flatMap_append, flatMap_cons, hself,
        append_assoc,
        flatMap_congr fun k hk => hother k (mem_append_left t hk),
        flatMap_congr fun k hk => hother k (mem_append_right s hk)]

/-- A search of the blocks of a directory has found a record: the block it is in, as a
chain, and the record itself. -/
theorem DirOk.found {α : Type}
    {visit : Buf → Option Nat → Nat → Except Fault (Option α)} {block : Nat} {a : α}
    (hscan : scanDir fs dir.ei visit (dirBlocks fs dir) = .ok (.here (block, a))) :
    ∃ l b pre o post, l < sizeBlocks fs.geo dir.size ∧ leafData fs dir.ei l = some b ∧
      ptr fs dir.ei (leafPos fs.geo.perBlock l) = block ∧ block ≠ 0 ∧
      Chain b 0 (pre ++ o :: post) fs.geo.blockSize ∧ visit b pre.getLast? o = .ok (some a) := by
  obtain ⟨l, hmem, rfl, hne, b, hread, hblock⟩ := scanDir_here hscan
  have hl : l < sizeBlocks fs.geo dir.size := mem_range.mp hmem
  have hptr := (h.owned.bmap_eq h.live (h.lt hl)).symm
  have hdata := h.owned.dataUsed h.live (leafPos_valid (h.lt hl)) (hptr ▸ hne)
  rw [hptr] at hdata
  rw [readBlock_eq h.owned.mounted.layout hdata.lt, some_inj] at hread
  have hleaf : leafData fs dir.ei l = some b := by
    rw [leafData, hptr, if_neg hne, hread]
  obtain ⟨os, hchain⟩ := h.chain l hl b hleaf
  rw [scanBlock_eq hchain (by omega)] at hblock
  obtain ⟨pre, o, post, rfl, hvisit⟩ := scanList_eq_some hblock
  rw [or_none] at hvisit
  exact ⟨l, b, pre, o, post, hl, hleaf, hptr, hne, hchain, hvisit⟩

/-- Writing back the block a search has found. -/
theorem DirOk.writeFound (hl : l < sizeBlocks fs.geo dir.size)
    {block : Nat} (hptr : ptr fs dir.ei (leafPos fs.geo.perBlock l) = block) (hne : block ≠ 0)
    (hwrite : fs.writeBlock block b' = some fs') :
    fs'.geo = fs.geo ∧ Owned reserved fs' L ∧ ∀ k < mapBlocks fs.geo.perBlock,
      leafData fs' dir.ei k = if k = l then some b' else leafData fs dir.ei k := by
  have hself : update L dir.ino (some dir.ei) = L := by
    rw [← h.live, update_eq_self]
  have howned : Owned reserved fs (update L dir.ino (some dir.ei)) := by
    rw [hself]
    exact h.owned
  have hvalid := leafPos_valid (h.lt hl)
  have hdata := h.owned.dataUsed h.live hvalid (hptr ▸ hne)
  rw [hptr] at hdata
  rw [writeBlock_eq h.owned.mounted.layout hdata.lt, some_inj] at hwrite
  obtain ⟨hgrew, howned'⟩ := writeLeaf_spec (S := fun _ => True) (D := fun _ => True) howned hvalid
    (leafPos_leaf _ l) (hptr ▸ hne) trivial b' (hptr ▸ hwrite)
  refine ⟨hgrew.geo, hself ▸ howned', fun k hk => ?_⟩
  exact leafData_writeLeaf howned (h.lt hl) hptr hne hwrite hk

end

end Change

/-! ## Adding an entry -/

section Add

variable {reserved : Nat → Prop} {L : Nat → Option Buf} {fs fs' : Fs} {dir dir' : Inode}
  {l ino type : Nat} {name : List UInt8}

/-- The two ways in which `ext2_dir_add_entry` succeeds. -/
theorem dirAddEntry_cases (h : dirAddEntry fs dir name ino type = .ok (fs', dir', true)) :
    (dir' = dir ∧ ∃ block b, scanDir fs dir.ei (placeEntry fs.geo.blockSize ino type name)
        (dirBlocks fs dir) = .ok (.here (block, b)) ∧ fs.writeBlock block b = some fs') ∨
      ∃ w b fs₁, (⟨fs, dir.ei, false⟩ : Work).bmapAlloc (sizeBlocks fs.geo dir.size) = (w, some b) ∧
        w.fs.writeBlock b (newDirBlock fs.geo.blockSize ino type name) = some fs₁ ∧
        fs' = fs₁.putInode dir.ino dir'.ei ∧ dir'.ino = dir.ino ∧
        dir'.size = u64 (dir.size + fs.geo.blockSize) ∧ SameSlots w.ei dir'.ei := by
  unfold dirAddEntry at h
  dsimp only at h
  split at h
  · cases h
  · next block b hscan =>
    split at h
    · cases h
    · next fs₁ hwrite =>
      cases h
      exact .inl ⟨rfl, block, b, hscan, hwrite⟩
  · cases h
  · cases hmap : (⟨fs, dir.ei, false⟩ : Work).bmapAlloc (sizeBlocks fs.geo dir.size) with
    | mk w result =>
      rw [hmap] at h
      dsimp only at h
      split at h
      · cases h
      · next hne =>
        split at h
        · cases h
        · cases result with
          | none => exact absurd rfl hne
          | some b =>
            rw [getD_some] at h
            split at h
            · cases h
            · next fs₁ hwrite =>
              cases h
              exact .inr ⟨w, b, fs₁, rfl, hwrite, rfl, rfl, rfl, sameSlots_setISize _ _⟩

theorem leafData_sameSlots {ei ei' : Buf} (h : SameSlots ei ei')
    (hl : l < mapBlocks fs.geo.perBlock) : leafData fs ei' l = leafData fs ei l :=
  leafData_congr rfl (ptr_congr h (fun _ _ _ _ => rfl) (leafPos_valid hl)) fun _ => rfl

/-- Writing an inode to disk changes no data. -/
theorem InodeWritten.leafData {ei ej : Buf} {j : Nat} (hw : InodeWritten reserved fs ino ei fs')
    (ho : Owned reserved fs L) (hj : L j = some ej) (hl : l < mapBlocks fs.geo.perBlock) :
    Ext2.leafData fs' ej l = Ext2.leafData fs ej l := by
  have hdisk : ∀ c, DataUsed reserved fs c → fs'.disk c = fs.disk c :=
    fun c hc => hw.disk c hc.notReserved
  have hvalid := leafPos_valid hl
  refine leafData_congr hw.geo ?_ fun hne => hdisk _ (ho.dataUsed hj hvalid hne)
  exact ptr_congr (fun _ _ => rfl) (fun q hq _ h0 => hdisk _ (ho.dataUsed hj hq h0)) hvalid

theorem mapBlocks_mul_lt (hgeo : Layout fs.geo reserved) :
    mapBlocks fs.geo.perBlock * fs.geo.blockSize < 2 ^ 33 := by
  rcases hgeo.blockSize_cases with h | h | h <;>
    simp [mapBlocks, Geometry.perBlock, ndirBlocks, h]

theorem sizeBlocks_eq (hgeo : Layout fs.geo reserved) {size : Nat} (hsize : size < 2 ^ 34) :
    sizeBlocks fs.geo size = (size + fs.geo.blockSize - 1) / fs.geo.blockSize := by
  have hbs : 1024 ≤ fs.geo.blockSize ∧ fs.geo.blockSize ≤ 4096 := by
    rcases hgeo.blockSize_cases with h | h | h <;> omega
  unfold sizeBlocks
  rw [u64_of_lt (by omega), u32_of_lt]
  refine (div_le_div_left hbs.1 (by decide)).trans_lt ?_
  omega

variable (type) in
/-- The block `ext2_dir_add_entry` appends is one record. -/
theorem newDirBlock_chain (hgeo : Layout fs.geo reserved) (hname : name.length ≤ 255)
    (hino0 : ino ≠ 0) (hino : ino < 2 ^ 32) :
    Chain (newDirBlock fs.geo.blockSize ino type name) 0 [0] fs.geo.blockSize ∧
      entriesAt (newDirBlock fs.geo.blockSize ino type name) [0] = [(name, ino)] := by
  have hbs : fs.geo.blockSize % 4 = 0 ∧ 1024 ≤ fs.geo.blockSize ∧ fs.geo.blockSize < 2 ^ 16 := by
    rcases hgeo.blockSize_cases with h | h | h <;> omega
  have hlen : deRecLen (putRecLen zero 0 fs.geo.blockSize) 0 = fs.geo.blockSize :=
    deRecLen_putRecLen hbs.2.2
  have hnameLen : deNameLen (putRecLen zero 0 fs.geo.blockSize) 0 = 0 := by
    rw [deNameLen, putRecLen_of_not_mem (by omega)]
    rfl
  have hok : RecordOk (putRecLen zero 0 fs.geo.blockSize) 0 :=
    ⟨by rw [hlen]; exact hbs.1, by
      rw [hlen, hnameLen]
      exact (by decide : dirRecLen 0 ≤ 1024).trans hbs.2.1⟩
  have hnew := dirRecLen_of_lt (n := name.length) (by omega)
  have hroom : dirRecLen name.length ≤ deRecLen (putRecLen zero 0 fs.geo.blockSize) 0 := by
    rw [hlen]
    omega
  have h := reuse_spec hok hname hino0 hino type hroom
  rwa [hlen, zero_add] at h

/-- A block is appended at the first logical block behind the end. -/
theorem DirOk.append (h : DirOk reserved L fs dir) {w : Work} {b k : Nat} {new : Buf} {fs₁ : Fs}
    (hmap : (⟨fs, dir.ei, false⟩ : Work).bmapAlloc k = (w, some b))
    (hwrite : w.fs.writeBlock b new = some fs₁) (hslots : SameSlots w.ei dir'.ei) :
    k < mapBlocks fs.geo.perBlock ∧ (fs₁.putInode dir.ino dir'.ei).geo = fs.geo ∧
      Owned reserved (fs₁.putInode dir.ino dir'.ei) (update L dir.ino (some dir'.ei)) ∧
      ∀ l < mapBlocks fs.geo.perBlock, leafData (fs₁.putInode dir.ino dir'.ei) dir'.ei l =
        if l = k then some new else leafData fs dir.ei l := by
  have howned : Owned reserved fs (update L dir.ino (some dir.ei)) := by
    rw [← h.live, update_eq_self]
    exact h.owned
  have hens := Work.bmapAlloc_spec (w := ⟨fs, dir.ei, false⟩) howned k
  have hk := @Work.bmapAlloc_lt ⟨fs, dir.ei, false⟩ k b (by rw [hmap])
  rw [hmap] at hens
  obtain ⟨hb0, hptr⟩ := hens.result b rfl
  have hwgeo : w.fs.geo = fs.geo := hens.grew.geo
  dsimp only at hk hptr
  have hk' : k < mapBlocks w.fs.geo.perBlock := hwgeo ▸ hk
  rw [← hwgeo] at hptr
  have hdata := hens.owned.data (leafPos_valid hk') (hptr ▸ hb0)
  rw [hptr] at hdata
  rw [writeBlock_eq hens.owned.mounted.layout hdata.lt, some_inj] at hwrite
  obtain ⟨hgrew₁, howned₁⟩ := writeLeaf_spec (S := fun _ => True) (D := fun _ => True)
    hens.owned (leafPos_valid hk') (leafPos_leaf _ _) (hptr ▸ hb0) trivial new (hptr ▸ hwrite)
  have hgeo₁ : fs₁.geo = fs.geo := hgrew₁.geo.trans hwgeo
  have howned₂ := howned₁.sameSlots hslots
  obtain ⟨fs₂, hput, hw⟩ := writeInode_spec howned₂.mounted (hgeo₁ ▸ h.valid) dir'.ei
  rw [putInode_eq hput]
  refine ⟨hk, hw.geo.trans hgeo₁, hw.owned howned₂, fun l hl => ?_⟩
  have hl₁ : l < mapBlocks fs₁.geo.perBlock := hgeo₁ ▸ hl
  rw [hw.leafData howned₂ (update_self _ _ _) hl₁, leafData_sameSlots hslots hl₁,
    leafData_writeLeaf hens.owned hk' hptr hb0 hwrite (hwgeo ▸ hl)]
  by_cases hlk : l = k
  · rw [if_pos hlk, if_pos hlk]
  · rw [if_neg hlk, if_neg hlk]
    refine hens.grew.leafData howned (update_self _ _ _) hl (.inl fun hon => ?_) id
    exact hlk (leafPos_of_onChain hon)

/-- Whichever way it goes, a new entry is in the list afterwards. -/
theorem DirOk.dirAddEntry (h : DirOk reserved L fs dir) (hname : name.length ≤ 255)
    (hino0 : ino ≠ 0) (hino : ino < 2 ^ 32)
    (hrun : Ext2.dirAddEntry fs dir name ino type = .ok (fs', dir', true)) :
    DirShape reserved (update L dir.ino (some dir'.ei)) fs' dir' ∧
      ∃ pre post, dirEntries fs dir = pre ++ post ∧
        dirEntries fs' dir' = pre ++ (name, ino) :: post := by
  have hself : update L dir.ino (some dir.ei) = L := by
    rw [← h.live, update_eq_self]
  have hgeo := h.owned.mounted.layout
  rcases dirAddEntry_cases hrun with ⟨rfl, block, b', hscan, hwrite⟩ |
    ⟨w, b, fs₁, hmap, hwrite, rfl, hi, hsize, hslots⟩
  · obtain ⟨l, b, pre, o, post, hl, hb, hptr, hne, hchain, hplace⟩ := h.found hscan
    obtain ⟨hpre, hrec, hpost⟩ := hchain.at
    have hbs : fs.geo.blockSize ≤ 4096 := by
      rcases hgeo.blockSize_cases with h | h | h <;> omega
    obtain ⟨mid, hmid, hentries, hout⟩ := placeEntry_spec hrec hname hino0 hino hpost.le hbs hplace
    obtain ⟨hchain', hentries'⟩ := hpre.replace hmid hpost (fun j _ hj => hout j (.inl hj))
      fun j hj _ => hout j (.inr hj)
    obtain ⟨hgeo', howned', hdata'⟩ := h.writeFound hl hptr hne hwrite
    obtain ⟨hshape, front, back, hfront, hback⟩ :=
      h.exchange hl hb hchain' hgeo' howned' hdata'
    rw [hself]
    refine ⟨hshape, front ++ entriesAt b pre ++ entriesAt b [o], entriesAt b post ++ back, ?_, ?_⟩
    · rw [hfront, blockEntries_eq hchain, entriesAt_append]
      simp [entriesAt, filterMap_cons]
      cases entryAt b o <;> rfl
    · rw [hback, hentries', hentries]
      simp only [append_assoc, cons_append, nil_append]
  · have hsmall := mapBlocks_mul_lt hgeo
    have hsizeLe := h.size_le
    have hbs : 1024 ≤ fs.geo.blockSize ∧ fs.geo.blockSize ≤ 4096 := by
      rcases hgeo.blockSize_cases with h | h | h <;> omega
    obtain ⟨hk, hgeo', howned', hleaf⟩ := h.append hmap hwrite hslots
    generalize fs₁.putInode dir.ino dir'.ei = fs' at *
    have hblocks := sizeBlocks_eq hgeo (show dir.size < 2 ^ 34 by omega)
    have hblocks' : sizeBlocks fs'.geo dir'.size = sizeBlocks fs.geo dir.size + 1 := by
      rw [hgeo', hsize, u64_of_lt (by omega), sizeBlocks_eq hgeo (by omega), hblocks,
        ← add_div_right _ (by omega)]
      congr 1
      omega
    obtain ⟨hchain, hentries⟩ := newDirBlock_chain type hgeo hname hino0 hino
    generalize newDirBlock fs.geo.blockSize ino type name = new at *
    refine ⟨⟨howned', by rw [hi, hgeo']; exact h.valid, by rw [hi, update_self], ?_,
      fun l hl b hb => ?_⟩, dirEntries fs dir, [], (append_nil _).symm, ?_⟩
    · rw [hblocks, div_lt_iff_lt_mul (by omega)] at hk
      rw [hgeo', hsize, u64_of_lt (by omega)]
      omega
    · rw [hblocks'] at hl
      rw [hgeo']
      rw [hleaf l (by omega)] at hb
      by_cases hlk : l = sizeBlocks fs.geo dir.size
      · rw [if_pos hlk, some_inj] at hb
        exact ⟨[0], hb ▸ hchain⟩
      · rw [if_neg hlk] at hb
        exact h.chain l (by omega) b hb
    · have hold : ∀ l ∈ range (sizeBlocks fs.geo dir.size),
          leafEntries fs' dir'.ei l = leafEntries fs dir.ei l := by
        intro l hl
        rw [mem_range] at hl
        rw [leafEntries, leafEntries, hleaf l (by omega), if_neg (by omega), hgeo']
      rw [dirEntries, dirBlocks, hblocks', range_succ, flatMap_append,
        flatMap_congr hold, flatMap_singleton, leafEntries, hleaf _ hk, if_pos rfl, hgeo',
        map_some, getD_some, blockEntries_eq hchain, hentries]
      rfl

end Add

/-! ## The directory as a map -/

/-- The directory has gained the entry `name`, and all its other names are as they were. -/
structure Gained (reserved : Nat → Prop) (L : Nat → Option Buf) (fs : Fs) (dir : Inode)
    (name : List UInt8) (ino : Nat) (fs' : Fs) (dir' : Inode) : Prop where
  found : lookupIno fs' dir' name = .ok (some ino)
  others : ∀ n, n ≠ name → lookupIno fs' dir' n = lookupIno fs dir n
  dirOk : DirOk reserved (Function.update L dir.ino (some dir'.ei)) fs' dir'

/-- The directory has lost the entry `name`, and all its other names are as they were. -/
structure Lost (reserved : Nat → Prop) (L : Nat → Option Buf) (fs : Fs) (dir : Inode)
    (name : List UInt8) (fs' : Fs) : Prop where
  gone : lookupIno fs' dir name = .ok none
  others : ∀ n, n ≠ name → lookupIno fs' dir n = lookupIno fs dir n
  dirOk : DirOk reserved L fs' dir

section Map

variable {reserved : Nat → Prop} {L : Nat → Option Buf} {fs fs' : Fs} {dir dir' : Inode}
  {l ino type : Nat} {name : List UInt8}

theorem DirOk.gained (h : DirOk reserved L fs dir) (hname : name.length ≤ 255)
    (hino0 : ino ≠ 0) (hino : ino < 2 ^ 32) (hfresh : lookupIno fs dir name = .ok none)
    (hrun : Ext2.dirAddEntry fs dir name ino type = .ok (fs', dir', true)) :
    Gained reserved L fs dir name ino fs' dir' := by
  obtain ⟨hshape, pre, post, hold, hnew⟩ := h.dirAddEntry hname hino0 hino hrun
  have hkeys : name ∉ keys (pre ++ post) := by
    rw [h.lookupIno_eq, Except.ok.injEq, lookup_eq_none, hold] at hfresh
    exact hfresh
  have hok : DirOk reserved (update L dir.ino (some dir'.ei)) fs' dir' :=
    hshape.dirOk (by
      rw [hnew, nodup_insert_iff, ← hold]
      exact ⟨hold ▸ hkeys, h.nodup⟩)
  refine ⟨?_, fun n hn => ?_, hok⟩
  · rw [hok.lookupIno_eq, hnew, lookup_insert_self]
    exact fun hmem => hkeys (by simp only [Assoc.keys, map_append, mem_append]; exact .inl hmem)
  · rw [hok.lookupIno_eq, h.lookupIno_eq, hnew, hold, lookup_insert_of_ne hn]

theorem dirRemoveEntry_cases (h : dirRemoveEntry fs dir ino = .ok (fs', true)) :
    ∃ block b, scanDir fs dir.ei (dropEntry fs.geo.blockSize ino) (dirBlocks fs dir) =
      .ok (.here (block, b)) ∧ fs.writeBlock block b = some fs' := by
  unfold dirRemoveEntry at h
  split at h
  · cases h
  · next block b hscan =>
    split at h
    · cases h
    · next fs₁ hwrite =>
      cases h
      exact ⟨block, b, hscan, hwrite⟩
  · cases h

/-- Removing an inode number takes one of its entries out of the list. -/
theorem DirOk.dirRemoveEntry (h : DirOk reserved L fs dir) (hino0 : ino ≠ 0)
    (hrun : Ext2.dirRemoveEntry fs dir ino = .ok (fs', true)) :
    DirShape reserved L fs' dir ∧ ∃ pre name post,
      dirEntries fs dir = pre ++ (name, ino) :: post ∧ dirEntries fs' dir = pre ++ post := by
  obtain ⟨block, b', hscan, hwrite⟩ := dirRemoveEntry_cases hrun
  obtain ⟨l, b, pre, o, post, hl, hb, hptr, hne, hchain, hdrop⟩ := h.found hscan
  have hbs : fs.geo.blockSize < 2 ^ 16 := by
    rcases h.owned.mounted.layout.blockSize_cases with h | h | h <;> omega
  obtain ⟨hino, os, hchain', hentries⟩ := dropEntry_spec hchain hbs hdrop
  obtain ⟨hgeo', howned', hdata'⟩ := h.writeFound hl hptr hne hwrite
  obtain ⟨hshape, front, back, hfront, hback⟩ := h.exchange hl hb hchain' hgeo' howned' hdata'
  have hentry : entriesAt b (o :: post) =
      (deName b o (deNameLen b o), ino) :: entriesAt b post := by
    rw [entriesAt, filterMap_cons, entryAt, if_neg (hino ▸ hino0), hino]
    rfl
  refine ⟨hshape, front ++ entriesAt b pre, deName b o (deNameLen b o), entriesAt b post ++ back,
    ?_, ?_⟩
  · rw [hfront, blockEntries_eq hchain, entriesAt_append, hentry]
    simp only [append_assoc, cons_append]
  · rw [hback, hentries]
    simp only [append_assoc]

theorem DirOk.lost (h : DirOk reserved L fs dir) (hino0 : ino ≠ 0)
    (honly : (dirEntries fs dir).filter (fun e => e.2 = ino) = [(name, ino)])
    (hrun : Ext2.dirRemoveEntry fs dir ino = .ok (fs', true)) :
    Lost reserved L fs dir name fs' := by
  obtain ⟨hshape, pre, n, post, hold, hnew⟩ := h.dirRemoveEntry hino0 hrun
  -- the entry taken out is the only one with this inode number
  have hn : n = name := by
    have hmem : (n, ino) ∈ (dirEntries fs dir).filter (fun e => e.2 = ino) := by simp [hold]
    rw [honly, mem_singleton] at hmem
    exact congrArg Prod.fst hmem
  subst hn
  have hnodup := h.nodup
  rw [hold, nodup_insert_iff, ← hnew] at hnodup
  have hok := hshape.dirOk hnodup.2
  refine ⟨?_, fun m hm => ?_, hok⟩
  · rw [hok.lookupIno_eq, lookup_eq_none.mpr hnodup.1]
  · rw [hok.lookupIno_eq, h.lookupIno_eq, hnew, hold, lookup_insert_of_ne hm]

theorem scanBlock_eq_some {α : Type} {bs o fuel : Nat} {b : Buf} {prev : Option Nat}
    {visit : Option Nat → Nat → Except Fault (Option α)} {a : α}
    (h : scanBlock bs b visit prev o fuel = .ok (some a)) :
    ∃ prev o, visit prev o = .ok (some a) := by
  induction fuel generalizing prev o with
  | zero => cases h
  | succ fuel ih =>
    rw [scanBlock] at h
    split at h
    · cases h
    split at h
    · cases h
    split at h
    · cases h
    · next result hvisit =>
      cases h
      exact ⟨prev, o, hvisit⟩
    · split at h
      · cases h
      · exact ih h

/-- A name that is found has at most 255 bytes, whatever the directory looks like. -/
theorem length_le_of_lookupIno (h : lookupIno fs dir name = .ok (some ino)) :
    name.length ≤ 255 := by
  obtain ⟨block, hscan⟩ : ∃ block, scanDir fs dir.ei (matchName fs.geo.blockSize name)
      (dirBlocks fs dir) = .ok (.here (block, ino)) := by
    unfold lookupIno at h
    cases hscan : scanDir fs dir.ei (matchName fs.geo.blockSize name) (dirBlocks fs dir) with
    | error e => rw [hscan] at h; cases h
    | ok result =>
      rw [hscan] at h
      cases result with
      | here found =>
        obtain ⟨block, found⟩ := found
        cases h
        exact ⟨block, rfl⟩
      | missing => cases h
      | ioError => cases h
  obtain ⟨l, -, -, -, b, -, hblock⟩ := scanDir_here hscan
  obtain ⟨prev, o, hvisit⟩ := scanBlock_eq_some hblock
  have hlen : deNameLen b o = name.length := by
    by_contra hlen
    simp [matchName, hlen] at hvisit
  have hbyte := (b (o + 6)).toNat_lt
  rw [← hlen, deNameLen]
  omega

/-- A well-formed directory on blocks of 1, 2 or 4 KiB is a finite map: an added name is found
afterwards exactly if it has at most 255 bytes, a removed one is not, and the other names keep
their inodes. -/
theorem directory_is_map (h : DirOk reserved L fs dir) :
    (fs.geo.blockSize = 1024 ∨ fs.geo.blockSize = 2048 ∨ fs.geo.blockSize = 4096) ∧
    (∀ name ino type fs' dir', ino ≠ 0 → ino < 2 ^ 32 → lookupIno fs dir name = .ok none →
      dirAddEntry fs dir name ino type = .ok (fs', dir', true) →
      (Gained reserved L fs dir name ino fs' dir' ↔ name.length ≤ 255)) ∧
    ∀ name ino fs', ino ≠ 0 → (dirEntries fs dir).filter (fun e => e.2 = ino) = [(name, ino)] →
      dirRemoveEntry fs dir ino = .ok (fs', true) → Lost reserved L fs dir name fs' := by
  refine ⟨h.owned.mounted.layout.blockSize_cases,
    fun name ino type fs' dir' hino0 hino hfresh hrun => ⟨fun hgained => ?_, fun hname => ?_⟩,
    fun name ino fs' hino0 honly hrun => ?_⟩
  · exact length_le_of_lookupIno hgained.found
  · exact h.gained hname hino0 hino hfresh hrun
  · exact h.lost hino0 honly hrun

end Map

/-! ## The root of the small volume -/

/-- The root directory of the volume `sample`. -/
def sampleDir : Inode := createVfsInode ((live sample 2).getD zero) 2

theorem sampleDir_live : live sample 2 = some sampleDir.ei := by
  obtain ⟨ei, hei⟩ := isSome_iff_exists.mp (by decide +kernel : (live sample 2).isSome)
  rw [sampleDir, hei]
  rfl

theorem sampleDir_chain : ∃ os, Chain sampleRoot 0 os 1024 := by
  refine ⟨[0, 12, 24, 36], .cons ⟨?_, ?_⟩ (.cons ⟨?_, ?_⟩ (.cons ⟨?_, ?_⟩ (.cons ⟨?_, ?_⟩ ?_)))⟩
  iterate 8 decide +kernel
  exact .nil 1024

theorem sampleDir_entries : dirEntries sample.fs sampleDir =
    [([46], 2), ([46, 46], 2), ([97], 12), ([98], 13)] := by
  decide +kernel

theorem sampleDir_dirOk : DirOk sampleReserved (live sample) sample.fs sampleDir where
  owned := sample_consistent.inv.owned
  valid := by decide
  live := sampleDir_live
  size_le := by decide +kernel
  chain := by
    have hblocks : sizeBlocks sample.fs.geo sampleDir.size = 1 := by decide +kernel
    have hptr : ptr sample.fs sampleDir.ei (leafPos sample.fs.geo.perBlock 0) = 7 := by
      decide +kernel
    intro l hl b hb
    obtain rfl : l = 0 := by omega
    rw [leafData, hptr] at hb
    cases hb
    exact sampleDir_chain
  nodup := by
    rw [sampleDir_entries]
    decide

/-- The file `b` gets a second name `c`, and the entry of the file `a` is removed. -/
theorem directory_is_map_sample :
    (∃ fs' dir', dirAddEntry sample.fs sampleDir [99] 13 ftRegFile = .ok (fs', dir', true) ∧
      Gained sampleReserved (live sample) sample.fs sampleDir [99] 13 fs' dir') ∧
    ∃ fs', dirRemoveEntry sample.fs sampleDir 12 = .ok (fs', true) ∧
      Lost sampleReserved (live sample) sample.fs sampleDir [97] fs' := by
  obtain ⟨-, hadd, hremove⟩ := directory_is_map sampleDir_dirOk
  constructor
  · have hfresh : lookupIno sample.fs sampleDir [99] = .ok none := by
      rw [sampleDir_dirOk.lookupIno_eq, sampleDir_entries]
      rfl
    refine ⟨_, _, rfl, (hadd [99] 13 ftRegFile _ _ (by decide) (by decide) hfresh rfl).mpr ?_⟩
    decide
  · refine ⟨_, rfl, hremove [97] 12 _ (by decide) ?_ rfl⟩
    rw [sampleDir_entries]
    rfl

/-- Whether `ext2_dir_add_entry` of a name to the root succeeds, and what `ext2_lookup` finds
for this name afterwards. -/
def addAndLookup (name : List UInt8) (ino : Nat) : Option (Bool × Option Nat) :=
  (dirAddEntry sample.fs sampleDir name ino ftRegFile).toOption.bind fun (fs', dir', ok) =>
    (lookupIno fs' dir' name).toOption.map fun found => (ok, found)

/-- A name of 256 bytes is added without an error and is not found afterwards: its length is
stored as zero. -/
theorem not_found_of_long_name :
    DirOk sampleReserved (live sample) sample.fs sampleDir ∧
      lookupIno sample.fs sampleDir (replicate 256 97) = .ok none ∧
      addAndLookup (replicate 256 97) 14 = some (true, none) := by
  refine ⟨sampleDir_dirOk, ?_, by decide +kernel⟩
  rw [sampleDir_dirOk.lookupIno_eq, sampleDir_entries]
  rfl

end Osx64.Ext2
