import Osx64.Ext2.FileOwned
import Osx64.Ext2.Namei

/-!
# Inodes in memory and on disk

The copy of an inode that counts is the one in memory, or else the one on disk.
`Inv` says that the volume is owned by these copies, and that the copy on disk of a
loaded inode never points to more than the copy in memory, so that an inode can be
dropped from memory at any time.

An operation changes one inode at a time; `Elsewhere` says that everything about the
others is as before, and `Inv.change` that the invariant then is a matter of this inode
alone.  The other lemmas are the ways in which this happens: a loaded inode changes
(`Inv.amend`, `Inv.commit`, `Inv.modify`, `Inv.writeBack`), a new inode appears on disk
(`Inv.adopt`), one is given up (`Inv.forget`), loaded (`Inv.load`) or dropped from memory
(`Inv.unload`).
-/

namespace Osx64.Ext2

open Function Option Ext2.Fs State

/-- An inode number in use. -/
def InUse (fs : Fs) (ino : Nat) : Prop := ValidIno fs.geo ino ∧ fs.inodeUsed ino = true
deriving Decidable

/-- The copy of an inode that counts. -/
def live (st : State) (ino : Nat) : Option Buf :=
  if InUse st.fs ino then
    match st.mem ino with
    | some inode => some inode.ei
    | none => st.fs.readInode ino
  else none

/-- The pointers in the slots of `ei` are pointers in the slots of `ei'`. -/
def SubMap (ei ei' : Buf) : Prop := ∀ k < 14, iBlock ei k = 0 ∨ iBlock ei k = iBlock ei' k

/-- What every operation keeps. -/
structure Inv (reserved : Nat → Prop) (st : State) : Prop where
  owned : Owned reserved st.fs (live st)
  loaded : ∀ ino inode, st.mem ino = some inode → inode.ino = ino ∧ InUse st.fs ino
  synced : ∀ ino inode ei, st.mem ino = some inode → st.fs.readInode ino = some ei →
    SubMap ei inode.ei

/-- Nothing has changed about the inodes other than `ino`. -/
structure Elsewhere (st : State) (ino : Nat) (st' : State) : Prop where
  geo : st'.fs.geo = st.fs.geo
  used : ∀ j, j ≠ ino → st'.fs.inodeUsed j = st.fs.inodeUsed j
  mem : ∀ j, j ≠ ino → st'.mem j = st.mem j
  tables : ∀ j, ValidIno st.fs.geo j → j ≠ ino → st'.fs.readInode j = st.fs.readInode j

/-! ## Slots -/

/-- The slots of two inode copies agree. -/
def SameSlots (ei ei' : Buf) : Prop := ∀ k < 14, iBlock ei' k = iBlock ei k

section Slots

variable {reserved : Nat → Prop} {L : Nat → Option Buf} {ino : Nat} {fs fs' : Fs}
  {ei ei₁ ei₂ : Buf}

theorem SameSlots.refl (ei : Buf) : SameSlots ei ei := fun _ _ => rfl

theorem SameSlots.trans (h : SameSlots ei ei₁) (h' : SameSlots ei₁ ei₂) : SameSlots ei ei₂ :=
  fun k hk => (h' k hk).trans (h k hk)

theorem SameSlots.symm (h : SameSlots ei ei₁) : SameSlots ei₁ ei := fun k hk => (h k hk).symm

theorem SameSlots.subMap (h : SameSlots ei ei₁) : SubMap ei ei₁ := fun k hk => .inr (h k hk).symm

theorem SubMap.trans (h : SubMap ei ei₁) (h' : SubMap ei₁ ei₂) : SubMap ei ei₂ := by
  intro k hk
  rcases h k hk with h0 | h1
  · exact .inl h0
  · rw [h1]
    exact h' k hk

theorem sameSlots_clip (ei : Buf) : SameSlots ei (ei.clip inodeBytes) :=
  fun k hk => Buf.get32_clip (by rw [inodeBytes]; omega)

/-- The slots are the bytes 40 to 95 of an inode. -/
theorem sameSlots_put32 (ei : Buf) (o v : Nat) (ho : o + 4 ≤ 40) : SameSlots ei (ei.put32 o v) :=
  fun _ _ => Buf.get32_put32_of_disjoint (by omega)

theorem sameSlots_put16 (ei : Buf) (o v : Nat) (ho : o + 2 ≤ 40) : SameSlots ei (ei.put16 o v) :=
  fun _ _ => Buf.get32_put16_of_disjoint (by omega)

theorem sameSlots_setISize (ei : Buf) (size : Nat) : SameSlots ei (setISize ei size) :=
  sameSlots_put32 _ _ _ (by decide)

theorem sameSlots_setIBlocks (ei : Buf) (count : Nat) : SameSlots ei (setIBlocks ei count) :=
  sameSlots_put32 _ _ _ (by decide)

theorem sameSlots_setILinksCount (ei : Buf) (count : Nat) :
    SameSlots ei (setILinksCount ei count) :=
  sameSlots_put16 _ _ _ (by decide)

/-- Ownership depends on the slots of the inode copies only. -/
theorem Owned.sameSlots (h : Owned reserved fs (update L ino (some ei)))
    (hs : SameSlots ei ei₁) : Owned reserved fs (update L ino (some ei₁)) :=
  h.sameMap (h.reworked_self ei) (fun _ hp => ptr_congr hs (fun _ _ _ _ => rfl) hp) fun _ hc => hc

/-- A copy with fewer slots reaches fewer blocks. -/
theorem Owned.subMap (h : Owned reserved fs (update L ino (some ei)))
    (hs : SubMap ei₁ ei) : Owned reserved fs (update L ino (some ei₁)) := by
  refine h.cut (h.reworked_self ei) (fun p hp => ?_) fun c hc _ => hc
  rcases hs p.slot hp.slot_lt with h0 | hsame
  · exact .inr (ptr_of_slot_eq h0)
  · exact .inl (ptr_of_slot hsame)

/-- Writing an inode to disk changes no data block. -/
theorem InodeWritten.owned (hw : InodeWritten reserved fs ino ei fs') (h : Owned reserved fs L) :
    Owned reserved fs' L := by
  refine h.sameData hw.mounted hw.geo (fun c hc => hw.disk c hc.notReserved) fun c hc => ?_
  rw [blockUsed, hw.blocks, hw.geo]
  exact hc

end Slots

/-! ## Blocks of other inodes -/

/-- The blocks of the inodes other than `ino` have not been written. -/
def Apart (fs : Fs) (L : Nat → Option Buf) (ino : Nat) (fs' : Fs) : Prop :=
  ∀ j ej, j ≠ ino → L j = some ej → ∀ p : Pos, p.Valid fs.geo.perBlock → ptr fs ej p ≠ 0 →
    fs'.disk (ptr fs ej p) = fs.disk (ptr fs ej p)

section Apart

variable {reserved : Nat → Prop} {L : Nat → Option Buf} {ino j : Nat} {fs fs₁ fs₂ : Fs}
  {ei ej : Buf} {p : Pos}

theorem Apart.refl (fs : Fs) (L : Nat → Option Buf) (ino : Nat) : Apart fs L ino fs :=
  fun _ _ _ _ _ _ _ => rfl

theorem Apart.ptr_eq (h : Apart fs L ino fs₁) (hne : j ≠ ino) (hj : L j = some ej)
    (hp : p.Valid fs.geo.perBlock) : ptr fs₁ ej p = ptr fs ej p :=
  ptr_congr (fun _ _ => rfl) (fun q hq _ h0 => h j ej hne hj q hq h0) hp

theorem Apart.trans (h : Apart fs L ino fs₁) (h' : Apart fs₁ L ino fs₂)
    (hgeo : fs₁.geo = fs.geo) : Apart fs L ino fs₂ := by
  intro j ej hne hj p hp h0
  have hptr := h.ptr_eq hne hj hp
  have hstep := h' j ej hne hj p (hgeo ▸ hp) (hptr ▸ h0)
  rw [hptr] at hstep
  exact hstep.trans (h j ej hne hj p hp h0)

/-- Only blocks of `ino`, free blocks and metadata have been written. -/
theorem Owned.apart (h : Owned reserved fs (update L ino (some ei)))
    (hdisk : ∀ c, DataUsed reserved fs c →
      (∀ q : Pos, q.Valid fs.geo.perBlock → ptr fs ei q ≠ c) → fs₁.disk c = fs.disk c) :
    Apart fs L ino fs₁ := by
  intro j ej hne hj p hp h0
  have hj' : update L ino (some ei) j = some ej := by
    rw [update_of_ne hne, hj]
  apply hdisk _ (h.dataUsed hj' hp h0)
  intro q hq heq
  exact hne (h.inj hj' hp (update_self _ _ _) hq h0 heq.symm).1

/-- Only free blocks and metadata have been written. -/
theorem Owned.apart_of_data (h : Owned reserved fs L)
    (hdisk : ∀ c, DataUsed reserved fs c → fs₁.disk c = fs.disk c) : Apart fs L ino fs₁ :=
  fun _ _ _ hj _ hp h0 => hdisk _ (h.dataUsed hj hp h0)

end Apart

/-! ## One inode changes -/

section Live

variable {reserved : Nat → Prop} {st st' : State} {fs' : Fs} {ino j : Nat} {inode inode' : Inode}
  {ei ei' : Buf}

theorem live_of_mem (h : InUse st.fs ino) (hmem : st.mem ino = some inode) :
    live st ino = some inode.ei := by
  rw [live, if_pos h, hmem]

theorem live_of_disk (h : InUse st.fs ino) (hmem : st.mem ino = none) :
    live st ino = st.fs.readInode ino := by
  rw [live, if_pos h, hmem]

theorem live_of_not (h : ¬ InUse st.fs ino) : live st ino = none := if_neg h

theorem Elsewhere.trans {st₁ st₂ : State} (h : Elsewhere st ino st₁)
    (h' : Elsewhere st₁ ino st₂) : Elsewhere st ino st₂ where
  geo := h'.geo.trans h.geo
  used j hj := (h'.used j hj).trans (h.used j hj)
  mem j hj := (h'.mem j hj).trans (h.mem j hj)
  tables j hv hj := (h'.tables j (h.geo ▸ hv) hj).trans (h.tables j hv hj)

/-- The inode bitmap is as before, and one inode has changed in memory. -/
theorem Elsewhere.store (st : State) (ino : Nat) (entry : Option Inode)
    (hgeo : fs'.geo = st.fs.geo) (hinodes : fs'.inodes = st.fs.inodes)
    (htables : ∀ j, ValidIno st.fs.geo j → j ≠ ino → fs'.readInode j = st.fs.readInode j) :
    Elsewhere st ino ⟨fs', update st.mem ino entry⟩ where
  geo := hgeo
  used j _ := by rw [inodeUsed, inodeUsed, hinodes, hgeo]
  mem j hj := update_of_ne hj _ _
  tables := htables

theorem Elsewhere.inUse_iff (h : Elsewhere st ino st') (hj : j ≠ ino) :
    InUse st'.fs j ↔ InUse st.fs j := by
  rw [InUse, InUse, h.geo, h.used j hj]

theorem Elsewhere.live_eq (h : Elsewhere st ino st') :
    live st' = update (live st) ino (live st' ino) := by
  funext j
  by_cases hj : j = ino
  · rw [hj, update_self]
  rw [update_of_ne hj]
  by_cases hin : InUse st.fs j
  · rw [live, live, if_pos hin, if_pos ((h.inUse_iff hj).mpr hin), h.mem j hj,
      h.tables j hin.1 hj]
  · rw [live_of_not hin, live_of_not (mt (h.inUse_iff hj).mp hin)]

/-- How an operation on one inode is shown to keep the invariant. -/
theorem Inv.change (h : Inv reserved st) (he : Elsewhere st ino st')
    (howned : Owned reserved st'.fs (update (live st) ino (live st' ino)))
    (hself : ∀ inode, st'.mem ino = some inode → inode.ino = ino ∧ InUse st'.fs ino ∧
      ∀ ei, st'.fs.readInode ino = some ei → SubMap ei inode.ei) : Inv reserved st' := by
  refine ⟨by rwa [he.live_eq], fun j inode hj => ?_, fun j inode ei hj hread => ?_⟩
  · by_cases hji : j = ino
    · subst hji
      exact ⟨(hself inode hj).1, (hself inode hj).2.1⟩
    · rw [he.mem j hji] at hj
      obtain ⟨hi, hin⟩ := h.loaded j inode hj
      exact ⟨hi, (he.inUse_iff hji).mpr hin⟩
  · by_cases hji : j = ino
    · subst hji
      exact (hself inode hj).2.2 ei hread
    · rw [he.mem j hji] at hj
      rw [he.tables j (h.loaded j inode hj).2.1 hji] at hread
      exact h.synced j inode ei hj hread

/-- The copy of `ino` in memory becomes `inode'`. -/
theorem Inv.amend (h : Inv reserved st) (hin : InUse st.fs ino) (hi : inode'.ino = ino)
    (howned : Owned reserved fs' (update (live st) ino (some inode'.ei)))
    (hgeo : fs'.geo = st.fs.geo) (hinodes : fs'.inodes = st.fs.inodes)
    (htables : ∀ j, ValidIno st.fs.geo j → j ≠ ino → fs'.readInode j = st.fs.readInode j)
    (hsync : ∀ ei, fs'.readInode ino = some ei → SubMap ei inode'.ei) :
    Inv reserved ⟨fs', update st.mem ino (some inode')⟩ := by
  have hin' : InUse fs' ino := by
    rw [InUse, inodeUsed, hgeo, hinodes]
    exact hin
  have hmem : update st.mem ino (some inode') ino = some inode' :=
    update_self _ _ _
  refine h.change (Elsewhere.store st ino _ hgeo hinodes htables) ?_ fun inode₁ h₁ => ?_
  · rw [@live_of_mem ⟨fs', _⟩ _ _ hin' hmem]
    exact howned
  · obtain rfl := some_inj.mp (hmem.symm.trans h₁)
    exact ⟨hi, hin', hsync⟩

section

variable (hmem : st.mem ino = some inode)
include hmem

/-- The live map with the entry of a loaded inode written out. -/
theorem Inv.owned_self (h : Inv reserved st) :
    Owned reserved st.fs (update (live st) ino (some inode.ei)) := by
  rw [← live_of_mem (h.loaded ino inode hmem).2 hmem, update_eq_self]
  exact h.owned

/-- The copy of `ino` in memory becomes `inode'`, and is written to disk. -/
theorem Inv.commit (h : Inv reserved st) (inode' : Inode)
    (hi : inode'.ino = ino) {fs₁ : Fs}
    (howned : Owned reserved fs₁ (update (live st) ino (some inode'.ei)))
    (hgeo : fs₁.geo = st.fs.geo) (hinodes : fs₁.inodes = st.fs.inodes)
    (htables : ∀ j, ValidIno st.fs.geo j → j ≠ ino → fs₁.readInode j = st.fs.readInode j) :
    ∃ fs', fs₁.writeInode ino inode'.ei = some fs' ∧
      Elsewhere st ino ⟨fs', update st.mem ino (some inode')⟩ ∧
      Inv reserved ⟨fs', update st.mem ino (some inode')⟩ := by
  have hin := (h.loaded ino inode hmem).2
  obtain ⟨fs', hrun, hw⟩ := writeInode_spec howned.mounted (hgeo ▸ hin.1) inode'.ei
  have hgeo' := hw.geo.trans hgeo
  have hinodes' := hw.inodes.trans hinodes
  have htables' : ∀ j, ValidIno st.fs.geo j → j ≠ ino →
      fs'.readInode j = st.fs.readInode j := fun j hj hne => by
    rw [hw.other j (hgeo ▸ hj) hne, htables j hj hne]
  refine ⟨fs', hrun, Elsewhere.store st ino _ hgeo' hinodes' htables',
    h.amend hin hi (hw.owned howned) hgeo' hinodes' htables' fun ei hread => ?_⟩
  rw [hw.self, some_inj] at hread
  exact hread ▸ (sameSlots_clip inode'.ei).symm.subMap

theorem State.modify_of_mem (f : Inode → Inode) :
    st.modify ino f = ⟨st.fs, update st.mem ino (some (f inode))⟩ := by
  rw [modify, hmem, map_some]

end

theorem State.modify_of_none (hmem : st.mem ino = none) (f : Inode → Inode) :
    st.modify ino f = st := by
  rw [modify, hmem, map_none, ← hmem, update_eq_self]

/-- A change in memory that leaves the slots alone. -/
theorem Inv.modify (h : Inv reserved st) (ino : Nat) {f : Inode → Inode}
    (hf : ∀ inode, (f inode).ino = inode.ino ∧ SameSlots inode.ei (f inode).ei) :
    Inv reserved (st.modify ino f) := by
  cases hmem : st.mem ino with
  | none => rwa [modify_of_none hmem]
  | some inode =>
    obtain ⟨hi, hin⟩ := h.loaded ino inode hmem
    rw [modify_of_mem hmem]
    refine h.amend hin ((hf inode).1.trans hi) ?_ rfl rfl (fun _ _ _ => rfl) fun ei hread => ?_
    · exact (h.owned_self hmem).sameSlots (hf inode).2
    · exact (h.synced ino inode ei hmem hread).trans (hf inode).2.subMap

theorem Elsewhere.modify (st : State) (ino : Nat) (f : Inode → Inode) :
    Elsewhere st ino (st.modify ino f) :=
  Elsewhere.store st ino _ rfl rfl fun _ _ _ => rfl

section

variable (h : Inv reserved st)
include h

/-- Writing a loaded inode back succeeds and keeps the invariant. -/
theorem Inv.writeBack (hmem : st.mem ino = some inode) :
    ∃ fs', st.writeBack ino = some ⟨fs', st.mem⟩ ∧ Elsewhere st ino ⟨fs', st.mem⟩ ∧
      Inv reserved ⟨fs', st.mem⟩ := by
  obtain ⟨fs', hrun, he, hinv⟩ := h.commit hmem inode (h.loaded ino inode hmem).1
    (h.owned_self hmem) rfl rfl fun _ _ _ => rfl
  rw [← hmem, update_eq_self] at he hinv
  refine ⟨fs', ?_, he, hinv⟩
  rw [State.writeBack, hmem, bind_some, hrun, map_some]

theorem Inv.putBack (ino : Nat) :
    Inv reserved (st.putBack ino) ∧ Elsewhere st ino (st.putBack ino) := by
  cases hmem : st.mem ino with
  | none =>
    have hsame : st.putBack ino = st := by
      rw [State.putBack, State.writeBack, hmem, bind_none, getD_none]
    rw [hsame]
    exact ⟨h, ⟨rfl, fun _ _ => rfl, fun _ _ => rfl, fun _ _ _ => rfl⟩⟩
  | some inode =>
    obtain ⟨fs', hrun, he, hinv⟩ := h.writeBack hmem
    rw [State.putBack, hrun, getD_some]
    exact ⟨hinv, he⟩

/-! ## Inodes come and go -/

/-- Inode `ino` is brought into memory. -/
theorem Inv.load (hin : InUse st.fs ino) (hmem : st.mem ino = none)
    (hread : st.fs.readInode ino = some ei) (inode : Inode) (hi : inode.ino = ino)
    (hslots : SameSlots ei inode.ei) :
    Inv reserved ⟨st.fs, update st.mem ino (some inode)⟩ := by
  have howned : Owned reserved st.fs (update (live st) ino (some ei)) := by
    rw [← hread, ← live_of_disk hin hmem, update_eq_self]
    exact h.owned
  refine h.amend hin hi (howned.sameSlots hslots) rfl rfl (fun _ _ _ => rfl) fun ei' hread' => ?_
  rw [hread, some_inj] at hread'
  exact hread' ▸ hslots.subMap

/-- Inode `ino` is dropped from memory; from now on its copy on disk counts. -/
theorem Inv.unload (hmem : st.mem ino = some inode) :
    Inv reserved ⟨st.fs, update st.mem ino none⟩ := by
  have hin := (h.loaded ino inode hmem).2
  obtain ⟨ei, hread⟩ : ∃ ei, st.fs.readInode ino = some ei :=
    ⟨_, readInode_eq h.owned.mounted hin.1⟩
  have hnone : update st.mem ino none ino = none := update_self _ _ _
  refine h.change (Elsewhere.store st ino none rfl rfl fun _ _ _ => rfl) ?_ fun inode₁ h₁ => ?_
  · rw [@live_of_disk ⟨st.fs, update st.mem ino none⟩ _ hin hnone, hread]
    exact (h.owned_self hmem).subMap (h.synced ino inode ei hmem hread)
  · cases hnone.symm.trans h₁

theorem Inv.not_loaded (hfree : st.fs.inodeUsed ino = false) : st.mem ino = none := by
  cases hmem : st.mem ino with
  | none => rfl
  | some inode =>
    have hused := (h.loaded ino inode hmem).2.2
    rw [hfree] at hused
    cases hused

/-- A free inode number is taken, and `ei` is on disk for it. -/
theorem Inv.adopt (hvalid : ValidIno st.fs.geo ino) (hfree : st.fs.inodeUsed ino = false)
    (hused : ∀ j, fs'.inodeUsed j = (decide (j = ino) || st.fs.inodeUsed j))
    (hgeo : fs'.geo = st.fs.geo)
    (htables : ∀ j, ValidIno st.fs.geo j → j ≠ ino → fs'.readInode j = st.fs.readInode j)
    (hread : fs'.readInode ino = some ei)
    (howned : Owned reserved fs' (update (live st) ino (some ei))) :
    Elsewhere st ino ⟨fs', st.mem⟩ ∧ Inv reserved ⟨fs', st.mem⟩ := by
  have hnone := h.not_loaded hfree
  have hin' : InUse fs' ino := ⟨hgeo ▸ hvalid, by simp [hused]⟩
  have he : Elsewhere st ino ⟨fs', st.mem⟩ :=
    ⟨hgeo, fun j hj => by simp [hused, hj], fun _ _ => rfl, htables⟩
  refine ⟨he, h.change he ?_ fun inode₁ h₁ => ?_⟩
  · rw [@live_of_disk ⟨fs', st.mem⟩ _ hin' hnone, hread]
    exact howned
  · cases hnone.symm.trans h₁

end

/-- The blocks of an inode that counts no more may be freed. -/
theorem Owned.discard {L : Nat → Option Buf} {fs : Fs}
    (h : Owned reserved fs (update L ino (some ei))) (hm : Mounted reserved fs')
    (hgeo : fs'.geo = fs.geo) (hdisk : ∀ c, DataUsed reserved fs c → fs'.disk c = fs.disk c)
    (hused : ∀ c, fs.blockUsed c = true →
      (∀ p : Pos, p.Valid fs.geo.perBlock → ptr fs ei p ≠ c) → fs'.blockUsed c = true) :
    Owned reserved fs' (update L ino none) := by
  have hlive : update L ino (some ei) ino = some ei := update_self _ _ _
  have hown : ∀ x : Nat × Pos, own fs' (update L ino none) x =
      if x.1 = ino then 0 else own fs (update L ino (some ei)) x := by
    rintro ⟨j, p⟩
    by_cases hj : j = ino
    · simp only [own, hj, update_self, if_true]
    · simp only [own, hj, update_of_ne, ne_eq, not_false_eq_true, if_false, hgeo]
      cases hlj : L j with
      | none => rfl
      | some ej =>
        have hlj' : update L ino (some ei) j = some ej := by
          rw [update_of_ne hj, hlj]
        by_cases hp : p.Valid fs.geo.perBlock
        · simp only [hp, if_true]
          exact ptr_congr (fun _ _ => rfl)
            (fun q hq _ h0 => hdisk _ (h.dataUsed hlj' hq h0)) hp
        · simp only [hp, if_false]
  refine ⟨hm, h.exclusive.release (fun x => ?_) ?_⟩
  · rw [hown]
    split
    · exact .inr rfl
    · exact .inl rfl
  · rintro ⟨j, p⟩ hne hc
    refine ⟨hgeo ▸ hc.lt, hc.notReserved, hused _ hc.used fun q hq heq => ?_⟩
    rw [hown] at hne heq
    by_cases hj : j = ino
    · rw [if_pos hj] at hne
      exact hne rfl
    · rw [if_neg hj] at hne heq
      rw [← own_eq fs hlive hq] at heq
      exact hj (Prod.mk.inj (h.exclusive.inj _ _ hne heq.symm)).1

/-- Inode `ino` is not in use any more, and the others have not noticed. -/
structure Gone (st : State) (ino : Nat) (st' : State) : Prop extends Elsewhere st ino st' where
  apart : Apart st.fs (live st) ino st'.fs
  unused : ¬ InUse st'.fs ino

/-- Inode `ino` is given up, in memory and in the bitmap. -/
theorem Inv.forget (h : Inv reserved st)
    (hused : ∀ j, fs'.inodeUsed j = (!decide (j = ino) && st.fs.inodeUsed j))
    (hgeo : fs'.geo = st.fs.geo) (hapart : Apart st.fs (live st) ino fs')
    (htables : ∀ j, ValidIno st.fs.geo j → j ≠ ino → fs'.readInode j = st.fs.readInode j)
    (howned : Owned reserved fs' (update (live st) ino none)) :
    Gone st ino ⟨fs', update st.mem ino none⟩ ∧
      Inv reserved ⟨fs', update st.mem ino none⟩ := by
  have hnot : ¬ InUse fs' ino := fun hin => by
    have := hin.2
    simp [hused] at this
  have hnone : update st.mem ino none ino = none := update_self _ _ _
  have he : Elsewhere st ino ⟨fs', update st.mem ino none⟩ :=
    ⟨hgeo, fun j hj => by simp [hused, hj], fun j hj => update_of_ne hj _ _, htables⟩
  refine ⟨⟨he, hapart, hnot⟩, h.change he ?_ fun inode₁ h₁ => ?_⟩
  · rw [@live_of_not ⟨fs', _⟩ _ hnot]
    exact howned
  · cases hnone.symm.trans h₁

end Live

end Osx64.Ext2
