import Osx64.Ext2.BlockMap
import Osx64.Ext2.Uuid

/-!
# Setting the UUID of a volume

`write_uuid` reads the superblock of a partition, puts the new UUID into it and writes it back.  The
test after the read is the wrong way round: `ext2_write_uuid` gives up when the read has succeeded,
and goes on when it has failed, with whatever the buffer from `kmalloc` holds.  So on a working
device no UUID is ever set, and on a failing one the outcome depends on the old contents of the
buffer.
-/

namespace Osx64.Ext2

open Buf

def magicOffset : Nat := 0x38
def uuidOffset : Nat := 0x68
def superMagic : Nat := 0xEF53
def partitionLinux : Nat := 0x83

/-- What `partition_t` holds for these functions; `uuid` is the text `part->uuid` points to. -/
structure Partition where
  startLba : Nat
  sectorCount : Nat
  partType : Nat
  uuid : Option (List UInt8)

/-- One answer of the disk's driver: what it returns, and what it leaves behind if that is an
error (in the buffer of a read, on the disk for a write). -/
structure Answer where
  ret : Int
  left : Buf

/-- `partition_read(&part->device, lba, cnt, buf)` -/
def partitionRead (part : Partition) (disk : Buf) (answer : Answer) (lba cnt : Nat) (buf : Buf) :
    Int × Buf :=
  if part.sectorCount < lba + cnt then (-1, buf)
  else if answer.ret = 0 then
    (0, buf.blit 0 (disk.drop (512 * (part.startLba + lba))) (512 * cnt))
  else (answer.ret, answer.left)

/-- `partition_write(&part->device, lba, cnt, buf)` -/
def partitionWrite (part : Partition) (disk : Buf) (answer : Answer) (lba cnt : Nat) (buf : Buf) :
    Int × Buf :=
  if part.sectorCount < lba + cnt then (-1, disk)
  else if answer.ret = 0 then (0, disk.blit (512 * (part.startLba + lba)) buf (512 * cnt))
  else (answer.ret, answer.left)

/-- `ext2_read_uuid`; `fresh` is what `kmalloc` returns. -/
def ext2ReadUuid (part : Partition) (disk : Buf) (answer : Answer) (fresh : Buf) : Partition :=
  let (ret, buf) := partitionRead part disk answer 2 2 fresh
  if ret ≠ 0 then part
  else if buf.get16 magicOffset ≠ superMagic then part
  else { part with uuid := some (uuidToString (buf.drop uuidOffset)) }

/-- `ext2_write_uuid`: what it returns and the disk it leaves. -/
def ext2WriteUuid (part : Partition) (disk : Buf) (reading writing : Answer) (fresh str : Buf) :
    Except Fault (Int × Buf) :=
  let (ret, buf) := partitionRead part disk reading 2 2 fresh
  -- the source's test: `if (!partition_read(…)) return -1`
  if ret = 0 then .ok (-1, disk)
  else if buf.get16 magicOffset ≠ superMagic then .ok (-1, disk)
  else
    let (parsed, bytes) := uuidFromString str
    -- `uint8_t new_uuid[16]` is on the stack
    if 16 < bytes.length then .error .wild
    else if parsed ≠ 0 then .ok (-1, disk)
    else .ok (0, (partitionWrite part disk writing 2 2 (buf.blit uuidOffset (ofText bytes) 16)).2)

/-- `write_uuid`: what it returns, the partition and the disk. -/
def writeUuid (part : Partition) (disk : Buf) (reading writing : Answer) (fresh str : Buf) :
    Except Fault (Int × Partition × Buf) :=
  if part.partType = partitionLinux then
    (ext2WriteUuid part disk reading writing fresh str).map fun (ret, disk) =>
      if ret = 0 then (0, { part with uuid := some (uuidText str) }, disk) else (ret, part, disk)
  else .ok (-1, part, disk)

/-! ## What the call does -/

/-- The read of the superblock returns 0. -/
def ReadOk (part : Partition) (reading : Answer) : Prop :=
  4 ≤ part.sectorCount ∧ reading.ret = 0

/-- The superblock on the disk has the magic of ext2. -/
def HasMagic (part : Partition) (disk : Buf) : Prop :=
  (disk.drop (512 * (part.startLba + 2))).get16 magicOffset = superMagic

/-- What the buffer holds after a read that has failed. -/
def leftover (part : Partition) (reading : Answer) (fresh : Buf) : Buf :=
  if part.sectorCount < 4 then fresh else reading.left

variable {part : Partition} {disk : Buf} {reading writing : Answer} {fresh str : Buf}

theorem partitionRead_ok (hread : ReadOk part reading) :
    partitionRead part disk reading 2 2 fresh =
      (0, fresh.blit 0 (disk.drop (512 * (part.startLba + 2))) 1024) := by
  have hcount : ¬part.sectorCount < 2 + 2 := by
    have := hread.1
    omega
  simp [partitionRead, hcount, hread.2]

theorem partitionRead_failed (disk fresh : Buf) (hread : ¬ReadOk part reading) :
    (partitionRead part disk reading 2 2 fresh).1 ≠ 0 ∧
      (partitionRead part disk reading 2 2 fresh).2 = leftover part reading fresh := by
  rw [partitionRead, leftover]
  by_cases hcount : part.sectorCount < 4
  · simp [hcount]
  · have hret : reading.ret ≠ 0 := fun hzero => hread ⟨by omega, hzero⟩
    simp [hcount, hret]

/-- On a device that can be read nothing happens. -/
theorem writeUuid_readable (hlinux : part.partType = partitionLinux) (hread : ReadOk part reading) :
    writeUuid part disk reading writing fresh str = .ok (-1, part, disk) := by
  simp [writeUuid, hlinux, ext2WriteUuid, partitionRead_ok hread, Except.map]

/-- Nor does it without the magic in the buffer that could not be filled. -/
theorem writeUuid_noMagic (hlinux : part.partType = partitionLinux) (hread : ¬ReadOk part reading)
    (hmagic : (leftover part reading fresh).get16 magicOffset ≠ superMagic) :
    writeUuid part disk reading writing fresh str = .ok (-1, part, disk) := by
  obtain ⟨hret, hbuf⟩ := partitionRead_failed disk fresh hread
  simp [writeUuid, hlinux, ext2WriteUuid, hret, hbuf, hmagic, Except.map]

section Leftover

/-! With the magic there the text decides. -/

variable (hlinux : part.partType = partitionLinux) (hread : ¬ReadOk part reading)
  (hmagic : (leftover part reading fresh).get16 magicOffset = superMagic)

include hlinux hread hmagic

theorem writeUuid_overrun (hmore : 16 < (uuidFromString str).2.length) :
    writeUuid part disk reading writing fresh str = .error .wild := by
  obtain ⟨hret, hbuf⟩ := partitionRead_failed disk fresh hread
  simp [writeUuid, hlinux, ext2WriteUuid, hret, hbuf, hmagic, hmore, Except.map]

theorem writeUuid_malformed (hwithin : ¬16 < (uuidFromString str).2.length)
    (hparsed : (uuidFromString str).1 ≠ 0) :
    writeUuid part disk reading writing fresh str = .ok (-1, part, disk) := by
  obtain ⟨hret, hbuf⟩ := partitionRead_failed disk fresh hread
  simp [writeUuid, hlinux, ext2WriteUuid, hret, hbuf, hmagic, hwithin, hparsed, Except.map]

theorem writeUuid_accepted (hwithin : ¬16 < (uuidFromString str).2.length)
    (hparsed : (uuidFromString str).1 = 0) :
    ∃ disk', writeUuid part disk reading writing fresh str =
      .ok (0, { part with uuid := some (uuidText str) }, disk') := by
  obtain ⟨hret, hbuf⟩ := partitionRead_failed disk fresh hread
  simp [writeUuid, hlinux, ext2WriteUuid, hret, hbuf, hmagic, hwithin, hparsed, Except.map]

end Leftover

/-! ## What it should do -/

/-- The contract of `write_uuid`. -/
structure SetsUuid (part : Partition) (disk : Buf) (reading writing : Answer) (fresh str : Buf) :
    Prop where
  /-- on a working device with an ext2 volume a valid UUID is set, and nothing else changes -/
  sets : ReadOk part reading → HasMagic part disk → writing.ret = 0 → Canonical str →
    ∃ part' disk', writeUuid part disk reading writing fresh str = .ok (0, part', disk') ∧
      (∀ again fresh', again.ret = 0 →
        (ext2ReadUuid part' disk' again fresh').uuid = some ((uuidText str).map lowerCase)) ∧
      ∀ offset < 512 * part.sectorCount,
        offset < 1024 + uuidOffset ∨ 1024 + uuidOffset + 16 ≤ offset →
        disk' (512 * part.startLba + offset) = disk (512 * part.startLba + offset)
  /-- otherwise there is an error, and nothing changes -/
  refuses : ¬ReadOk part reading ∨ ¬HasMagic part disk ∨ ¬Canonical str →
    ∃ ret, ret ≠ 0 ∧ writeUuid part disk reading writing fresh str = .ok (ret, part, disk)

/-- A call that changes nothing keeps the contract exactly if there was nothing to set. -/
theorem setsUuid_of_unchanged
    (hcall : writeUuid part disk reading writing fresh str = .ok (-1, part, disk)) :
    SetsUuid part disk reading writing fresh str ↔
      ¬(ReadOk part reading ∧ HasMagic part disk ∧ writing.ret = 0 ∧ Canonical str) := by
  constructor
  · rintro hsets ⟨hread, hmagic, hwrite, hcanonical⟩
    obtain ⟨part', disk', hok, -⟩ := hsets.sets hread hmagic hwrite hcanonical
    rw [hcall] at hok
    simp at hok
  · intro hnothing
    refine ⟨fun hread hmagic hwrite hcanonical => ?_, fun _ => ⟨-1, by decide, hcall⟩⟩
    exact absurd ⟨hread, hmagic, hwrite, hcanonical⟩ hnothing

/-- A call that does not report an error after a failed read breaks the contract. -/
theorem not_setsUuid_of_unread (hread : ¬ReadOk part reading)
    (hcall : ∀ ret, ret ≠ 0 → writeUuid part disk reading writing fresh str ≠
      .ok (ret, part, disk)) :
    ¬SetsUuid part disk reading writing fresh str := by
  intro hsets
  obtain ⟨ret, hret, hok⟩ := hsets.refuses (Or.inl hread)
  exact hcall ret hret hok

theorem not_setsUuid_of_accepted (hlinux : part.partType = partitionLinux)
    (hread : ¬ReadOk part reading)
    (hmagic : (leftover part reading fresh).get16 magicOffset = superMagic)
    (hwithin : ¬16 < (uuidFromString str).2.length) (hparsed : (uuidFromString str).1 = 0) :
    ¬SetsUuid part disk reading writing fresh str := by
  obtain ⟨disk', hok⟩ := writeUuid_accepted hlinux hread hmagic hwithin hparsed
  apply not_setsUuid_of_unread hread
  intro ret hret
  rw [hok]
  simp [hret.symm]

/-- `write_uuid` keeps its contract except in two cases: there is a UUID to set and the device
works, or the device cannot be read, the buffer happens to hold the magic, and the text passes
`uuid_from_string` or overruns its array. -/
theorem setsUuid_iff (hlinux : part.partType = partitionLinux) :
    SetsUuid part disk reading writing fresh str ↔
      ¬(ReadOk part reading ∧ HasMagic part disk ∧ writing.ret = 0 ∧ Canonical str) ∧
      ¬(¬ReadOk part reading ∧ (leftover part reading fresh).get16 magicOffset = superMagic ∧
        ((uuidFromString str).1 = 0 ∨ 16 < (uuidFromString str).2.length)) := by
  by_cases hread : ReadOk part reading
  · rw [setsUuid_of_unchanged (writeUuid_readable hlinux hread)]
    simp [hread]
  · by_cases hmagic : (leftover part reading fresh).get16 magicOffset = superMagic
    · by_cases hmore : 16 < (uuidFromString str).2.length
      · have hnot : ¬SetsUuid part disk reading writing fresh str := by
          apply not_setsUuid_of_unread hread
          intro ret _
          simp [writeUuid_overrun hlinux hread hmagic hmore]
        simp [hnot, hread, hmagic, hmore]
      · by_cases hparsed : (uuidFromString str).1 = 0
        · have hnot : ¬SetsUuid part disk reading writing fresh str :=
            not_setsUuid_of_accepted hlinux hread hmagic hmore hparsed
          simp [hnot, hread, hmagic, hparsed]
        · rw [setsUuid_of_unchanged (writeUuid_malformed hlinux hread hmagic hmore hparsed)]
          simp [hread, hmore, hparsed]
    · rw [setsUuid_of_unchanged (writeUuid_noMagic hlinux hread hmagic)]
      simp [hread, hmagic]

/-- An ext2 volume of eight sectors. -/
def uuidPart : Partition := { startLba := 0, sectorCount := 8, partType := 0x83, uuid := none }

/-- Its contents: the magic. -/
def uuidDisk : Buf := zero.put16 (1024 + 0x38) 0xEF53

/-- The UUID of zeros. -/
def zeroUuid : Buf := ofText (uuidToString zero)

theorem setsUuid_iff_unread :
    uuidPart.partType = partitionLinux ∧
    SetsUuid uuidPart uuidDisk ⟨-1, zero⟩ ⟨0, zero⟩ zero zeroUuid := by
  refine ⟨rfl, (setsUuid_iff rfl).2 ⟨?_, ?_⟩⟩
  · rintro ⟨⟨-, hzero⟩, -⟩
    exact absurd hzero (by decide)
  · rintro ⟨-, hmagic, -⟩
    exact absurd hmagic (by decide)

/-- On a working device a valid UUID is not set, and on a failing one with a superblock left over in
the buffer it is reported as set. -/
theorem not_setsUuid_of_working :
    ¬SetsUuid uuidPart uuidDisk ⟨0, zero⟩ ⟨0, zero⟩ zero zeroUuid ∧
    ¬SetsUuid uuidPart zero ⟨-1, uuidDisk.drop 1024⟩ ⟨0, zero⟩ zero zeroUuid := by
  constructor
  · rw [setsUuid_of_unchanged (writeUuid_readable rfl ⟨by decide, rfl⟩), not_not]
    exact ⟨⟨by decide, rfl⟩, by unfold HasMagic; decide, rfl, by decide +kernel⟩
  · have hread : ¬ReadOk uuidPart ⟨-1, uuidDisk.drop 1024⟩ := fun hread =>
      absurd hread.2 (by decide)
    exact not_setsUuid_of_accepted rfl hread (by decide) (by decide +kernel) (by decide +kernel)

end Osx64.Ext2
