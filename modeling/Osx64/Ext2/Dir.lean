import Osx64.Ext2.File

/-!
# Directories

A directory block is a chain of records: an inode number (zero for a deleted record),
the length of the record, the length of the name, a file type, and the name.
`ext2_lookup`, `ext2_dir_add_entry`, `ext2_dir_remove_entry` and the emptiness check of
`ext2_rmdir` walk this chain with the same loop; `scanBlock` is that loop, with what
is done at a record as a parameter, and `scanDir` the loop around it over the blocks of
the directory.

A name is a list of bytes, the C string without its terminator.  The loops trust the
chain: a record length of zero keeps them in place forever, and a length or name that
leads out of the buffer makes them read or write outside of it.
-/

namespace Osx64.Ext2

/-! ## Records -/

/-- `de->inode` of the record at offset `o` -/
def deInode (b : Buf) (o : Nat) : Nat := b.get32 o

/-- `de->rec_len` -/
def deRecLen (b : Buf) (o : Nat) : Nat := b.get16 (o + 4)

/-- `de->name_len` -/
def deNameLen (b : Buf) (o : Nat) : Nat := (b (o + 6)).toNat

/-- The first `len` bytes of `de->name`. -/
def deName (b : Buf) (o len : Nat) : List UInt8 := (List.range len).map fun k => b (o + 8 + k)

/-- `memcpy(de->name, name, name_len)` -/
def putName (b : Buf) (o : Nat) (name : List UInt8) : Buf :=
  b.blit (o + 8) (fun k => name.getD k 0) name.length

/-- The fields of a live record other than its length. -/
def putEntry (b : Buf) (o ino type : Nat) (name : List UInt8) : Buf :=
  putName (((b.put32 o ino).put8 (o + 6) name.length).put8 (o + 7) type) o name

/-- `de->rec_len = len` -/
def putRecLen (b : Buf) (o len : Nat) : Buf := b.put16 (o + 4) (u16 len)

/-- `EXT2_DIR_REC_LEN` -/
def dirRecLen (nameLen : Nat) : Nat := u16 ((u16 (8 + u16 nameLen) + 3) / 4 * 4)

/-- Conversion to `int16_t`. -/
def s16 (x : Int) : Int := if x % 2 ^ 16 < 2 ^ 15 then x % 2 ^ 16 else x % 2 ^ 16 - 2 ^ 16

/-- The free space `ext2_dir_add_entry` sees behind the name of a record. -/
def freeSpaceOf (b : Buf) (o : Nat) : Int :=
  s16 (s16 (deRecLen b o) - dirRecLen (deNameLen b o))

/-- A deleted record that is long enough for a name, or a live one with enough behind its own. -/
def HasRoom (b : Buf) (o nameLen : Nat) : Prop :=
  if deInode b o = 0 then dirRecLen nameLen ≤ deRecLen b o
  else s16 (dirRecLen nameLen) ≤ freeSpaceOf b o
deriving Decidable

/-- The offset of the `n`-th record behind the one at `o`. -/
def recordAt (b : Buf) (o : Nat) : Nat → Nat
  | 0 => o
  | n + 1 => recordAt b (o + deRecLen b o) n

theorem le_recordAt (b : Buf) (o n : Nat) : o ≤ recordAt b o n := by
  induction n generalizing o with
  | zero => exact le_rfl
  | succ n ih => exact (Nat.le_add_right o _).trans (ih _)

/-! ## The loops -/

/-- The loop over the records of one block from offset `o` on, `prev` being the record
before it.  A round advances by at least one byte, so `bs` rounds are enough. -/
def scanBlock {α : Type} (bs : Nat) (b : Buf)
    (visit : Option Nat → Nat → Except Fault (Option α)) (prev : Option Nat) (o : Nat) :
    Nat → Except Fault (Option α)
  | 0 => .ok none
  | fuel + 1 =>
    if bs ≤ o then .ok none
    else if bs < o + 8 then .error .wild
    else match visit prev o with
      | .error e => .error e
      | .ok (some a) => .ok (some a)
      | .ok none =>
        if deRecLen b o = 0 then .error .hang
        else scanBlock bs b visit (some o) (o + deRecLen b o) fuel

section ScanNone

variable {α : Type} {bs : Nat} {b : Buf} {visit : Option Nat → Nat → Except Fault (Option α)}
  {prev : Option Nat} {o fuel : Nat}

theorem scanBlock_none_step (h : scanBlock bs b visit prev o fuel = .ok none)
    (hfuel : bs ≤ o + fuel) (hin : o < bs) : visit prev o = .ok none ∧
      ∃ fuel', bs ≤ o + deRecLen b o + fuel' ∧
        scanBlock bs b visit (some o) (o + deRecLen b o) fuel' = .ok none := by
  obtain ⟨fuel, rfl⟩ := Nat.exists_eq_succ_of_ne_zero (show fuel ≠ 0 by omega)
  rw [scanBlock, if_neg (by omega)] at h
  split at h
  · cases h
  · cases hvisit : visit prev o with
    | error e => simp [hvisit] at h
    | ok result => cases result with
      | some a => simp [hvisit] at h
      | none =>
        simp only [hvisit] at h
        split at h
        · cases h
        · exact ⟨rfl, fuel, by omega, h⟩

/-- A loop that finds nothing has looked at every record. -/
theorem scanBlock_none (h : scanBlock bs b visit prev o fuel = .ok none) (hfuel : bs ≤ o + fuel)
    {n : Nat} (hn : recordAt b o n < bs) : ∃ prev, visit prev (recordAt b o n) = .ok none := by
  induction n generalizing prev o fuel with
  | zero => exact ⟨prev, (scanBlock_none_step h hfuel hn).1⟩
  | succ n ih =>
    have hin := (le_recordAt b o (n + 1)).trans_lt hn
    obtain ⟨-, fuel', hfuel', hrest⟩ := scanBlock_none_step h hfuel hin
    exact ih hrest hfuel' hn

end ScanNone

/-- What a search over the blocks of a directory comes to. -/
inductive Found (α : Type)
  | here (a : α)
  | missing
  | ioError
  deriving DecidableEq

/-- The loop over the blocks of a directory; holes are passed over. -/
def scanDir {α : Type} (fs : Fs) (ei : Buf)
    (visit : Buf → Option Nat → Nat → Except Fault (Option α)) :
    List Nat → Except Fault (Found (Nat × α))
  | [] => .ok .missing
  | l :: rest =>
    let block := bmap fs ei l
    if block = 0 then scanDir fs ei visit rest
    else match fs.readBlock block with
      | none => .ok .ioError
      | some b =>
        match scanBlock fs.geo.blockSize b (visit b) none 0 fs.geo.blockSize with
        | .error e => .error e
        | .ok (some a) => .ok (.here (block, a))
        | .ok none => scanDir fs ei visit rest

/-- What a search finds is found in a block of the directory that can be read. -/
theorem scanDir_here {α : Type} {fs : Fs} {ei : Buf}
    {visit : Buf → Option Nat → Nat → Except Fault (Option α)} {blocks : List Nat} {block : Nat}
    {a : α} (h : scanDir fs ei visit blocks = .ok (.here (block, a))) :
    ∃ l ∈ blocks, bmap fs ei l = block ∧ block ≠ 0 ∧ ∃ b, fs.readBlock block = some b ∧
      scanBlock fs.geo.blockSize b (visit b) none 0 fs.geo.blockSize = .ok (some a) := by
  induction blocks with
  | nil => cases h
  | cons l rest ih =>
    rw [scanDir] at h
    by_cases hhole : bmap fs ei l = 0
    · simp only [hhole, if_true] at h
      obtain ⟨k, hk, hfound⟩ := ih h
      exact ⟨k, List.mem_cons_of_mem l hk, hfound⟩
    simp only [hhole, if_false] at h
    cases hread : fs.readBlock (bmap fs ei l) with
    | none => simp only [hread] at h; cases h
    | some b =>
      simp only [hread] at h
      cases hscan : scanBlock fs.geo.blockSize b (visit b) none 0 fs.geo.blockSize with
      | error e => simp only [hscan] at h; cases h
      | ok result =>
        simp only [hscan] at h
        cases result with
        | none =>
          obtain ⟨k, hk, hfound⟩ := ih h
          exact ⟨k, List.mem_cons_of_mem l hk, hfound⟩
        | some a' =>
          cases h
          exact ⟨l, List.mem_cons_self, rfl, hhole, b, hread, hscan⟩

/-- A search that finds nothing has read every block that is there. -/
theorem scanDir_missing {α : Type} {fs : Fs} {ei : Buf}
    {visit : Buf → Option Nat → Nat → Except Fault (Option α)} {blocks : List Nat}
    (h : scanDir fs ei visit blocks = .ok .missing) {l : Nat} (hl : l ∈ blocks)
    (hne : bmap fs ei l ≠ 0) : ∃ b, fs.readBlock (bmap fs ei l) = some b ∧
      scanBlock fs.geo.blockSize b (visit b) none 0 fs.geo.blockSize = .ok none := by
  induction blocks with
  | nil => cases hl
  | cons k rest ih =>
    rw [scanDir] at h
    by_cases hhole : bmap fs ei k = 0
    · simp only [hhole, if_true] at h
      rcases List.mem_cons.mp hl with rfl | hl
      · exact absurd hhole hne
      · exact ih h hl
    simp only [hhole, if_false] at h
    cases hread : fs.readBlock (bmap fs ei k) with
    | none => simp [hread] at h
    | some b =>
      simp only [hread] at h
      cases hscan : scanBlock fs.geo.blockSize b (visit b) none 0 fs.geo.blockSize with
      | error e => simp [hscan] at h
      | ok result =>
        cases result with
        | some a => simp [hscan] at h
        | none =>
          simp only [hscan] at h
          rcases List.mem_cons.mp hl with rfl | hl
          · exact ⟨b, hread, hscan⟩
          · exact ih h hl

/-- The logical blocks of a directory. -/
def dirBlocks (fs : Fs) (dir : Inode) : List Nat := List.range (sizeBlocks fs.geo dir.size)

/-! ## Lookup -/

/-- Is this record live, with this name? -/
def matchName (bs : Nat) (name : List UInt8) (b : Buf) (_prev : Option Nat) (o : Nat) :
    Except Fault (Option Nat) :=
  if deInode b o = 0 then .ok none
  else if deNameLen b o = name.length then
    if bs < o + 8 + name.length then .error .wild
    else if deName b o name.length = name then .ok (some (deInode b o))
    else .ok none
  else .ok none

/-- The inode number `ext2_lookup` finds. -/
def lookupIno (fs : Fs) (dir : Inode) (name : List UInt8) : Except Fault (Option Nat) :=
  (scanDir fs dir.ei (matchName fs.geo.blockSize name) (dirBlocks fs dir)).map fun
    | .here (_, ino) => some ino
    | .missing => none
    | .ioError => none

/-- `ext2_lookup`; `none` is `-1`. -/
def lookup (fs : Fs) (dir : Inode) (name : List UInt8) : Except Fault (Option Inode) :=
  (lookupIno fs dir name).map fun r => r.bind (iget fs)

/-! ## Adding an entry -/

/-- Can the new record be placed here: over a deleted one, or behind the name of a live
one?  The result is the changed block. -/
def placeEntry (bs ino type : Nat) (name : List UInt8) (b : Buf) (_prev : Option Nat) (o : Nat) :
    Except Fault (Option Buf) :=
  let recLen := dirRecLen name.length
  let minLen := dirRecLen (deNameLen b o)
  let freeSpace := s16 (s16 (deRecLen b o) - minLen)
  if deInode b o = 0 then
    if deRecLen b o ≥ recLen then
      if bs < o + 8 + name.length then .error .wild
      else .ok (some (putEntry b o ino type name))
    else .ok none
  else if freeSpace ≥ s16 recLen then
    if bs < o + minLen + 8 + name.length then .error .wild
    else
      let b := putRecLen b (o + minLen) (freeSpace % 2 ^ 16).toNat
      .ok (some (putRecLen (putEntry b (o + minLen) ino type name) o minLen))
  else .ok none

theorem placeEntry_none {bs ino type : Nat} {name : List UInt8} {b : Buf} {prev : Option Nat}
    {o : Nat} (h : placeEntry bs ino type name b prev o = .ok none) : ¬HasRoom b o name.length := by
  intro hroom
  rw [HasRoom, freeSpaceOf] at hroom
  unfold placeEntry at h
  by_cases hlive : deInode b o = 0
  · rw [if_pos hlive] at hroom
    simp only [hlive, if_true, hroom, ge_iff_le] at h
    split at h <;> cases h
  · rw [if_neg hlive] at hroom
    simp only [hlive, if_false, hroom, ge_iff_le, if_true] at h
    split at h <;> cases h

/-- The block `ext2_dir_add_entry` writes when it appends one. -/
def newDirBlock (bs ino type : Nat) (name : List UInt8) : Buf :=
  putEntry (putRecLen Buf.zero 0 bs) 0 ino type name

/-- `ext2_dir_add_entry`; `false` is `-1`. -/
def dirAddEntry (fs : Fs) (dir : Inode) (name : List UInt8) (ino type : Nat) :
    Except Fault (Fs × Inode × Bool) :=
  let bs := fs.geo.blockSize
  match scanDir fs dir.ei (placeEntry bs ino type name) (dirBlocks fs dir) with
  | .error e => .error e
  | .ok (.here (block, b)) =>
    match fs.writeBlock block b with
    | none => .ok (fs, dir, false)
    | some fs => .ok (fs, dir, true)
  | .ok .ioError => .ok (fs, dir, false)
  | .ok .missing =>
    let (w, result) := (⟨fs, dir.ei, false⟩ : Work).bmapAlloc (sizeBlocks fs.geo dir.size)
    let block := result.getD minusOne
    if block = minusOne then .ok (w.fs, { dir with ei := w.ei }, false)
    else if bs < 8 + name.length then .error .wild
    else match w.fs.writeBlock block (newDirBlock bs ino type name) with
      | none => .ok (w.fs, { dir with ei := w.ei }, false)
      | some fs =>
        let size := u64 (dir.size + bs)
        let ei := setISize w.ei (u32 size)
        .ok (fs.putInode dir.ino ei, { dir with size, ei }, true)

/-! ## Removing an entry -/

/-- Is this the record of inode `ino`?  The result is the block without it: the record
is merged into the one before it, and a deleted record behind it is merged too. -/
def dropEntry (bs ino : Nat) (b : Buf) (prev : Option Nat) (o : Nat) :
    Except Fault (Option Buf) :=
  if deInode b o = ino then
    let b := (b.put32 o 0).put8 (o + 6) 0
    let next := o + deRecLen b o
    let keeper := prev.getD o
    let b := if prev.isSome then putRecLen b keeper (deRecLen b keeper + deRecLen b o) else b
    if next < bs then
      if bs < next + 8 then .error .wild
      else if deInode b next = 0 then
        .ok (some (putRecLen b keeper (deRecLen b keeper + deRecLen b next)))
      else .ok (some b)
    else .ok (some b)
  else .ok none

/-- `ext2_dir_remove_entry`; `false` is `-1`. -/
def dirRemoveEntry (fs : Fs) (dir : Inode) (ino : Nat) : Except Fault (Fs × Bool) :=
  match scanDir fs dir.ei (dropEntry fs.geo.blockSize ino) (dirBlocks fs dir) with
  | .error e => .error e
  | .ok (.here (block, b)) =>
    match fs.writeBlock block b with
    | none => .ok (fs, false)
    | some fs => .ok (fs, true)
  | .ok _ => .ok (fs, false)

/-! ## Emptiness -/

/-- Is this a live record other than `.` and `..`? -/
def otherThanDots (bs : Nat) (b : Buf) (_prev : Option Nat) (o : Nat) :
    Except Fault (Option Unit) :=
  if deInode b o = 0 then .ok none
  else if deNameLen b o = 1 then
    if bs < o + 9 then .error .wild
    else if b (o + 8) = 46 then .ok none else .ok (some ())
  else if deNameLen b o = 2 then
    if bs < o + 10 then .error .wild
    else if b (o + 8) = 46 ∧ b (o + 9) = 46 then .ok none else .ok (some ())
  else .ok (some ())

end Osx64.Ext2
