import Osx64.Ext2.Truncate

/-!
# File operations

`ext2_read`, `ext2_write`, `ext2_setattr` and `ext2_delete` on a loaded inode.

A file position is a `loff_t` that `sys_lseek` keeps non-negative; it is a natural
number here, as is the length of a transfer.  `size` is the 64-bit field of the VFS
inode and is compared as a signed number where the source casts it.  The clock is an
argument of the operations that read it.
-/

namespace Osx64.Ext2

/-- The part of a VFS inode ext2 uses, with the `struct ext2_inode` behind
`private_data`. -/
structure Inode where
  ino : Nat
  mode : Nat
  size : Nat
  linkCount : Int
  ei : Buf

/-- `ext2_create_VFS_inode` -/
def createVfsInode (ei : Buf) (ino : Nat) : Inode where
  ino := ino
  mode := iMode ei
  size := iSize ei
  linkCount := if isDir (iMode ei) then 1 else iLinksCount ei
  ei := ei

/-- `ext2_iget`; `none` is `NULL`. -/
def iget (fs : Fs) (ino : Nat) : Option Inode :=
  (fs.readInode ino).map fun ei => createVfsInode ei ino

/-- `(int64_t)size` -/
def signed (size : Nat) : Int := if size < 2 ^ 63 then size else size - 2 ^ 64

/-- A call of `ext2_write_inode` whose result is not looked at. -/
def Fs.putInode (fs : Fs) (ino : Nat) (ei : Buf) : Fs := (fs.writeInode ino ei).getD fs

/-! ## Reading -/

/-- The loop of `ext2_read`: the position it stops at, and the bytes it copied unless a
block could not be read.  Every round copies at least one byte, so `count` rounds are
enough. -/
def readLoop (fs : Fs) (ei : Buf) (pos count : Nat) : Nat → Nat × Option (List UInt8)
  | 0 => (pos, some [])
  | fuel + 1 =>
    if count = 0 then (pos, some [])
    else
      let bs := fs.geo.blockSize
      let offset := pos % bs
      let toRead := min (bs - offset) count
      let block := bmap fs ei (u32 (pos / bs))
      let buf := if block = 0 then some Buf.zero else fs.readBlock block
      if block = minusOne then (pos, none)
      else match buf with
        | none => (pos, none)
        | some buf =>
          let rest := readLoop fs ei (pos + toRead) (count - toRead) fuel
          (rest.1, rest.2.map ((List.range toRead).map (fun j => buf (offset + j)) ++ ·))

/-- `ext2_read`: the new file position, and the bytes read; `none` is `-1`. -/
def read (fs : Fs) (inode : Inode) (len pos : Nat) : Nat × Option (List UInt8) :=
  if (pos : Int) ≥ signed inode.size then (pos, some [])
  else
    let count := if u64 (pos + len) > inode.size then inode.size - pos else len
    readLoop fs inode.ei pos count count

/-! ## Writing -/

/-- One round of the loop of `ext2_write`: `len` bytes from `data`, `done` bytes into it,
at an offset of a logical block. -/
def writeChunk (data : Buf) (w : Work) (logical offset len done : Nat) : Work × Bool :=
  let (w, result) := w.bmapAlloc logical
  let block := result.getD minusOne
  if block = minusOne then (w, false)
  else
    -- a block that is overwritten whole is not read first
    match if len = w.fs.geo.blockSize then some Buf.zero else w.fs.readBlock block with
    | none => (w, false)
    | some buf =>
      match w.fs.writeBlock block (buf.blit offset (data.drop done) len) with
      | none => (w, false)
      | some fs => ({ w with fs }, true)

/-- The loop of `ext2_write`: the work done, the position it stops at, and whether it
came to the end. -/
def writeLoop (data : Buf) (w : Work) (pos count done : Nat) : Nat → Work × Nat × Bool
  | 0 => (w, pos, true)
  | fuel + 1 =>
    if count = 0 then (w, pos, true)
    else
      let bs := w.fs.geo.blockSize
      let toWrite := min (bs - pos % bs) count
      match writeChunk data w (u32 (pos / bs)) (pos % bs) toWrite done with
      | (w, false) => (w, pos, false)
      | (w, true) => writeLoop data w (pos + toWrite) (count - toWrite) (done + toWrite) fuel

/-- The state and the answer of `ext2_write`. -/
structure WriteResult where
  fs : Fs
  inode : Inode
  /-- `*ppos` -/
  pos : Nat
  /-- the number of bytes written; `none` is `-1` -/
  ret : Option Nat

/-- `ext2_write` -/
def write (fs : Fs) (inode : Inode) (data : Buf) (len pos now : Nat) : WriteResult :=
  let (w, stop, ok) := writeLoop data ⟨fs, inode.ei, false⟩ pos len 0 len
  let ret := if ok then some len else none
  if (ok ∧ 0 < len) ∨ w.dirty then
    let size := if (stop : Int) > signed inode.size then stop else inode.size
    let ei := touch (setISize w.ei (u32 size)) now
    let inode := { inode with size, ei }
    match w.fs.writeInode inode.ino ei with
    | none => { fs := w.fs, inode, pos, ret := none }
    | some fs => { fs, inode, pos := if ok ∧ 0 < len then stop else pos, ret }
  else { fs := w.fs, inode := { inode with ei := w.ei }, pos, ret }

/-! ## Changing the size -/

/-- `ext2_setattr`; without a size in the request it does nothing.  `false` is `-1`. -/
def setattr (fs : Fs) (inode : Inode) (attr : Option Int) (now : Nat) :
    Except Fault (Fs × Inode × Bool) :=
  match attr with
  | none => .ok (fs, inode, true)
  | some newSize =>
    let resize (fs : Fs) (ei : Buf) : Fs × Inode × Bool :=
      let ei := touch (setISize ei (newSize % 2 ^ 32).toNat) now
      (fs.putInode inode.ino ei, { inode with size := (newSize % 2 ^ 64).toNat, ei }, true)
    if newSize = signed inode.size then .ok (fs, inode, true)
    else if newSize < signed inode.size then
      (truncateBlocks fs inode.ei inode.size newSize).map fun (fs, ei, ok) =>
        if ok then resize fs ei else (fs, { inode with ei }, false)
    else .ok (resize fs inode.ei)

/-! ## The last reference -/

/-- `ext2_delete`, called when the last reference to a loaded inode goes away. -/
def delete (fs : Fs) (inode : Inode) : Fs :=
  if inode.linkCount = 0 then
    ((freeAllBlocks fs inode.ei).putInode inode.ino Buf.zero).freeInode inode.ino
  else fs

end Osx64.Ext2
