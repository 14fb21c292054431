import Osx64.Ext2.Dir

/-!
# Operations on names

`ext2_create`, `ext2_mkdir`, `ext2_unlink` and `ext2_rmdir`, on a volume with the inodes
the VFS has loaded.  The VFS keeps one inode in memory for an inode number; an
operation finds its inodes by their numbers, so that it works on the same copy when two
of them are the same.

Dropping the link count of the VFS inode after a successful `ext2_unlink` or
`ext2_rmdir` is the part of `sys_unlink` and `sys_rmdir` that `ext2_delete` relies on, and
is included.
-/

namespace Osx64.Ext2

open Function

/-- A mounted volume and the inodes in memory. -/
structure State where
  fs : Fs
  mem : Nat → Option Inode

namespace State

/-- Keep `inode` in memory. -/
def store (st : State) (inode : Inode) : State :=
  { st with mem := update st.mem inode.ino (some inode) }

/-- Change the copy of inode `ino` in memory, if there is one. -/
def modify (st : State) (ino : Nat) (f : Inode → Inode) : State :=
  { st with mem := update st.mem ino ((st.mem ino).map f) }

/-- `ext2_write_inode` of the copy in memory; `none` is `-1`. -/
def writeBack (st : State) (ino : Nat) : Option State :=
  (st.mem ino).bind fun inode => (st.fs.writeInode ino inode.ei).map fun fs => { st with fs }

/-- A write-back whose result is not looked at. -/
def putBack (st : State) (ino : Nat) : State := (st.writeBack ino).getD st

end State

/-- `EXT2_FT_REG_FILE` -/
def ftRegFile : Nat := 1

/-- `EXT2_FT_DIR` -/
def ftDir : Nat := 2

/-- `S_IFREG` -/
def sIfReg : Nat := 0x8000

/-- `S_IFDIR` -/
def sIfDir : Nat := 0x4000

/-- The inode `ext2_create` and `ext2_mkdir` start from. -/
def newInode (mode links now : Nat) : Buf :=
  ((((Buf.zero.put16 0 (u16 mode)).put32 8 now).put32 12 now).put32 16 now).put16 26 links

/-- `inode->private_data->i_mtime = now` -/
def Inode.setMtime (now : Nat) (inode : Inode) : Inode :=
  { inode with ei := inode.ei.put32 16 now }

/-- Adding to `i_links_count`, modulo `2^16`. -/
def Inode.addLinks (count : Nat) (inode : Inode) : Inode :=
  { inode with ei := setILinksCount inode.ei (u16 (iLinksCount inode.ei + count)) }

/-- `ei->i_links_count--` -/
def Inode.dropLink : Inode → Inode := Inode.addLinks (2 ^ 16 - 1)

/-- `i_mtime = i_ctime = now` -/
def Inode.touch (now : Nat) (inode : Inode) : Inode := { inode with ei := Ext2.touch inode.ei now }

/-! ## Creation -/

/-- `ext2_create`; `false` is `-1`. -/
def create (st : State) (dirIno : Nat) (name : List UInt8) (mode now : Nat) :
    Except Fault (State × Bool) :=
  match st.mem dirIno, st.fs.allocInode with
  | none, _ => .ok (st, false)
  | some _, none => .ok (st, false)
  | some dir, some (ino, fs) =>
    match fs.writeInode ino (newInode (mode ||| sIfReg) 1 now) with
    | none => .ok ({ st with fs := fs.freeInode ino }, false)
    | some fs =>
      match dirAddEntry fs dir name ino ftRegFile with
      | .error e => .error e
      | .ok (fs, dir, false) => .ok ({ st with fs := fs.freeInode ino }.store dir, false)
      | .ok (fs, dir, true) =>
        let st := { st with fs }.store dir
        match iget fs ino with
        | none => .ok ({ st with fs := fs.freeInode ino }, false)
        | some inode => .ok (((st.store inode).modify dirIno (·.setMtime now)).putBack dirIno, true)

/-- The first block of a new directory: the records of `.` and `..`. -/
def dotBlock (bs ino parent : Nat) : Buf :=
  putEntry (putRecLen (putEntry (putRecLen Buf.zero 0 12) 0 ino ftDir [46]) 12 (bs - 12))
    12 parent ftDir [46, 46]

/-- The rest of `ext2_mkdir` once the inode and its first block are there; `undo` gives
both back. -/
def mkdirLink (st : State) (dirIno : Nat) (name : List UInt8) (now : Nat) (inode : Inode)
    (undo : Fs → Fs) : Except Fault (State × Bool) :=
  match st.mem dirIno with
  | none => .ok (st, false)
  | some dir =>
    match st.fs.writeInode inode.ino inode.ei with
    | none => .ok ({ st with fs := undo st.fs }, false)
    | some fs =>
      match dirAddEntry fs dir name inode.ino ftDir with
      | .error e => .error e
      | .ok (fs, dir, false) => .ok ({ st with fs := undo fs }.store dir, false)
      | .ok (fs, dir, true) =>
        let group := Fs.inodeGroup fs.geo inode.ino
        let usedDirs := update fs.usedDirs group (u16 (fs.usedDirs group + 1))
        let st := (({ st with fs }.store dir).modify dirIno
          fun dir => (dir.touch now).addLinks 1).putBack dirIno
        .ok ({ st with fs := { st.fs with usedDirs } }.store inode, true)

/-- `ext2_mkdir`; `false` is `-1`. -/
def mkdir (st : State) (dirIno : Nat) (name : List UInt8) (mode now : Nat) :
    Except Fault (State × Bool) :=
  match st.mem dirIno, st.fs.allocInode with
  | none, _ => .ok (st, false)
  | some _, none => .ok (st, false)
  | some dir, some (ino, fs) =>
    let inode := createVfsInode (newInode (mode ||| sIfDir) 2 now) ino
    let (w, result) := (⟨fs, inode.ei, false⟩ : Work).bmapAlloc 0
    let block := result.getD minusOne
    if block = minusOne then .ok ({ st with fs := w.fs.freeInode ino }, false)
    else
      let undo (fs : Fs) : Fs := (fs.freeBlock block).freeInode ino
      let bs := w.fs.geo.blockSize
      match w.fs.writeBlock block (dotBlock bs ino dir.ino) with
      | none => .ok ({ st with fs := undo w.fs }, false)
      | some fs =>
        let ei := setIBlocks (setISize w.ei bs) (bs / 512)
        mkdirLink { st with fs } dirIno name now { inode with size := bs, ei } undo

/-! ## Removal -/

/-- What `ext2_unlink` and `ext2_rmdir` share: remove the record of `ino`, drop its link
count on disk, update the parent.  `update` is what happens to the parent's inode. -/
def removeLink (st : State) (dirIno ino : Nat) (update : Inode → Inode) :
    Except Fault (State × Bool) :=
  match st.mem dirIno with
  | none => .ok (st, false)
  | some dir =>
    match dirRemoveEntry st.fs dir ino with
    | .error e => .error e
    | .ok (fs, false) => .ok ({ st with fs }, false)
    | .ok (fs, true) =>
      let st := { st with fs }.modify ino Inode.dropLink
      match st.writeBack ino with
      | none => .ok (st, false)
      | some st =>
        let st := (st.modify dirIno update).putBack dirIno
        .ok (st.modify ino fun inode => { inode with linkCount := inode.linkCount - 1 }, true)

/-- `ext2_unlink`, and the link count of the VFS inode; `false` is `-1`. -/
def unlink (st : State) (dirIno ino now : Nat) : Except Fault (State × Bool) :=
  match st.mem ino with
  | none => .ok (st, false)
  | some inode =>
    if isDir inode.mode then .ok (st, false)
    else removeLink st dirIno ino (·.setMtime now)

/-- `ext2_rmdir`, and the link count of the VFS inode; `false` is `-1`. -/
def rmdir (st : State) (dirIno ino now : Nat) : Except Fault (State × Bool) :=
  match st.mem ino with
  | none => .ok (st, false)
  | some inode =>
    if isDir inode.mode = false then .ok (st, false)
    else match scanDir st.fs inode.ei (otherThanDots st.fs.geo.blockSize)
        (dirBlocks st.fs inode) with
      | .error e => .error e
      | .ok (.here _) => .ok (st, false)
      | .ok .ioError => .ok (st, false)
      | .ok .missing =>
        (removeLink st dirIno ino fun dir => (dir.touch now).dropLink).map fun (st, ok) =>
          if ok then
            let group := Fs.inodeGroup st.fs.geo ino
            let usedDirs :=
              update st.fs.usedDirs group (u16 (st.fs.usedDirs group + (2 ^ 16 - 1)))
            ({ st with fs := { st.fs with usedDirs } }, true)
          else (st, false)

/-! ## Loading and dropping inodes -/

/-- Bring an inode into memory, as `ext2_lookup` does when it has found a record. -/
def load (st : State) (ino : Nat) : State :=
  match st.mem ino, iget st.fs ino with
  | none, some inode => st.store inode
  | _, _ => st

/-- Drop an inode whose last reference is gone. -/
def drop (st : State) (ino : Nat) : State :=
  match st.mem ino with
  | none => st
  | some inode => { fs := delete st.fs inode, mem := update st.mem ino none }

end Osx64.Ext2
