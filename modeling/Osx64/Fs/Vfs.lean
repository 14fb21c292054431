import Mathlib.Logic.Function.Basic

/-!
# The name space

Dentries, inodes and super blocks with their reference counts, and the functions of `fs/fs.c`
that work on them.  The file systems below are a table of functions, as in the source: a
`Backend` stands for the `inode_operations` and `super_operations` of ramfs, devfs and ext2
together, and its functions find the right one through the super block of the inode.

Objects are numbered and numbers are not used again.  A freed object keeps its contents, and
its number is in the log `freed`; a function that followed a pointer to it would read what was
there.  `kmalloc` never returns `NULL`, so the branches for that are left out.  Calls do not
interleave, so locks are left out, and so is the second search of the child list in
`__vfs_lookup_locked`.
-/

namespace Osx64.Vfs

open Function

/-! ## Paths -/

abbrev Name := List UInt8

abbrev Path := List UInt8

def slash : UInt8 := 47

/-- `"."` -/
def dot : Name := [46]

/-- `".."` -/
def dotdot : Name := [46, 46]

/-- The strings that `strtok_r(path, "/")` gives one after the other. -/
def tokens (path : Path) : List Name :=
  (path.splitOnP (· == slash)).filter (· ≠ [])

/-- `split_path`: the path of the parent directory and the last component.  The component goes
on to the end of the path, so slashes behind it are a part of it. -/
def splitPath (path : Path) : Option (Path × Name) :=
  if path = [] then none
  else
    match path.reverse.dropWhile (· == slash) with
    | [] => some ([slash], [])
    | trimmed =>
      match trimmed.dropWhile (· != slash) with
      | [] => some ([], path)
      | _ :: parent =>
        let name := path.drop (parent.length + 1)
        match parent.dropWhile (· == slash) with
        | [] => some ([slash], name)
        | dir => some (dir.reverse, name)

/-! ## Objects -/

/-- `S_ISDIR` -/
def isDir (mode : Nat) : Bool := mode &&& 0o170000 == 0o040000

/-- `S_ISREG` -/
def isReg (mode : Nat) : Bool := mode &&& 0o170000 == 0o100000

/-- The fields of `inode_t` that do not change; `priv` is `private_data`. -/
structure Attr where
  mode : Nat
  sb : Nat
  priv : Nat
deriving DecidableEq, Inhabited

/-- `inode_t` -/
structure Inode extends Attr where
  refcount : Int
  linkCount : Int
deriving DecidableEq, Inhabited

/-- The fields of `dentry_t` that say where it is in the tree. -/
structure Link where
  name : Name
  inode : Option Nat
  parent : Option Nat
  children : List Nat
  /-- `DENTRY_FLAG_MOUNTPOINT` -/
  mountpoint : Bool
  /-- `DENTRY_BLOCK_DEV` -/
  blockDev : Bool
  /-- `DENTRY_CHARACTER_DEV` -/
  charDev : Bool
  deleted : Bool
  mountedHere : Option Nat
  inMnt : Option Nat
deriving DecidableEq, Inhabited

/-- `dentry_t` -/
structure Dentry extends Link where
  refcount : Int
  inCacheList : Bool
deriving DecidableEq, Inhabited

/-- `super_block_t`, but for `fs_ref`. -/
structure SuperBlock where
  fsType : Nat
  root : Option Nat
  mountpoint : Option Nat
  part : Option Nat
deriving DecidableEq, Inhabited

/-- A block device: `partition_t`, or a whole disk if `partition` is false. -/
structure Part where
  partition : Bool
  partType : Nat
  mountedSb : Option Nat
  fsDentry : Option Nat
deriving DecidableEq, Inhabited

/-- What a file system says about an inode it has made. -/
structure NewInode where
  mode : Nat
  priv : Nat
  refcount : Int
  linkCount : Int

/-- The functions of the file systems, on a state of their own.  A function that is missing in
a table is one that fails; `openFile` also stands for the check that there are `file_ops`. -/
structure Backend (β : Type) where
  readRootInode : β → Nat → SuperBlock → β × Option NewInode
  putSuper : β → Nat → SuperBlock → β
  lookup : β → Attr → Name → β × Option NewInode
  create : β → Attr → Name → Nat → β × Option NewInode
  mkdir : β → Attr → Name → Nat → β × Option NewInode
  unlink : β → Attr → Name → Attr → β × Bool
  rmdir : β → Attr → Name → Attr → β × Bool
  rename : β → Attr → Name → Attr → Attr → Name → β × Bool
  setattr : β → Attr → Int → β × Bool
  delete : β → Inode → β
  openFile : β → Attr → β × Bool
  releaseFile : β → Attr → β

/-- `vfs_mgr` with everything it leads to, the block devices, and the state of the file
systems. -/
structure Fs (β : Type) where
  dentry : Nat → Dentry
  next : Nat
  freed : List Nat
  inode : Nat → Inode
  nextInode : Nat
  freedInodes : List Nat
  sb : Nat → SuperBlock
  /-- `fs_ref` of each super block -/
  fsRef : Nat → Int
  nextSb : Nat
  part : Nat → Part
  mountList : List Nat
  cacheList : List Nat
  cacheNum : Int
  root : Nat
  backend : β

variable {β : Type}

namespace Fs

/-! ## References -/

section References

variable (ops : Backend β)

def modify (fs : Fs β) (d : Nat) (f : Dentry → Dentry) : Fs β :=
  { fs with dentry := update fs.dentry d (f (fs.dentry d)) }

def modifyInode (fs : Fs β) (i : Nat) (f : Inode → Inode) : Fs β :=
  { fs with inode := update fs.inode i (f (fs.inode i)) }

def modifySb (fs : Fs β) (s : Nat) (f : SuperBlock → SuperBlock) : Fs β :=
  { fs with sb := update fs.sb s (f (fs.sb s)) }

def modifyPart (fs : Fs β) (q : Nat) (f : Part → Part) : Fs β :=
  { fs with part := update fs.part q (f (fs.part q)) }

/-- The inode of a dentry in the tree. -/
def inodeOf (fs : Fs β) (d : Nat) : Inode := (fs.dentry d).inode.elim default fs.inode

/-- `dentry_get` -/
def dentryGet (fs : Fs β) (d : Nat) : Fs β :=
  fs.modify d fun x => { x with refcount := x.refcount + 1 }

/-- `inode_get` -/
def inodeGet (fs : Fs β) (i : Nat) : Fs β :=
  fs.modifyInode i fun x => { x with refcount := x.refcount + 1 }

/-- `inode_put` -/
def inodePut (fs : Fs β) (i : Nat) : Fs β :=
  let fs := fs.modifyInode i fun x => { x with refcount := x.refcount - 1 }
  if (fs.inode i).refcount = 0 then
    { fs with
      backend := ops.delete fs.backend (fs.inode i)
      freedInodes := fs.freedInodes ++ [i] }
  else fs

/-- `sb_get` -/
def sbGet (fs : Fs β) : Option Nat → Fs β
  | none => fs
  | some s => { fs with fsRef := update fs.fsRef s (fs.fsRef s + 1) }

/-- `sb_put` -/
def sbPut (fs : Fs β) : Option Nat → Fs β
  | none => fs
  | some s => { fs with fsRef := update fs.fsRef s (fs.fsRef s - 1) }

/-- `dentry_create`; the new dentry is `fs.next`. -/
def dentryCreate (fs : Fs β) (name : Name) (inode : Option Nat) : Fs β :=
  let fs := { fs with
    dentry := update fs.dentry fs.next {
      name := name, inode := inode, parent := none, children := [], mountpoint := false,
      blockDev := false, charDev := false, deleted := false, mountedHere := none, inMnt := none,
      refcount := 1, inCacheList := false }
    next := fs.next + 1 }
  match inode with
  | some i => fs.inodeGet i
  | none => fs

/-- `dentry_free` -/
def dentryFree (fs : Fs β) (d : Nat) : Fs β :=
  let fs := (fs.dentry d).inode.elim fs (fs.inodePut ops)
  { fs with freed := fs.freed ++ [d] }

/-- `dentry_put` goes on with the parent if it frees a deleted dentry.  Every further round
brings one more count down to 0. -/
def putChain : Nat → Fs β → Nat → Fs β
  | 0, fs, _ => fs
  | n + 1, fs, d =>
    let fs := fs.modify d fun x => { x with refcount := x.refcount - 1 }
    if (fs.dentry d).refcount ≠ 0 then fs
    else if (fs.dentry d).deleted then
      let fs := (fs.dentry d).parent.elim fs fun p => putChain n fs p
      fs.dentryFree ops d
    else if (fs.dentry d).inCacheList then fs
    else
      let fs := fs.modify d fun x => { x with inCacheList := true }
      { fs with cacheList := fs.cacheList ++ [d], cacheNum := fs.cacheNum + 1 }

/-- `dentry_put` -/
def dentryPut (fs : Fs β) (d : Nat) : Fs β := fs.putChain ops (fs.next + 1) d

/-- The part of `dentry_delete` before `dentry_put`. -/
def markDeleted (fs : Fs β) (d : Nat) : Fs β :=
  let fs := fs.modify d fun x => { x with deleted := true }
  if (fs.dentry d).inCacheList then
    { fs with cacheNum := fs.cacheNum - 1, cacheList := fs.cacheList.filter (· ≠ d) }
  else fs

/-- `dentry_delete` -/
def dentryDelete (fs : Fs β) (d : Nat) : Fs β := (fs.markDeleted d).dentryPut ops d

/-- `list_del_init(&child->child_list_item)` -/
def listDel (fs : Fs β) (parent child : Nat) : Fs β :=
  fs.modify parent fun x => { x with children := x.children.filter (· ≠ child) }

/-- `list_add_tail(&child->child_list_item, &parent->child_list)` -/
def listAddTail (fs : Fs β) (parent child : Nat) : Fs β :=
  fs.modify parent fun x => { x with children := x.children ++ [child] }

def setParent (fs : Fs β) (child parent : Nat) : Fs β :=
  fs.modify child fun x => { x with parent := some parent }

/-- `dentry_set_parent` -/
def dentrySetParent (fs : Fs β) (parent child : Nat) : Fs β :=
  ((fs.dentryGet parent).setParent child parent).listAddTail parent child

def setInMnt (fs : Fs β) (d : Nat) (s : Option Nat) : Fs β :=
  fs.modify d fun x => { x with inMnt := s }

/-- A new inode of super block `s` becomes the inode of a dentry. -/
def setInode (fs : Fs β) (d s : Nat) (new : NewInode) : Fs β :=
  let i := fs.nextInode
  let fs := { fs with
    inode := update fs.inode i ⟨⟨new.mode, s, new.priv⟩, new.refcount, new.linkCount⟩
    nextInode := i + 1 }
  fs.modify d fun x => { x with inode := some i }

end References

/-! ## Path resolution -/

section Lookup

variable (ops : Backend β)

/-- The search of a child list. -/
def childNamed (fs : Fs β) (d : Nat) (name : Name) : Option Nat :=
  (fs.dentry d).children.find? fun c => (fs.dentry c).name = name

/-- The step to `".."`.  In the first case there is no `dentry_get` if the mount point has no
parent. -/
def goUp (fs : Fs β) (current : Nat) : Fs β × Nat :=
  match (fs.dentry current).inMnt with
  | some s =>
    if (fs.sb s).root = some current then
      match (fs.sb s).mountpoint with
      | some m =>
        match (fs.dentry m).parent with
        | some p => (fs.dentryGet p, p)
        | none => (fs, current)
      | none => (fs.dentryGet current, current)
    else
      match (fs.dentry current).parent with
      | some p => (fs.dentryGet p, p)
      | none => (fs.dentryGet current, current)
  | none =>
    match (fs.dentry current).parent with
    | some p => (fs.dentryGet p, p)
    | none => (fs.dentryGet current, current)

/-- The step to a name that is not cached. -/
def lookupNew (fs : Fs β) (current : Nat) (name : Name) : Fs β × Option Nat :=
  let dir := (fs.inodeOf current).toAttr
  let tmp := fs.next
  let fs := fs.dentryCreate name none
  match ops.lookup fs.backend dir name with
  | (b, none) => (({ fs with backend := b }).dentryDelete ops tmp, none)
  | (b, some new) =>
    let fs := ({ fs with backend := b }).setInode tmp dir.sb new
    let fs := fs.setInMnt tmp (some dir.sb)
    let fs := fs.dentryGet current
    let fs := fs.setParent tmp current
    (fs.listAddTail current tmp, some tmp)

/-- The step to one component, without mount points. -/
def goTo (fs : Fs β) (current : Nat) (name : Name) : Fs β × Option Nat :=
  if name = dot then (fs.dentryGet current, some current)
  else if name = dotdot then
    let r := fs.goUp current
    (r.1, some r.2)
  else
    match fs.childNamed current name with
    | some c => (fs.dentryGet c, some c)
    | none => fs.lookupNew ops current name

/-- From a mount point to the root of the file system on it (`handle_mount`). -/
def handleMount (fs : Fs β) (next : Nat) : Fs β × Nat :=
  if (fs.dentry next).mountpoint then
    match (fs.dentry next).mountedHere with
    | some s =>
      match (fs.sb s).root with
      | some r => ((fs.dentryGet r).dentryPut ops next, r)
      | none => (fs, next)
    | none => (fs, next)
  else (fs, next)

/-- The loop of `__vfs_lookup_locked`. -/
def walk (fs : Fs β) (current : Nat) : List Name → Fs β × Option Nat
  | [] => (fs, some current)
  | name :: rest =>
    match fs.goTo ops current name with
    | (fs, none) => (fs.dentryPut ops current, none)
    | (fs, some next) =>
      let r := fs.handleMount ops next
      walk (r.1.dentryPut ops current) r.2 rest

/-- `__vfs_lookup_locked` -/
def lookupLocked (fs : Fs β) (start : Option Nat) (path : Path) : Fs β × Option Nat :=
  match path with
  | [] => (fs, none)
  | c :: _ =>
    let current := if c = slash then fs.root else start.getD fs.root
    (fs.dentryGet current).walk ops current (tokens path)

/-- Where the calls let the resolution of a path begin. -/
def startOf (fs : Fs β) (cwd : Nat) (path : Path) : Nat :=
  if path.head? = some slash then fs.root else cwd

/-- The directory that `split_path` gives; the empty path is the start. -/
def lookupDir (fs : Fs β) (start : Nat) (dir : Path) : Fs β × Option Nat :=
  if dir = [] then (fs.dentryGet start, some start) else fs.lookupLocked ops (some start) dir

end Lookup

/-! ## Open and close -/

end Fs

/-- The fields of `file_t` that lead into the tree; a pipe has no dentry. -/
structure Opened where
  dentry : Option Nat
  inode : Option Nat
deriving DecidableEq

namespace Fs

section Open

variable (ops : Backend β)

/-- The part of `vfs_open` behind `found`. -/
def openFound (fs : Fs β) (d : Nat) : Fs β × Option Opened :=
  match ops.openFile fs.backend (fs.inodeOf d).toAttr with
  | (b, false) => (({ fs with backend := b }).dentryPut ops d, none)
  | (b, true) =>
    let fs := { fs with backend := b }
    let inode := (fs.dentry d).inode
    let fs := inode.elim fs fs.inodeGet
    (fs.sbGet (fs.dentry d).inMnt, some ⟨some d, inode⟩)

/-- The part of `vfs_open` that makes a new file in `parent`. -/
def openCreate (fs : Fs β) (parent : Nat) (name : Name) (mode : Nat) : Fs β × Option Opened :=
  if isDir (fs.inodeOf parent).mode = false then (fs.dentryPut ops parent, none)
  else if name = dot ∨ name = dotdot then (fs.dentryPut ops parent, none)
  else
    let dir := (fs.inodeOf parent).toAttr
    let tmp := fs.next
    let fs := fs.dentryCreate name none
    let fs := fs.setInMnt tmp (fs.dentry parent).inMnt
    match ops.create fs.backend dir name mode with
    | (b, none) => ((({ fs with backend := b }).dentryDelete ops tmp).dentryPut ops parent, none)
    | (b, some new) =>
      let fs := ({ fs with backend := b }).setInode tmp dir.sb new
      let fs := fs.dentrySetParent parent tmp
      (fs.dentryPut ops parent).openFound ops tmp

/-- `O_CREAT` -/
def oCreat (flags : Nat) : Bool := flags.testBit 6

/-- `O_EXCL` -/
def oExcl (flags : Nat) : Bool := flags.testBit 7

/-- `vfs_open` -/
def vfsOpen (fs : Fs β) (cwd : Nat) (path : Path) (flags mode : Nat) : Fs β × Option Opened :=
  if path = [] then (fs, none)
  else
    let start := fs.startOf cwd path
    match (fs.dentryGet start).lookupLocked ops (some start) path with
    | (fs, some d) =>
      if oCreat flags && oExcl flags then ((fs.dentryPut ops d).dentryPut ops start, none)
      else (fs.dentryPut ops start).openFound ops d
    | (fs, none) =>
      if oCreat flags = false then (fs.dentryPut ops start, none)
      else
        match splitPath path with
        | none => (fs.dentryPut ops start, none)
        | some (dir, name) =>
          -- without a parent path the reference to the start is the one to the parent
          if dir = [] then fs.openCreate ops start name mode
          else
            match fs.lookupLocked ops (some start) dir with
            | (fs, none) => (fs.dentryPut ops start, none)
            | (fs, some parent) => (fs.dentryPut ops start).openCreate ops parent name mode

/-- The part of `vfs_close` that is done with the last reference to a file. -/
def vfsClose (fs : Fs β) (file : Opened) : Fs β :=
  match file.dentry with
  | none => fs
  | some d =>
    let s := (fs.dentry d).inMnt
    let fs := file.inode.elim fs fun i =>
      ({ fs with backend := ops.releaseFile fs.backend (fs.inode i).toAttr }).inodePut ops i
    (fs.dentryPut ops d).sbPut s

end Open

/-! ## Calls with paths -/

section Calls

variable (ops : Backend β)

/-- `sys_mkdir` -/
def sysMkdir (fs : Fs β) (cwd : Nat) (path : Path) (mode : Nat) : Fs β × Bool :=
  if path = [] then (fs, false)
  else
    let start := fs.startOf cwd path
    match (fs.dentryGet start).lookupLocked ops (some start) path with
    | (fs, some d) => ((fs.dentryPut ops d).dentryPut ops start, false)
    | (fs, none) =>
      match splitPath path with
      | none => (fs.dentryPut ops start, false)
      | some (dir, name) =>
        if name = dot ∨ name = dotdot then (fs.dentryPut ops start, false)
        else
          match fs.lookupDir ops start dir with
          | (fs, none) => (fs.dentryPut ops start, false)
          | (fs, some parent) =>
            if isDir (fs.inodeOf parent).mode = false then
              ((fs.dentryPut ops parent).dentryPut ops start, false)
            else
              let attr := (fs.inodeOf parent).toAttr
              let tmp := fs.next
              let fs := fs.dentryCreate name none
              match ops.mkdir fs.backend attr name mode with
              | (b, none) =>
                let fs := ({ fs with backend := b }).dentryDelete ops tmp
                ((fs.dentryPut ops parent).dentryPut ops start, false)
              | (b, some new) =>
                let fs := ({ fs with backend := b }).setInode tmp attr.sb new
                let fs := fs.setInMnt tmp (fs.dentry parent).inMnt
                let fs := fs.dentrySetParent parent tmp
                (((fs.dentryPut ops tmp).dentryPut ops parent).dentryPut ops start, true)

/-- The end of `sys_rmdir` and `sys_unlink`, behind the function of the file system: the dentry
leaves the tree. -/
def removeFrom (fs : Fs β) (parent d start : Nat) : Fs β :=
  let fs := fs.listDel parent d
  let fs := (fs.dentryPut ops parent).dentryPut ops start
  let fs := (fs.dentry d).inode.elim fs fun i =>
    fs.modifyInode i fun x => { x with linkCount := x.linkCount - 1 }
  fs.dentryDelete ops d

/-- `sys_rmdir` -/
def sysRmdir (fs : Fs β) (cwd : Nat) (path : Path) : Fs β × Bool :=
  if path = [] then (fs, false)
  else
    let start := fs.startOf cwd path
    match (fs.dentryGet start).lookupLocked ops (some start) path with
    | (fs, none) => (fs.dentryPut ops start, false)
    | (fs, some d) =>
      if isDir (fs.inodeOf d).mode = false then
        ((fs.dentryPut ops d).dentryPut ops start, false)
      else
        match (fs.dentry d).parent with
        | none => ((fs.dentryPut ops d).dentryPut ops start, false)
        | some parent =>
          let fs := fs.dentryGet parent
          let busy := !(fs.dentry d).children.isEmpty || (fs.dentry d).mountpoint ||
            (fs.dentry d).refcount != 1
          if busy then
            (((fs.dentryPut ops parent).dentryPut ops d).dentryPut ops start, false)
          else
            match ops.rmdir fs.backend (fs.inodeOf parent).toAttr (fs.dentry d).name
                (fs.inodeOf d).toAttr with
            | (b, false) =>
              let fs := { fs with backend := b }
              (((fs.dentryPut ops parent).dentryPut ops d).dentryPut ops start, false)
            | (b, true) => (({ fs with backend := b }).removeFrom ops parent d start, true)

/-- `sys_unlink` -/
def sysUnlink (fs : Fs β) (cwd : Nat) (path : Path) : Fs β × Bool :=
  if path = [] then (fs, false)
  else
    let start := fs.startOf cwd path
    match (fs.dentryGet start).lookupLocked ops (some start) path with
    | (fs, none) => (fs.dentryPut ops start, false)
    | (fs, some d) =>
      if isDir (fs.inodeOf d).mode then ((fs.dentryPut ops d).dentryPut ops start, false)
      else
        match (fs.dentry d).parent with
        | none => ((fs.dentryPut ops d).dentryPut ops start, false)
        | some parent =>
          let fs := fs.dentryGet parent
          match ops.unlink fs.backend (fs.inodeOf parent).toAttr (fs.dentry d).name
              (fs.inodeOf d).toAttr with
          | (b, false) =>
            let fs := { fs with backend := b }
            (((fs.dentryPut ops parent).dentryPut ops d).dentryPut ops start, false)
          | (b, true) => (({ fs with backend := b }).removeFrom ops parent d start, true)

/-- `sys_truncate` -/
def sysTruncate (fs : Fs β) (cwd : Nat) (path : Path) (length : Int) : Fs β × Bool :=
  if path = [] then (fs, false)
  else
    let start := fs.startOf cwd path
    match (fs.dentryGet start).lookupLocked ops (some start) path with
    | (fs, none) => (fs.dentryPut ops start, false)
    | (fs, some d) =>
      if isReg (fs.inodeOf d).mode = false then
        ((fs.dentryPut ops d).dentryPut ops start, false)
      else
        let r := ops.setattr fs.backend (fs.inodeOf d).toAttr length
        let fs := { fs with backend := r.1 }
        ((fs.dentryPut ops d).dentryPut ops start, r.2)

/-- The loop of `sys_rename` that looks for `target` above a dentry. -/
def isAbove (fs : Fs β) (target : Nat) : Nat → Nat → Bool
  | 0, _ => false
  | n + 1, d =>
    d == target || match (fs.dentry d).parent with
      | some p => isAbove fs target n p
      | none => false

/-- The references that `sys_rename` gives back behind `out`. -/
def renameOut (fs : Fs β) (held : List Nat) : Fs β := held.foldl (fun fs d => fs.dentryPut ops d) fs

/-- The move of `sys_rename` in the tree.  The dentry leaves the list that it is in, and the
reference to its parent is given back to `oldParent`. -/
def moveDentry (fs : Fs β) (oldParent d newParent : Nat) (name : Name) : Fs β :=
  let fs := (fs.dentry d).parent.elim fs fun p => fs.listDel p d
  let fs := fs.dentryPut ops oldParent
  let fs := (fs.listAddTail newParent d).dentryGet newParent
  (fs.setParent d newParent).modify d fun x => { x with name := name }

/-- The part of `sys_rename` behind the three lookups. -/
def renameFound (fs : Fs β) (d oldParent newParent : Nat) (name : Name) : Fs β × Bool :=
  if (fs.inodeOf oldParent).sb ≠ (fs.inodeOf newParent).sb then (fs, false)
  else if isDir (fs.inodeOf d).mode && fs.isAbove d (fs.next + 1) newParent then (fs, false)
  else
    let other := fs.childNamed newParent name
    -- `lookup_child` takes a reference and the caller gives it back
    let fs := other.elim fs fun c => (fs.dentryGet c).dentryPut ops c
    if other.any fun c => (fs.dentry c).inode != (fs.dentry d).inode then (fs, false)
    else
      match ops.rename fs.backend (fs.inodeOf oldParent).toAttr (fs.dentry d).name
          (fs.inodeOf d).toAttr (fs.inodeOf newParent).toAttr name with
      | (b, false) => ({ fs with backend := b }, false)
      | (b, true) => (({ fs with backend := b }).moveDentry ops oldParent d newParent name, true)

/-- The three lookups of `sys_rename`: the references that have been taken, and the source, its
parent, the target's parent and the new name if all are found. -/
def renameLookups (fs : Fs β) (cwd : Nat) (oldpath newpath : Path) :
    Fs β × List Nat × Option (Nat × Nat × Nat × Name) :=
  let oldStart := fs.startOf cwd oldpath
  let newStart := fs.startOf cwd newpath
  let fs := (fs.dentryGet oldStart).dentryGet newStart
  match fs.lookupLocked ops (some oldStart) oldpath with
  | (fs, none) => (fs, [oldStart, newStart], none)
  | (fs, some d) =>
    match splitPath oldpath, splitPath newpath with
    | some (oldDir, _), some (newDir, name) =>
      match fs.lookupDir ops oldStart oldDir with
      | (fs, none) => (fs, [d, oldStart, newStart], none)
      | (fs, some oldParent) =>
        match fs.lookupDir ops newStart newDir with
        | (fs, none) => (fs, [d, oldParent, oldStart, newStart], none)
        | (fs, some newParent) =>
          (fs, [d, oldParent, newParent, oldStart, newStart], some (d, oldParent, newParent, name))
    | _, _ => (fs, [d, oldStart, newStart], none)

/-- `sys_rename` -/
def sysRename (fs : Fs β) (cwd : Nat) (oldpath newpath : Path) : Fs β × Bool :=
  if oldpath = [] ∨ newpath = [] then (fs, false)
  else
    match fs.renameLookups ops cwd oldpath newpath with
    | (fs, held, none) => (fs.renameOut ops held, false)
    | (fs, held, some (d, oldParent, newParent, name)) =>
      let r := fs.renameFound ops d oldParent newParent name
      (r.1.renameOut ops held, r.2)

/-- `sys_chdir`, with the new current directory. -/
def sysChdir (fs : Fs β) (cwd : Nat) (path : Path) : Fs β × Option Nat :=
  match fs.lookupLocked ops (some cwd) path with
  | (fs, none) => (fs, none)
  | (fs, some d) =>
    if isDir (fs.inodeOf d).mode = false then (fs.dentryPut ops d, none)
    else
      let fs := (fs.sbGet (fs.dentry d).inMnt).sbPut (fs.dentry cwd).inMnt
      (fs.dentryPut ops cwd, some d)

end Calls

/-! ## Mounts -/

section Mounts

variable (ops : Backend β)

/-- `mount_fs`: the types there are operations for. -/
def mountFs (fsType : Nat) : Bool := fsType == 0x1001 || fsType == 0x1002 || fsType == 0x83

/-- The end of a failed mount: `super_block_destroy`, then the mount point is given back. -/
def mountFailed (fs : Fs β) (mountpoint s : Nat) : Fs β :=
  let fs :=
    if mountFs (fs.sb s).fsType then { fs with backend := ops.putSuper fs.backend s (fs.sb s) }
    else fs
  fs.dentryPut ops mountpoint

/-- The part of `__vfs_mount_locked` behind the root inode. -/
def mountRoot (fs : Fs β) (q : Option Nat) (mountpoint s : Nat) (new : NewInode) : Fs β :=
  let i := fs.nextInode
  let root := fs.next
  let fs := { fs with
    inode := update fs.inode i ⟨⟨new.mode, s, new.priv⟩, new.refcount, new.linkCount⟩
    nextInode := i + 1 }
  let fs := fs.dentryCreate [slash] (some i)
  let fs := fs.setInMnt root (some s)
  let fs := fs.modifySb s fun x =>
    { x with root := some root, mountpoint := some mountpoint, part := q }
  let fs := fs.modify mountpoint fun x => { x with mountpoint := true, mountedHere := some s }
  let fs := q.elim fs fun q => fs.modifyPart q fun x => { x with mountedSb := some s }
  let fs := { fs with mountList := fs.mountList ++ [s] }
  let fs := fs.sbGet (some (fs.inodeOf mountpoint).sb)
  fs.inodePut ops i

/-- `__vfs_mount_locked` -/
def vfsMountLocked (fs : Fs β) (q : Option Nat) (path : Path) (fstype : Nat) : Fs β × Bool :=
  match fs.lookupLocked ops none path with
  | (fs, none) => (fs, false)
  | (fs, some m) =>
    let x := fs.dentry m
    if x.mountpoint || x.blockDev || x.charDev then (fs.dentryPut ops m, false)
    else if isDir (fs.inodeOf m).mode = false then (fs.dentryPut ops m, false)
    else if x.inMnt.any fun s => (fs.sb s).root = some m then (fs.dentryPut ops m, false)
    else if x.children ≠ [] then (fs.dentryPut ops m, false)
    else if q.any fun q => (fs.part q).mountedSb.isSome then (fs.dentryPut ops m, false)
    else
      let s := fs.nextSb
      -- `super_block_create`
      let fsType := q.elim fstype fun q => (fs.part q).partType
      let fs := { fs with
        sb := update fs.sb s ⟨fsType, none, none, q⟩
        fsRef := update fs.fsRef s 0
        nextSb := s + 1 }
      let fs := q.elim fs fun q => fs.modifyPart q fun x => { x with mountedSb := some s }
      if mountFs fsType = false then (fs.mountFailed ops m s, false)
      else
        match ops.readRootInode fs.backend s (fs.sb s) with
        | (b, none) => (({ fs with backend := b }).mountFailed ops m s, false)
        | (b, some new) => (({ fs with backend := b }).mountRoot ops q m s new, true)

/-- `vfs_mount` -/
def vfsMount (fs : Fs β) (q : Option Nat) (path : Path) (fstype : Nat) : Fs β × Bool :=
  fs.vfsMountLocked ops q path fstype

/-- `sys_mount` -/
def sysMount (fs : Fs β) (cwd : Nat) (devPath toPath : Path) : Fs β × Bool :=
  match fs.lookupLocked ops (some cwd) devPath with
  | (fs, none) => (fs, false)
  | (fs, some dev) =>
    let q := (fs.inodeOf dev).priv
    if (fs.dentry dev).blockDev = false then (fs.dentryPut ops dev, false)
    else if (fs.part q).partition = false then (fs.dentryPut ops dev, false)
    else if (fs.part q).mountedSb.isSome then (fs.dentryPut ops dev, false)
    else
      match fs.vfsMountLocked ops (some q) toPath 0 with
      | (fs, false) => (fs.dentryPut ops dev, false)
      | (fs, true) => ((fs.dentryGet dev).dentryPut ops dev, true)

/-- `umount_cleanup_dentry` goes down a tree whose depth is less than the number of dentries. -/
def umountCleanupDentry : Nat → Fs β → Nat → Fs β
  | 0, fs, _ => fs
  | n + 1, fs, d =>
    let fs := fs.dentryGet d
    let fs := (fs.dentry d).children.foldl (fun fs c => umountCleanupDentry n fs c) fs
    fs.dentryDelete ops d

/-- `sys_umount` takes the super block from the list and gives the mount point back. -/
def umountPoint (fs : Fs β) (m s : Nat) : Fs β :=
  let fs := { fs with mountList := fs.mountList.filter (· ≠ s) }
  let fs := fs.modify m fun x => { x with mountpoint := false, mountedHere := none }
  (fs.sb s).mountpoint.elim fs fun m =>
    (fs.dentryPut ops m).modifySb s fun x => { x with mountpoint := none }

/-- `sys_umount` deletes the tree and the super block, whose count is 0. -/
def umountTree (fs : Fs β) (s : Nat) : Fs β :=
  let fs := (fs.sb s).root.elim fs fun r =>
    (fs.umountCleanupDentry ops (fs.next + 1) r).modifySb s fun x => { x with root := none }
  { fs with backend := ops.putSuper fs.backend s (fs.sb s) }

/-- `sys_umount` gives the device back. -/
def umountDevice (fs : Fs β) (q : Nat) : Fs β :=
  let fs := fs.modifyPart q fun x => { x with mountedSb := none }
  (fs.part q).fsDentry.elim fs (fs.dentryPut ops)

/-- The part of `sys_umount` behind the checks. -/
def umountFound (fs : Fs β) (m s : Nat) : Fs β :=
  let parentSb := (fs.sb s).mountpoint.map fun m => (fs.inodeOf m).sb
  let q := (fs.sb s).part
  let fs := (fs.umountPoint ops m s).umountTree ops s
  let fs := (fs.dentryPut ops m).sbPut parentSb
  q.elim fs (fs.umountDevice ops)

/-- From the root of a mounted file system to its mount point. -/
def realMountpoint (fs : Fs β) (d : Nat) : Fs β × Nat :=
  match (fs.dentry d).inMnt with
  | some s =>
    match (fs.sb s).root, (fs.sb s).mountpoint with
    | some r, some m => if r = d then ((fs.dentryGet m).dentryPut ops d, m) else (fs, d)
    | _, _ => (fs, d)
  | none => (fs, d)

/-- `sys_umount` -/
def sysUmount (fs : Fs β) (path : Path) : Fs β × Bool :=
  match fs.lookupLocked ops (some fs.root) path with
  | (fs, none) => (fs, false)
  | (fs, some d) =>
    let r := fs.realMountpoint ops d
    let fs := r.1
    let m := r.2
    if (fs.dentry m).mountpoint = false then (fs.dentryPut ops m, false)
    else
      match (fs.dentry m).mountedHere with
      | none => ((fs.modify m fun x => { x with mountpoint := false }).dentryPut ops m, false)
      | some s =>
        if fs.fsRef s ≠ 0 then (fs.dentryPut ops m, false)
        else (fs.umountFound ops m s, true)

end Mounts

/-! ## The cache and devices -/

section Cache

variable (ops : Backend β)

/-- One round of `dentry_cache_task` with the dentry it has taken from the list. -/
def evict (fs : Fs β) (d : Nat) : Fs β :=
  let fs := { fs with cacheList := fs.cacheList.filter (· ≠ d) }
  if (fs.dentry d).refcount = 0 then
    let fs := (fs.dentry d).parent.elim fs fun p => (fs.listDel p d).dentryPut ops p
    ({ fs with cacheNum := fs.cacheNum - 1 }).dentryFree ops d
  else { fs with cacheList := fs.cacheList ++ [d] }

/-- `DENTRY_CACHE_SIZE` -/
def dentryCacheSize : Int := 1024

/-- `dentry_cache_task` takes the first dentry of a list that has become too long. -/
def dentryCacheTask (fs : Fs β) : Fs β :=
  if fs.cacheNum ≤ dentryCacheSize then fs
  else fs.cacheList.head?.elim fs (fs.evict ops)

/-- The new dentry of a device below the root of devfs. -/
def deviceNode (fs : Fs β) (devfsSb root : Nat) (name : Name) (mode priv : Nat) (block : Bool) :
    Fs β :=
  let i := fs.nextInode
  let d := fs.next
  let fs := { fs with
    inode := update fs.inode i ⟨⟨mode, devfsSb, priv⟩, 1, 1⟩
    nextInode := i + 1 }
  let fs := fs.dentryCreate name (some i)
  let fs := fs.setInMnt d (some devfsSb)
  let fs := fs.modify d fun x => { x with blockDev := block, charDev := !block }
  fs.dentrySetParent root d

/-- A block device knows its dentry. -/
def addDevice (fs : Fs β) (devfsSb root : Nat) (name : Name) (mode priv : Nat) (block : Bool) :
    Fs β :=
  let d := fs.next
  let fs := fs.deviceNode devfsSb root name mode priv block
  if block then fs.modifyPart priv fun x => { x with fsDentry := some d } else fs

/-- `devfs_block_register` for the block device `priv`, or `devfs_chr_register`, with the root
of devfs. -/
def devfsRegister (fs : Fs β) (devfsSb root : Nat) (name : Name) (mode priv : Nat)
    (block : Bool) : Fs β × Bool :=
  match fs.lookupLocked ops (some root) name with
  | (fs, some d) => (fs.dentryPut ops d, false)
  | (fs, none) => (fs.addDevice devfsSb root name mode priv block, true)

end Cache

end Fs

end Osx64.Vfs
