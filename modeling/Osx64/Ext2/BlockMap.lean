import Osx64.Ext2.InodeTable

/-!
# Block maps

The functions that follow, extend and cut the pointers of an inode: `ext2_bmap`,
`ext2_bmap_alloc`, `ext2_free_ind_blocks`, `ext2_truncate_blocks` and the freeing
part of `ext2_delete`.  Pointers are found in `i_block[0..11]`, through the indirect
block `i_block[12]` and through the double indirect block `i_block[13]`; the triple
indirect pointer is never used by the kernel.

Block numbers that a C function returns as an `int` keep `-1` as the value
`minusOne`.  `ext2_truncate_blocks` may index `i_block` below zero when it is given
a negative size; inside the inode that reaches another field, in front of it the
access is outside the object and the model stops with a `Fault`.
-/

namespace Osx64.Ext2

/-- Where C leaves the behaviour undefined, or the kernel never returns. -/
inductive Fault
  /-- an access outside the object a pointer points into -/
  | wild
  /-- a loop that never ends -/
  | hang
  deriving DecidableEq, Repr

/-- The volume together with the inode copy an operation works on, and its `dirty`
flag. -/
structure Work where
  fs : Fs
  ei : Buf
  dirty : Bool

/-- `ei->i_blocks += delta` -/
def charge (geo : Geometry) (ei : Buf) : Buf := setIBlocks ei (iBlocks ei + geo.delta)

/-- `ei->i_blocks -= delta` -/
def discharge (geo : Geometry) (ei : Buf) : Buf :=
  setIBlocks ei (iBlocks ei + (2 ^ 32 - geo.delta))

/-! ## Following pointers -/

/-- `ext2_bmap` -/
def bmap (fs : Fs) (ei : Buf) (logical : Nat) : Nat :=
  let n := fs.geo.perBlock
  if logical < ndirBlocks then iBlock ei logical
  else if logical < ndirBlocks + n then
    if iBlock ei indBlock = 0 then 0
    else match fs.readBlock (iBlock ei indBlock) with
      | none => minusOne
      | some ind => ind.get32 (4 * (logical - ndirBlocks))
  else if logical < ndirBlocks + n + n * n then
    let offset := logical - (ndirBlocks + n)
    if iBlock ei dindBlock = 0 then 0
    else match fs.readBlock (iBlock ei dindBlock) with
      | none => minusOne
      | some dind =>
        let block := dind.get32 (4 * (offset / n))
        if block = 0 then 0
        else match fs.readBlock block with
          | none => minusOne
          | some ind => ind.get32 (4 * (offset % n))
  else minusOne

/-! ## Extending the map -/

namespace Work

/-- The block in `i_block[slot]`, allocated first if there is none; `zero` says
whether a new block is cleared.  `none` when no block is left. -/
def ensureSlot (w : Work) (slot : Nat) (zero : Bool) : Work × Option Nat :=
  if iBlock w.ei slot = 0 then
    let ei := charge w.fs.geo w.ei
    match w.fs.allocBlock with
    | none => ({ w with ei, dirty := true }, none)
    | some (block, fs) =>
      ({ fs := if zero then fs.setBlockAllZero block else fs
         ei := setIBlock ei slot block
         dirty := true }, some block)
  else (w, some (iBlock w.ei slot))

/-- The block in entry `index` of the pointer block `parent`, allocated first if
there is none. -/
def ensureEntry (w : Work) (parent index : Nat) (zero : Bool) : Work × Option Nat :=
  match w.fs.readBlock parent with
  | none => (w, none)
  | some buf =>
    if buf.get32 (4 * index) = 0 then
      let ei := charge w.fs.geo w.ei
      match w.fs.allocBlock with
      | none => ({ w with ei, dirty := true }, none)
      | some (block, fs) =>
        let fs := if zero then fs.setBlockAllZero block else fs
        ({ fs := fs.putBlock parent (buf.put32 (4 * index) block)
           ei
           dirty := true }, some block)
    else (w, some (buf.get32 (4 * index)))

/-- The next level of a chain of pointer blocks, unless the chain already failed. -/
def andThen (r : Work × Option Nat) (next : Work → Nat → Work × Option Nat) :
    Work × Option Nat :=
  match r with
  | (w, none) => (w, none)
  | (w, some block) => next w block

/-- `ext2_bmap_alloc`, before its result is turned into a number. -/
def bmapAlloc (w : Work) (logical : Nat) : Work × Option Nat :=
  let n := w.fs.geo.perBlock
  if logical < ndirBlocks then w.ensureSlot logical false
  else if logical < ndirBlocks + n then
    andThen (w.ensureSlot indBlock true) fun w ind =>
      w.ensureEntry ind (logical - ndirBlocks) false
  else if logical < ndirBlocks + n + n * n then
    let offset := logical - (ndirBlocks + n)
    andThen (andThen (w.ensureSlot dindBlock true) fun w dind =>
      w.ensureEntry dind (offset / n) true) fun w ind =>
        w.ensureEntry ind (offset % n) false
  else (w, none)

end Work

/-! ## Cutting the map -/

/-- Free a block and, `level` pointer blocks deep, everything it points to.
`ext2_free_ind_blocks` counts each block in `i_blocks` and gives up when it cannot
read one (`strict`); `ext2_delete` does not count, and goes on. -/
def freeSubtree (n : Nat) (strict : Bool) (count : Buf → Buf) :
    Nat → Fs × Buf → Nat → Fs × Buf
  | 0, (fs, ei), block => (fs.freeBlock block, count ei)
  | level + 1, (fs, ei), block =>
    match fs.readBlock block with
    | none => if strict then (fs, ei) else (fs.freeBlock block, count ei)
    | some buf =>
      let s := (List.range n).foldl
        (fun s i =>
          if buf.get32 (4 * i) = 0 then s
          else freeSubtree n strict count level s (buf.get32 (4 * i)))
        (fs, ei)
      (s.1.freeBlock block, count s.2)

/-- `ext2_free_ind_blocks` -/
def freeIndBlocks (fs : Fs) (ei : Buf) (block level : Nat) : Fs × Buf :=
  if block = 0 then (fs, ei)
  else freeSubtree fs.geo.perBlock true (discharge fs.geo) level (fs, ei) block

/-- The loops of `ext2_truncate_blocks` that free entries of a pointer block, with all
that is `level` pointer blocks below them, and clear them in the buffer.  For data
blocks the source writes out what `ext2_free_ind_blocks` does at level zero. -/
def freeEntries (level : Nat) (fs : Fs) (ei buf : Buf) (indices : List Nat) : Fs × Buf × Buf :=
  indices.foldl
    (fun (fs, ei, buf) i =>
      if buf.get32 (4 * i) = 0 then (fs, ei, buf)
      else
        let (fs, ei) := freeIndBlocks fs ei (buf.get32 (4 * i)) level
        (fs, ei, buf.put32 (4 * i) 0))
    (fs, ei, buf)

/-- The indices of a `for` loop from `start` up to `n`. -/
def upTo (n start : Nat) : List Nat := List.range' start (n - start)

/-- The byte offset of `i_block[(int)i]` in the inode, if it is inside it: from
`2^31` on the index is negative. -/
def slotOffset (i : Nat) : Option Nat :=
  if i < ndirBlocks then some (40 + 4 * i)
  else if 2 ^ 32 ≤ i + 10 then some (40 + 4 * i - 4 * 2 ^ 32)
  else none

/-- The first loop of `ext2_truncate_blocks`: `i` runs upwards while
`(int)i < EXT2_NDIR_BLOCKS && i < old_blocks`, at most `fuel = old_blocks - i` times. -/
def truncateDirect (fs : Fs) (ei : Buf) (i : Nat) : Nat → Except Fault (Fs × Buf)
  | 0 => .ok (fs, ei)
  | fuel + 1 =>
    if i < ndirBlocks ∨ 2 ^ 31 ≤ i then
      match slotOffset i with
      | none => .error .wild
      | some offset =>
        let block := ei.get32 offset
        if block = 0 then truncateDirect fs ei (i + 1) fuel
        else truncateDirect (fs.freeBlock block) ((discharge fs.geo ei).put32 offset 0) (i + 1) fuel
    else .ok (fs, ei)

/-- The part of `ext2_truncate_blocks` about the indirect block; `false` is a return
with `-1`. -/
def truncateInd (fs : Fs) (ei : Buf) (newBlocks : Nat) : Fs × Buf × Bool :=
  let ind := iBlock ei indBlock
  if newBlocks ≤ ndirBlocks then
    if ind = 0 then (fs, ei, true)
    else
      let (fs, ei) := freeIndBlocks fs ei ind 1
      (fs, setIBlock ei indBlock 0, true)
  else if ind = 0 then (fs, ei, true)
  else match fs.readBlock ind with
    | none => (fs, ei, false)
    | some buf =>
      let (fs, ei, buf) := freeEntries 0 fs ei buf
        (upTo fs.geo.perBlock (newBlocks - ndirBlocks))
      (fs.putBlock ind buf, ei, true)

/-- The loop of `ext2_truncate_blocks` over the entries of the double indirect block:
the entry where the cut falls is cut in turn, those behind it are freed. -/
def truncateSubs (start : Nat) (fs : Fs) (ei buf : Buf) : List Nat → Fs × Buf × Buf × Bool
  | [] => (fs, ei, buf, true)
  | i :: rest =>
    let n := fs.geo.perBlock
    let block := buf.get32 (4 * i)
    if block = 0 then truncateSubs start fs ei buf rest
    else if i = start / n then
      match fs.readBlock block with
      | none => (fs, ei, buf, false)
      | some sub =>
        let (fs, ei, sub) := freeEntries 0 fs ei sub (upTo n (start % n))
        truncateSubs start (fs.putBlock block sub) ei buf rest
    else
      let (fs, ei) := freeIndBlocks fs ei block 1
      truncateSubs start fs ei (buf.put32 (4 * i) 0) rest

/-- The part of `ext2_truncate_blocks` about the double indirect block. -/
def truncateDind (fs : Fs) (ei : Buf) (newBlocks : Nat) : Fs × Buf × Bool :=
  let n := fs.geo.perBlock
  let dind := iBlock ei dindBlock
  if newBlocks ≤ ndirBlocks + n then
    if dind = 0 then (fs, ei, true)
    else
      let (fs, ei) := freeIndBlocks fs ei dind 2
      (fs, setIBlock ei dindBlock 0, true)
  else if dind = 0 then (fs, ei, true)
  else match fs.readBlock dind with
    | none => (fs, ei, false)
    | some buf =>
      let start := newBlocks - (ndirBlocks + n)
      let (fs, ei, buf, ok) :=
        truncateSubs start fs ei buf (upTo n (start / n))
      if ok then (fs.putBlock dind buf, ei, true) else (fs, ei, false)

/-- `new_blocks` of `ext2_truncate_blocks`: a division of a signed 64-bit sum, cut to
32 bits. -/
def newBlocks (geo : Geometry) (newSize : Int) : Nat :=
  ((newSize + geo.blockSize - 1).tdiv geo.blockSize % 2 ^ 32).toNat

/-- `old_blocks` of `ext2_truncate_blocks`, and the number of blocks a directory is
searched for: a division of an unsigned 64-bit sum, cut to 32 bits. -/
def sizeBlocks (geo : Geometry) (size : Nat) : Nat :=
  u32 (u64 (size + geo.blockSize - 1) / geo.blockSize)

/-- `ext2_truncate_blocks` on an inode of `size` bytes; `false` is `-1`. -/
def truncateBlocks (fs : Fs) (ei : Buf) (size : Nat) (newSize : Int) :
    Except Fault (Fs × Buf × Bool) :=
  let new := newBlocks fs.geo newSize
  let old := sizeBlocks fs.geo size
  (truncateDirect fs ei new (old - new)).map fun (fs, ei) =>
    match truncateInd fs ei new with
    | (fs, ei, false) => (fs, ei, false)
    | (fs, ei, true) => truncateDind fs ei new

/-- The levels of pointer blocks below `i_block[slot]`. -/
def slotLevel (slot : Nat) : Nat := if slot < ndirBlocks then 0 else slot - 11

/-- The freeing part of `ext2_delete`: every direct block, then the indirect and the
double indirect tree. -/
def freeAllBlocks (fs : Fs) (ei : Buf) : Fs :=
  (List.range 14).foldl
    (fun fs slot =>
      if iBlock ei slot = 0 then fs
      else (freeSubtree fs.geo.perBlock false id (slotLevel slot) (fs, ei) (iBlock ei slot)).1)
    fs

end Osx64.Ext2
