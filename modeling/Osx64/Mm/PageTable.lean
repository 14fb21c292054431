import Osx64.Lib.TableTree
import Osx64.Mm.PageRun

/-!
# Page tables

The functions of `mm.c` that write the four levels of page tables, over the page allocator.  The
memory is one function from page numbers and the index of an 8-byte word in the page to the word;
a table is a page.  The kernel reaches every table through its direct map of the physical memory, so
`easy_phy2linear` is left out: a pointer to a table is the number of its page.

`walk` is what the processor does with the tables.  Physical addresses have 52 bits.
-/

namespace Osx64.Mm

open TableTree

/-- Why the machine was stopped. -/
inductive Halt where
  | pool (stop : Stop)
  | unaligned
  | bigEntry
  | present
  | notPresent
  /-- `kfree` of an address behind the direct map, which is for the slabs and the heap -/
  | notDirect
deriving DecidableEq

structure Machine where
  pool : PagePool
  /-- page number and index to the 8-byte word -/
  mem : Nat → Nat → Nat

/-! ## Entries -/

/-- `entry & PAGE_PRESENT` -/
def isPresent (e : Nat) : Bool := e % 2 = 1

/-- `entry & PAGE_BIG_ENTRY` -/
def isBig (e : Nat) : Bool := e / 128 % 2 = 1

/-- `PAGE_PRESENT | PAGE_WRITABLE | PAGE_GLOBAL` -/
def pageKernel4k : Nat := 0x103

def pageKernelDir : Nat := pageKernel4k

/-- `PAGE_KERNEL_4K | PAGE_BIG_ENTRY` -/
def pageKernel2M : Nat := 0x183

/-- `PAGE_PRESENT | PAGE_WRITABLE | PAGE_USER_MODE` -/
def pageUser4k : Nat := 0x7

def pageUserDir : Nat := pageUser4k

/-- `PAGE_PRESENT | PAGE_USER_MODE` -/
def pageUser4kCopyOnWrite : Nat := 0x5

/-- `VIRTUAL_ADDR_0` -/
def virtualAddr0 : Nat := 0xffff800000000000

/-- `layer[0]` -/
def layer0 (vir : Nat) : Nat :=
  if vir ≥ virtualAddr0 then (vir - virtualAddr0) / 2 ^ 39 + 256 else vir / 2 ^ 39

/-- `layer[1]` -/
def layer1 (vir : Nat) : Nat := vir / 2 ^ 30 % 512

/-- `layer[2]` -/
def layer2 (vir : Nat) : Nat := vir / 2 ^ 21 % 512

/-- `layer[3]` -/
def layer3 (vir : Nat) : Nat := vir / 2 ^ 12 % 512

/-! ## The functions of the kernel -/

/-- The body of the loop over the levels, for one level: the table below entry `l` of table `t`.
`link` is what is done with a new page. -/
def enter (link : Machine → Nat → Nat → Nat → Machine) (t l : Nat) (m : Machine) :
    Except Halt (Nat × Machine) :=
  if isPresent (m.mem t l) then
    if isBig (m.mem t l) then .error .bigEntry else .ok (m.mem t l / 4096, m)
  else
    match allocPage4k m.pool with
    | .error stop => .error (.pool stop)
    | .ok (temp, pool) => .ok (temp / 4096, link { m with pool := pool } t l temp)

def descend (link : Machine → Nat → Nat → Nat → Machine) :
    List Nat → Nat → Machine → Except Halt (Nat × Machine)
  | [], t, m => .ok (t, m)
  | l :: ls, t, m => (enter link t l m).bind fun r => descend link ls r.1 r.2

/-- A new table in `__put_page_4k_locked`: the entry is written, then the page is cleared. -/
def link4k (dirType : Nat) (m : Machine) (t l temp : Nat) : Machine :=
  { m with mem := Function.update (write m.mem t l (temp ||| dirType)) (temp / 4096) fun _ => 0 }

/-- A new table in `put_page_2M`: the page is cleared, then the entry is written. -/
def link2M (m : Machine) (t l temp : Nat) : Machine :=
  { m with
    mem := write (Function.update m.mem (temp / 4096) fun _ => 0) t l (temp ||| pageKernelDir) }

def dirType (type : Nat) : Nat :=
  if type = 0 then pageKernelDir
  else if type = 1 then pageUserDir
  else if type = 2 then pageUserDir
  else pageKernelDir

def itemType (type usrDefine : Nat) : Nat :=
  if type = 0 then pageKernel4k
  else if type = 1 then pageUser4k
  else if type = 2 then pageUser4kCopyOnWrite
  else u16 usrDefine

/-- `__put_page_4k_locked` -/
def putPage4kLocked (m : Machine) (phy vir ptable type usrDefine : Nat) : Except Halt Machine :=
  if vir % 4096 ≠ 0 then .error .unaligned
  else
    (descend (link4k (dirType type)) [layer0 vir, layer1 vir, layer2 vir] ptable m).bind fun r =>
      if isPresent (r.2.mem r.1 (layer3 vir)) then .error .present
      else .ok { r.2 with mem := write r.2.mem r.1 (layer3 vir) (phy ||| itemType type usrDefine) }

def putPage4k (m : Machine) (phy vir ptable type : Nat) : Except Halt Machine :=
  putPage4kLocked m phy vir ptable type 0

/-- The loop of `exist_page_4k`. -/
def existPage (mem : Nat → Nat → Nat) : List Nat → Nat → Nat
  | [], _ => 1
  | l :: ls, t =>
    if isPresent (mem t l) then
      if ls ≠ [] ∧ isBig (mem t l) then 1 else existPage mem ls (mem t l / 4096)
    else 0

def existPage4k (m : Machine) (vir ptable : Nat) : Except Halt Nat :=
  if vir % 4096 ≠ 0 then .error .unaligned
  else .ok (existPage m.mem [layer0 vir, layer1 vir, layer2 vir, layer3 vir] ptable)

/-- The loop of `rm_page_4k`. -/
def follow (mem : Nat → Nat → Nat) : List Nat → Nat → Except Halt Nat
  | [], t => .ok t
  | l :: ls, t =>
    if isPresent (mem t l) ∧ ¬ isBig (mem t l) then follow mem ls (mem t l / 4096)
    else .error .notPresent

def rmPage4k (m : Machine) (vir ptable : Nat) : Except Halt Machine :=
  if vir % 4096 ≠ 0 then .error .unaligned
  else
    (follow m.mem [layer0 vir, layer1 vir, layer2 vir] ptable).bind fun t =>
      if isPresent (m.mem t (layer3 vir)) then .ok { m with mem := write m.mem t (layer3 vir) 0 }
      else .error .notPresent

def putPage2M (m : Machine) (phy vir ptable : Nat) : Except Halt Machine :=
  if vir % 0x200000 ≠ 0 ∨ phy % 0x200000 ≠ 0 then .error .unaligned
  else
    (descend link2M [layer0 vir, layer1 vir] ptable m).bind fun r =>
      .ok { r.2 with mem := write r.2.mem r.1 (layer2 vir) (phy ||| pageKernel2M) }

/-- `IO_REMAP_START` -/
def ioRemapStart : Nat := virtualAddr0 + 10 * 2 ^ 39

/-- `IO_REMAP_END` -/
def ioRemapEnd : Nat := ioRemapStart + 2 ^ 39

/-- `PAGE_PRESENT | PAGE_GLOBAL | PAGE_WRITE_THROUGH | PAGE_LEVEL_CACHE_DISABLE` -/
def pageIo : Nat := 0x119

/-- The loop of `io_remap` that maps the pages it has found. -/
def ioRemapPages (m : Machine) (phy vir ptable : Nat) : Nat → Except Halt Machine
  | 0 => .ok m
  | n + 1 => (ioRemapPages m phy vir ptable n).bind fun m =>
    putPage4kLocked m (u64 (phy + n * 4096)) (vir + n * 4096) ptable 3 pageIo

/-- `io_remap`; `ptable` is `vir_ptable4`, and the search runs over page numbers. -/
def ioRemap (m : Machine) (phy size ptable : Nat) : Except Halt (Nat × Machine) :=
  let offset := phy % 4096
  let pageNum := u64 (size + offset + 4095) / 4096
  let free := fun page => existPage m.mem
    [layer0 (page * 4096), layer1 (page * 4096), layer2 (page * 4096),
      layer3 (page * 4096)] ptable = 0
  let found := if pageNum = 0 then none
    else Scan.firstRun free pageNum (ioRemapStart / 4096) (ioRemapEnd / 4096)
  match found with
  | none => .ok (0, m)
  | some page => (ioRemapPages m (pageDown phy) (page * 4096) ptable pageNum).bind fun m =>
    .ok (page * 4096 + offset, m)

/-- The loop of `io_unmap`. -/
def ioUnmapPages (m : Machine) (vir ptable : Nat) : Nat → Except Halt Machine
  | 0 => .ok m
  | n + 1 => (ioUnmapPages m vir ptable n).bind fun m => rmPage4k m (u64 (vir + n * 4096)) ptable

def ioUnmap (m : Machine) (vir size ptable : Nat) : Except Halt Machine :=
  ioUnmapPages m (pageDown vir) ptable (u64 (size + vir % 4096 + 4095) / 4096)

/-! ## The processor -/

/-- How the processor reads an entry of a table with `level` levels below it: 2 MiB leaves are one
level above the last. -/
def decode (level e : Nat) : Slot Nat Nat :=
  if isPresent e then
    if level = 0 then .leaf e
    else if isBig e then (if level = 1 then .leaf e else .absent)
    else .table (e / 4096 % 2 ^ 40)
  else .absent

/-- The indices the processor takes from an address. -/
def indices (vir : Nat) : List Nat :=
  [vir / 2 ^ 39 % 512, vir / 2 ^ 30 % 512, vir / 2 ^ 21 % 512, vir / 2 ^ 12 % 512]

/-- The physical address in a leaf, for a page inside it. -/
def leafAddr (e : Nat) : List Nat → Nat
  | [] => e / 4096 % 2 ^ 40 * 4096
  | i :: _ => e / 2 ^ 21 % 2 ^ 31 * 2 ^ 21 + i * 4096

/-- The physical address of a page and the flags of its leaf. -/
def walk (m : Machine) (cr3 vir : Nat) : Option (Nat × Nat) :=
  (find decode m.mem 3 cr3 (indices vir)).map fun leaf => (leafAddr leaf.1 leaf.2, leaf.1 % 4096)

/-- Bits 48 to 63 are copies of bit 47. -/
def Canonical (vir : Nat) : Prop := vir < 2 ^ 47 ∨ virtualAddr0 ≤ vir ∧ vir < 2 ^ 64
deriving Decidable

theorem layer0_of_canonical {vir : Nat} (h : Canonical vir) : layer0 vir = vir / 2 ^ 39 % 512 := by
  unfold layer0 virtualAddr0
  unfold Canonical virtualAddr0 at h
  split <;> omega

theorem indices_of_canonical {vir : Nat} (h : Canonical vir) :
    indices vir = [layer0 vir, layer1 vir, layer2 vir, layer3 vir] := by
  rw [layer0_of_canonical h]
  rfl

theorem eq_of_indices_eq {v w : Nat} (hv : Canonical v) (hw : Canonical w) (hv' : v % 4096 = 0)
    (hw' : w % 4096 = 0) (h : indices v = indices w) : v = w := by
  unfold Canonical virtualAddr0 at hv hw
  simp only [indices, List.cons.injEq, and_true] at h
  omega

end Osx64.Mm
