import Osx64.Lib.Bytes
import Osx64.Lib.Loop
import Osx64.Lib.Scan

/-!
# The physical page allocator

A model of the part of `mm.c` that hands out physical pages.  The pages of the
machine are described twice: by the memory reference table `_mrt_start`, one byte
per page, and by the area table `pais`, which caches for every available area the
number of its free pages (`fpp`) and the address of the lowest one (`nfpa`).

Addresses and counters are naturals; `u64` and `u32` stand where the C
arithmetic can wrap.  `halt()` never returns, so a function that may stop the
machine returns an `Except Stop`.
-/

namespace Osx64.Mm

/-- `x & 0xfffffffffffff000` -/
def pageDown (x : Nat) : Nat := x / 4096 * 4096

/-- `(size + 0xfff) & 0xfffff000` in `heap_alloc`, where `size` is a `uint32_t` -/
def alignedSize (size : Nat) : Nat := u32 (size + 0xfff) / 4096 * 4096

/-- How much memory `kmalloc(size)` gives. -/
def kmallocSize (size : Nat) : Nat :=
  if size = 0 then 4096
  else if size ≤ 32 then 32
  else if size ≤ 64 then 64
  else if size ≤ 128 then 128
  else if size ≤ 256 then 256
  else if size ≤ 512 then 512
  else if size ≤ 1024 then 1024
  else if size ≤ 2048 then 2048
  else alignedSize size

/-- What `heap_alloc` can round up in 32 bits. -/
def kmallocMax : Nat := 0xfffff000

theorem kmallocSize_le (size : Nat) : kmallocSize size ≤ kmallocMax := by
  unfold kmallocSize alignedSize u32 kmallocMax
  split_ifs <;> omega

/-- Above `kmallocMax`, `heap_alloc` rounds to nothing. -/
theorem le_kmallocSize_iff {size : Nat} : size ≤ kmallocSize (u32 size) ↔ size ≤ kmallocMax := by
  constructor
  · intro h
    exact h.trans (kmallocSize_le _)
  · intro h
    unfold kmallocMax at h
    rw [u32_of_lt (by omega)]
    unfold kmallocSize alignedSize u32
    split_ifs <;> omega

/-- `PHYSIC_AREA_ITEM` -/
structure PhysicAreaItem where
  /-- starting physical address -/
  spa : Nat
  /-- ending physical address -/
  epa : Nat
  /-- number of free physical pages -/
  fpp : Nat
  /-- next free page address -/
  nfpa : Nat
  deriving DecidableEq, Repr

/-- The places where the page allocator stops the machine, and the one write
outside `pais` that C leaves undefined. -/
inductive Stop
  | noMemoryMap
  | paisOverflow
  | outOfMemory
  | nextFreeLost
  | beyondHpa
  | notReferenced
  | noArea
  | unaligned
  deriving DecidableEq, Repr

/-- The fields of `MM_MANAGER` the page allocator uses, with `pais` cut to its
first `npai` items, and the reference table. -/
structure PagePool where
  hpa : Nat
  tpp : Nat
  tfpp : Nat
  pais : List PhysicAreaItem
  mrt : Nat → UInt8

/-- `DEFAULT_PAI_NUMBER` -/
def defaultPaiNumber : Nat := 128

/-! ## Boot -/

/-- `MULTIBOOT_MMAP_ENTRY` -/
structure MmapEntry where
  addr : Nat
  len : Nat
  type : Nat
  deriving DecidableEq, Repr

/-- `MULTIBOOT_MEMORY_AVAILABLE` -/
def memoryAvailable : Nat := 1

/-- What the kernel reads of `MULTIBOOT_INFO`: the memory-map flag and the
entries between `mmap_addr` and `mmap_addr + mmap_length`. -/
structure MultibootInfo where
  memMap : Bool
  entries : List MmapEntry

/-- One turn of the loop of `get_total_memory`: `hpa` and the areas so far. -/
def addEntry (acc : Nat × List PhysicAreaItem) (entry : MmapEntry) :
    Except Stop (Nat × List PhysicAreaItem) :=
  if entry.type = memoryAvailable then
    if acc.2.length < defaultPaiNumber then
      let spa := pageDown (u64 (entry.addr + 0xfff))
      let epa := pageDown (u64 (entry.addr + entry.len))
      if spa < epa then
        .ok (if acc.1 > epa then acc.1 else epa,
          acc.2 ++ [⟨spa, epa, (epa - spa) / 4096, spa⟩])
      else .ok acc
    else .error .paisOverflow
  else .ok acc

def getTotalMemory (info : MultibootInfo) (mrt : Nat → UInt8) : Except Stop PagePool :=
  if info.memMap then do
    let (hpa, pais) ← info.entries.foldlM addEntry (0x100000000, [])
    return ⟨hpa, (hpa + 0xfff) / 4096, 0, pais, mrt⟩
  else .error .noMemoryMap

/-- The table with `count` entries from `start` on set to `value`. -/
def fillMrt (mrt : Nat → UInt8) (start : Nat) (value : UInt8) (count : Nat) : Nat → UInt8 :=
  fun j => if start ≤ j ∧ j < start + count then value else mrt j

/-- `memset(&mrt[start], value, count)`, whose count is a `uint32_t` -/
def memsetMrt (mrt : Nat → UInt8) (start : Nat) (value : UInt8) (count : Nat) : Nat → UInt8 :=
  fillMrt mrt start value (u32 count)

/-- The loop of `set_mrt_table` over the areas, with `last_addr`, `tfpp` and the
table as accumulators. -/
def setMrtAreas (addr : Nat) :
    Nat → Nat → (Nat → UInt8) → List PhysicAreaItem → Nat × (Nat → UInt8) × List PhysicAreaItem
  | _, tfpp, mrt, [] => (tfpp, mrt, [])
  | lastAddr, tfpp, mrt, a :: rest =>
    if a.epa ≤ addr then
      let r := setMrtAreas addr lastAddr tfpp mrt rest
      (r.1, r.2.1, { a with fpp := 0 } :: r.2.2)
    else if a.spa < addr then
      let fpp := (a.epa - addr) / 4096
      let r := setMrtAreas addr a.epa (tfpp + fpp) (memsetMrt mrt (addr / 4096) 0 fpp) rest
      (r.1, r.2.1, { a with spa := addr, nfpa := addr, fpp := fpp } :: r.2.2)
    else
      let gap := memsetMrt mrt (lastAddr / 4096) 0xff ((a.spa - lastAddr) / 4096)
      let r := setMrtAreas addr a.epa (tfpp + a.fpp)
        (memsetMrt gap (a.spa / 4096) 0 a.fpp) rest
      (r.1, r.2.1, a :: r.2.2)

/-- The first address behind the reference table, which the linker places at the
physical address `mrtStart`. -/
def mrtEnd (mrtStart tpp : Nat) : Nat := pageDown (mrtStart + tpp + 0xfff)

def setMrtTable (mrtStart : Nat) (s : PagePool) : PagePool :=
  let addr := mrtEnd mrtStart s.tpp
  let r := setMrtAreas addr addr s.tfpp (memsetMrt s.mrt 0 0xff (addr / 4096)) s.pais
  { s with tfpp := r.1, mrt := r.2.1, pais := r.2.2 }

/-- The state of the allocator after `get_total_memory` and `set_mrt_table`. -/
def bootPool (mrtStart : Nat) (info : MultibootInfo) (mrt : Nat → UInt8) : Except Stop PagePool :=
  (getTotalMemory info mrt).map (setMrtTable mrtStart)

/-! ## Allocation -/

/-- The test `!_mrt_start[j]`. -/
def isFree (mrt : Nat → UInt8) (j : Nat) : Bool := mrt j == 0

/-- The body of `alloc_page_4k` for the area it settles on. -/
def allocPage4kIn (s : PagePool) (a : PhysicAreaItem) (i : Nat) : Except Stop (Nat × PagePool) :=
  let ret := a.nfpa
  let mrt := Function.update s.mrt (ret / 4096) (s.mrt (ret / 4096) + 1)
  let fpp := a.fpp - 1
  if fpp ≠ 0 then
    match Scan.first (isFree mrt) (ret / 4096) (a.epa / 4096) with
    | some j =>
      .ok (ret, { s with mrt := mrt, pais := s.pais.set i { a with fpp := fpp, nfpa := j * 4096 } })
    | none => .error .nextFreeLost
  else .ok (ret, { s with mrt := mrt, pais := s.pais.set i { a with fpp := fpp } })

def allocPage4k (s : PagePool) : Except Stop (Nat × PagePool) :=
  match s.pais.zipIdx.find? fun ai => ai.1.fpp ≠ 0 with
  | some (a, i) => allocPage4kIn s a i
  | none => .error .outOfMemory

/-- The search of `__alloc_n_pages_4k_locked` inside one area. -/
def runInArea (mrt : Nat → UInt8) (n : Nat) (a : PhysicAreaItem) : Option Nat :=
  if n ≤ a.fpp then Scan.firstRun (isFree mrt) n (a.nfpa / 4096) (a.epa / 4096) else none

/-- What `__alloc_n_pages_4k_locked` does once it has found the run at page `ret`
of area `i`. -/
def takeRun (s : PagePool) (n : Nat) (a : PhysicAreaItem) (i ret : Nat) :
    Except Stop (Nat × PagePool) :=
  let mrt := fillMrt s.mrt ret 1 n
  let fpp := a.fpp - n
  if fpp ≠ 0 then
    match Scan.first (isFree mrt) (a.nfpa / 4096) (a.epa / 4096) with
    | some k =>
      .ok (ret * 4096,
        { s with mrt := mrt, pais := s.pais.set i { a with fpp := fpp, nfpa := k * 4096 } })
    | none => .error .nextFreeLost
  else .ok (ret * 4096, { s with mrt := mrt, pais := s.pais.set i { a with fpp := fpp } })

/-- `__alloc_n_pages_4k_locked`; the result `0` says that no area had room. -/
def allocNPages4k (s : PagePool) (n : Nat) : Except Stop (Nat × PagePool) :=
  if n = 0 then .ok (0, s)
  else
    match s.pais.zipIdx.findSome? fun ai => (runInArea s.mrt n ai.1).map fun ret => (ai, ret) with
    | some ((a, i), ret) => takeRun s n a i ret
    | none => .ok (0, s)

/-! ## Reference counts -/

/-- The area update of `decrease_reference_page_4k` once a count reached zero. -/
def releaseInto (a : PhysicAreaItem) (addr : Nat) : PhysicAreaItem :=
  { a with
    nfpa := if a.fpp ≠ 0 then (if a.nfpa < addr then a.nfpa else addr) else addr
    fpp := a.fpp + 1 }

def decreaseReferencePage4k (s : PagePool) (addr : Nat) : Except Stop (UInt8 × PagePool) :=
  if addr ≥ s.hpa then .error .beyondHpa
  else
    let index := addr / 4096
    if s.mrt index = 0xff ∨ s.mrt index = 0 then .error .notReferenced
    else
      let mrt := Function.update s.mrt index (s.mrt index - 1)
      if s.mrt index - 1 = 0 then
        match s.pais.zipIdx.find? fun ai => ai.1.spa ≤ addr ∧ addr < ai.1.epa with
        | some (a, i) => .ok (0, { s with mrt := mrt, pais := s.pais.set i (releaseInto a addr) })
        | none => .error .noArea
      else .ok (s.mrt index - 1, { s with mrt := mrt })

def addReferencePage4k (s : PagePool) (addr : Nat) : Except Stop (UInt8 × PagePool) :=
  let index := addr / 4096
  if s.mrt index = 0xff ∨ s.mrt index = 0 then .error .notReferenced
  else if s.mrt index = 0xfe then .ok (1, s)
  else .ok (0, { s with mrt := Function.update s.mrt index (s.mrt index + 1) })

/-- The page the `i`-th turn of `free_n_pages_4k` releases.  The shift `i << 12`
is a 32-bit one. -/
def freedAddr (addr i : Nat) : Nat := addr + u32 (i * 4096)

def freeNPages4k (s : PagePool) (n addr : Nat) : Except Stop PagePool :=
  if addr % 4096 ≠ 0 then .error .unaligned
  else
    (List.range n).foldlM
      (fun s i => (decreaseReferencePage4k s (freedAddr addr i)).map Prod.snd) s

end Osx64.Mm
