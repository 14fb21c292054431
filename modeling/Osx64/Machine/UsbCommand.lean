import Osx64.Machine.UsbStatus
import Osx64.Mm.Translate

/-!
# The command blocks of USB reads and writes

A read or write is sent as one command block, a READ(10) or WRITE(10), which has 32 bits for the
first sector and 16 bits for the number of sectors.  Both drivers fill it in the same way, and drop
the bits of `lba` and `count` that do not fit.  The kernel thread computes the length of the data
once more, as an `int`, to build the descriptors, and looks up the physical address of every packet.

Without pages for the descriptors the request fails, but the thread for EHCI first gives the pages
back that it has not got, at the physical address of `NULL`.  Without pages for the parts of the
buffer that are not mapped yet, the machine stops.
-/

namespace Osx64.Usb

open Mm List Buf

/-- The value that an `int` keeps. -/
def toInt (x : Int) : Int := x.bmod (2 ^ 32)

/-- `data_packet_count` in EHCI and `td_count` in UHCI -/
def packetCount (maxPacket count : Nat) : Int :=
  (toInt (toInt (count * 512) + maxPacket - 1)).tdiv maxPacket

/-- `req->page_num`, a `uint32_t` -/
def pageNum (driver : Driver) (maxPacket count : Nat) : Nat :=
  let packets := packetCount maxPacket count
  let pages :=
    match driver with
    | .ehci => (toInt (toInt (toInt (packets + 2) * 32) + 4095)).tdiv 4096
    | .uhci => (toInt (packets + 129)).tdiv 128
  (pages % 2 ^ 32).toNat

/-- Where the packets are in the buffer.  Only the last one can be shorter than `max_packet`. -/
def packetAddrs (maxPacket count buffer : Nat) : List Nat :=
  (range (packetCount maxPacket count).toNat).map fun i => buffer + i * maxPacket

inductive Built where
  | built
  | failed
  | stopped
deriving DecidableEq

/-- What becomes of the descriptors in `ehci_build_request` or `uhci_build_request` and in the
thread, for a device with both bulk endpoints.  The command block itself is in memory that is
mapped. -/
def build (driver : Driver) (m : Machine) (cr3 buffer maxPacket count : Nat) : Built :=
  -- the division by `max_packet`
  if maxPacket = 0 then .stopped
  else
    match allocNPages4k m.pool (pageNum driver maxPacket count) with
    | .error _ => .stopped
    | .ok (phyMem, pool) =>
      if phyMem = 0 then
        match driver with
        | .ehci =>
          -- `easy_linear2phy(req->qtd_head)` with no `qtd_head`
          if (freeNPages4k pool (pageNum driver maxPacket count) (2 ^ 47)).isOk then .failed
          else .stopped
        | .uhci => .failed
      else
        match memLinear2phyGetAll { m with pool := pool } cr3
          (packetAddrs maxPacket count buffer) with
        | .error _ => .stopped
        | .ok _ => .built

/-- `req->bulk.cbw` -/
def commandBlock (write : Bool) (lba count tag : Nat) : Buf :=
  let cbw := zero.put32 0 0x43425355
  let cbw := cbw.put32 4 tag
  let cbw := cbw.put32 8 (u32 (count * 512))
  let cbw := cbw.put8 12 (if write then 0x00 else 0x80)
  let cbw := cbw.put8 14 10
  let cbw := cbw.put8 15 (if write then 0x2A else 0x28)
  let cbw := cbw.put8 17 (lba / 2 ^ 24)
  let cbw := cbw.put8 18 (lba / 2 ^ 16)
  let cbw := cbw.put8 19 (lba / 2 ^ 8)
  let cbw := cbw.put8 20 lba
  let cbw := cbw.put8 22 (count / 2 ^ 8)
  cbw.put8 23 count

/-- A function returns an error, does not return since the machine stops, or sends a command
block. -/
inductive Outcome where
  | error
  | stopped
  | sent (cbw : Buf)

/-- `m` is the memory when `kmalloc` has returned the request; without memory it does not return.
The tables of the calling task are those of `cr3`. -/
def submitRwRequest (driver : Driver) (m : Machine) (cr3 maxPacket : Nat) (write : Bool)
    (lba count buffer tag : Nat) : Outcome :=
  match build driver m cr3 buffer maxPacket count with
  | .built => .sent (commandBlock write lba count tag)
  | .failed => .error
  | .stopped => .stopped

def ehciSubmitRwRequest := submitRwRequest .ehci

def uhciSubmitRwRequest := submitRwRequest .uhci

/-! ## Decoding -/

/-- The number of sectors of a READ(10) or WRITE(10). -/
def transferBlocks (cbw : Buf) : Nat := (cbw 22).toNat * 2 ^ 8 + (cbw 23).toNat

/-- The sectors of a READ(10) or WRITE(10). -/
def sectors (cbw : Buf) : List Nat :=
  range' ((cbw 17).toNat * 2 ^ 24 + (cbw 18).toNat * 2 ^ 16 + (cbw 19).toNat * 2 ^ 8 +
    (cbw 20).toNat)
    (transferBlocks cbw)

/-- An error, or the command for exactly these sectors. -/
def Outcome.Denotes (write : Bool) (lba count : Nat) : Outcome → Prop
  | .error => True
  | .stopped => False
  | .sent cbw => cbw 15 = (if write then 0x2A else 0x28) ∧ sectors cbw = range' lba count ∧
      cbw.get32 8 = 512 * transferBlocks cbw

section Decode

variable {driver : Driver} {m : Machine} {roots : Nat → Prop} {write : Bool}
  {cr3 maxPacket lba count buffer tag : Nat}

theorem transferBlocks_commandBlock :
    transferBlocks (commandBlock write lba count tag) = count % 2 ^ 16 := by
  change (UInt8.ofNat (count / 2 ^ 8)).toNat * 2 ^ 8 + (UInt8.ofNat count).toNat = _
  rw [UInt8.toNat_ofNat', UInt8.toNat_ofNat']
  omega

theorem sectors_commandBlock :
    sectors (commandBlock write lba count tag) = range' (lba % 2 ^ 32) (count % 2 ^ 16) := by
  rw [sectors, transferBlocks_commandBlock]
  refine congrArg (range' · _) ?_
  change (UInt8.ofNat (lba / 2 ^ 24)).toNat * 2 ^ 24 + (UInt8.ofNat (lba / 2 ^ 16)).toNat * 2 ^ 16 +
    (UInt8.ofNat (lba / 2 ^ 8)).toNat * 2 ^ 8 + (UInt8.ofNat lba).toNat = _
  simp only [UInt8.toNat_ofNat']
  omega

theorem get32_commandBlock : (commandBlock write lba count tag).get32 8 = u32 (count * 512) := by
  have hbytes : ∀ k < 4, commandBlock write lba count tag (8 + k) =
      ((zero.put32 0 0x43425355).put32 4 tag).put32 8 (u32 (count * 512)) (8 + k) := by
    intro k hk
    simp (disch := omega) only [commandBlock, put8_of_ne]
  rw [get32_congr hbytes, get32_put32 (u32_lt _)]

/-- The fields are wide enough. -/
def Fits (lba count : Nat) : Prop := count < 2 ^ 16 ∧ (lba < 2 ^ 32 ∨ count = 0)

theorem range_eq_iff : range' (lba % 2 ^ 32) (count % 2 ^ 16) = range' lba count ↔
    Fits lba count := by
  constructor
  · intro h
    have hlength : count % 2 ^ 16 = count := by
      simpa using congrArg length h
    refine ⟨by omega, ?_⟩
    rw [hlength] at h
    cases count with
    | zero => exact .inr rfl
    | succ n =>
      rw [range'_succ, range'_succ] at h
      have hfirst := (cons.inj h).1
      exact .inl (by omega)
  · rintro ⟨hcount, hlba | rfl⟩
    · rw [Nat.mod_eq_of_lt hcount, Nat.mod_eq_of_lt hlba]
    · rfl

theorem denotes_commandBlock :
    (Outcome.sent (commandBlock write lba count tag)).Denotes write lba count ↔ Fits lba count := by
  rw [Outcome.Denotes, sectors_commandBlock, range_eq_iff, get32_commandBlock,
    transferBlocks_commandBlock]
  constructor
  · intro h
    exact h.2.1
  · intro h
    refine ⟨?_, h, ?_⟩
    · cases write <;> rfl
    · have hcount := h.1
      rw [u32_of_lt (by omega)]
      omega

/-! ## Pages -/

/-- The entries of the page tables that the buffer needs and that are not there. -/
def unmapped (m : Machine) (cr3 maxPacket count buffer : Nat) : Finset Place :=
  missing m.mem cr3 ((packetAddrs maxPacket count buffer).toFinset.biUnion placesOf)

/-- With pages for the descriptors, the fields are wide enough and there are also pages for the
buffer.  Without, the driver is UHCI, or no page was asked for. -/
def Sendable (driver : Driver) (m : Machine) (cr3 maxPacket lba count buffer : Nat) : Prop :=
  0 < maxPacket ∧
    (m.pool.HasRun (pageNum driver maxPacket count) → Fits lba count ∧
      pageNum driver maxPacket count + (unmapped m cr3 maxPacket count buffer).card ≤
        m.pool.freeTotal) ∧
    (driver = .ehci → pageNum driver maxPacket count = 0 ∨
      m.pool.HasRun (pageNum driver maxPacket count))

/-- What the kernel keeps: its page tables are in order, the memory ends below the address that EHCI
takes for that of no page, and big pages are only in the direct map. -/
structure Ready (m : Machine) (roots : Nat → Prop) (cr3 maxPacket count buffer : Nat) : Prop where
  tables : TablesOk m roots
  root : roots cr3
  hpa : m.pool.hpa ≤ 2 ^ 47
  small : Small m.mem cr3 ((packetAddrs maxPacket count buffer).toFinset.biUnion placesOf)

theorem freeNPages4k_beyond {pool : PagePool} {n : Nat} (hhpa : pool.hpa ≤ 2 ^ 47) :
    (freeNPages4k pool n (2 ^ 47)).isOk = decide (n = 0) := by
  cases n with
  | zero => rfl
  | succ n =>
    have hfirst : decreaseReferencePage4k pool (freedAddr (2 ^ 47) 0) = .error .beyondHpa := by
      rw [decreaseReferencePage4k, if_pos]
      exact hhpa
    rw [freeNPages4k, if_neg (by decide), range_succ_eq_map, foldlM_cons, hfirst]
    rfl

/-- A run is taken for the descriptors, and then pages for the buffer. -/
theorem build_of_run (h : Ready m roots cr3 maxPacket count buffer) (hpos : 0 < maxPacket)
    (hrun : m.pool.HasRun (pageNum driver maxPacket count)) :
    build driver m cr3 buffer maxPacket count =
      if pageNum driver maxPacket count + (unmapped m cr3 maxPacket count buffer).card ≤
        m.pool.freeTotal then .built else .stopped := by
  obtain ⟨addr, pool, halloc, hpool, hlayout, hused, htotal⟩ := h.tables.pool.allocNPages4k_run hrun
  have h₁ := h.tables.setPool hpool hlayout hused
  rw [build, if_neg (by omega), halloc]
  dsimp only
  rw [if_neg (by omega)]
  rcases h₁.memLinear2phyGetAll_supplies h.root _ h.small with ⟨⟨halt, herror⟩, hfew⟩ |
    ⟨phys, m', hget, _, hfilled⟩
  · rw [herror, if_neg]
    change pool.freeTotal < (unmapped m cr3 maxPacket count buffer).card at hfew
    omega
  · have htotal' := hfilled.total
    change _ + (unmapped m cr3 maxPacket count buffer).card = pool.freeTotal at htotal'
    rw [hget, if_pos (by omega)]

theorem build_of_no_run (h : Ready m roots cr3 maxPacket count buffer) (hpos : 0 < maxPacket)
    (hrun : ¬ m.pool.HasRun (pageNum driver maxPacket count)) :
    build driver m cr3 buffer maxPacket count = .failed ∧
        (driver = .ehci → pageNum driver maxPacket count = 0) ∨
      build driver m cr3 buffer maxPacket count = .stopped ∧
        driver = .ehci ∧ pageNum driver maxPacket count ≠ 0 := by
  rw [build, if_neg (by omega), h.tables.pool.allocNPages4k_none hrun]
  dsimp only
  rw [if_pos rfl]
  cases driver with
  | ehci =>
    dsimp only
    rw [freeNPages4k_beyond h.hpa]
    split
    · next hzero => exact .inl ⟨rfl, fun _ => of_decide_eq_true hzero⟩
    · next hzero => exact .inr ⟨rfl, rfl, fun hpages => hzero (decide_eq_true hpages)⟩
  | uhci => exact .inl ⟨rfl, nofun⟩

theorem denotes_submitRwRequest (h : Ready m roots cr3 maxPacket count buffer) :
    (submitRwRequest driver m cr3 maxPacket write lba count buffer tag).Denotes write lba count ↔
      Sendable driver m cr3 maxPacket lba count buffer := by
  unfold submitRwRequest
  by_cases hpos : 0 < maxPacket
  · by_cases hrun : m.pool.HasRun (pageNum driver maxPacket count)
    · rw [build_of_run h hpos hrun]
      by_cases hroom : pageNum driver maxPacket count +
          (unmapped m cr3 maxPacket count buffer).card ≤ m.pool.freeTotal
      · rw [if_pos hroom]
        refine denotes_commandBlock.trans ⟨fun hfits => ?_, fun hs => (hs.2.1 hrun).1⟩
        exact ⟨hpos, fun _ => ⟨hfits, hroom⟩, fun _ => .inr hrun⟩
      · rw [if_neg hroom]
        exact iff_of_false id fun hs => hroom (hs.2.1 hrun).2
    · rcases build_of_no_run h hpos hrun with ⟨hbuild, hpages⟩ | ⟨hbuild, hdriver, hpages⟩
      · rw [hbuild]
        exact iff_of_true trivial
          ⟨hpos, fun hsome => absurd hsome hrun, fun hdriver => .inl (hpages hdriver)⟩
      · rw [hbuild]
        exact iff_of_false id fun hs => (hs.2.2 hdriver).elim hpages hrun
  · rw [build, if_pos (by omega)]
    exact iff_of_false id fun hs => hpos hs.1

end Decode

/-! ## A user buffer that has not been touched -/

theorem unmapped_card_pos {m : Machine} {cr3 maxPacket count buffer v : Nat}
    (hv : v ∈ packetAddrs maxPacket count buffer) (hdirect : isDirect v = false)
    (hnone : entryAt m.mem cr3 ([], layer0 v) = none) :
    0 < (unmapped m cr3 maxPacket count buffer).card := by
  have hplace : ([], layer0 v) ∈ placesOf v := by
    rw [placesOf, hdirect]
    exact Finset.mem_insert_self _ _
  refine Finset.card_pos.mpr ⟨([], layer0 v), ?_⟩
  rw [unmapped, missing, Finset.mem_filter, Finset.mem_biUnion]
  exact ⟨⟨v, mem_toFinset.mpr hv, hplace⟩, hnone⟩

theorem sampleMachine_ready (maxPacket count : Nat) :
    Ready sampleMachine (· = 12) 12 maxPacket count 0x400000 where
  tables := sampleMachine_ok
  root := rfl
  hpa := by decide
  small e _ x _ hx := by
    obtain ⟨t, _, hx⟩ := Option.bind_eq_some_iff.mp hx
    cases hx

theorem sampleMachine_hasRun {n : Nat} : sampleMachine.pool.HasRun n ↔ 0 < n ∧ n ≤ 8 := by
  constructor
  · rintro ⟨hn, a, ha, start, hlo, hhi, _⟩
    rw [mem_singleton.mp ha] at hlo hhi
    dsimp only at hlo hhi
    omega
  · rintro ⟨hn, hle⟩
    refine ⟨hn, _, mem_singleton_self _, 1, by decide, by dsimp only; omega, fun k hk => ?_⟩
    have hpage : 1 ≤ 1 + k ∧ 1 + k < 9 := by omega
    simp [isFree, sampleMachine, hpage]

end Osx64.Usb
