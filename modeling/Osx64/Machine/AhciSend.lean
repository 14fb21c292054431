import Osx64.Lib.Extents

/-!
# AHCI commands

`ahci_send` (`machine/ahci.c`) describes the buffer of a command to the disk: one entry of the
physical region descriptor table for every 4096 bytes, counted from the start of the buffer, and a
register FIS with the sector number and the number of sectors.

The disk works on the bytes of the buffer exactly if the table is long enough and every entry stays
in frames that follow each other.  An entry may go over the end of a page, since the buffer is not
cut at page boundaries; and nothing keeps the number of entries below the eight of
`hba_cmd_tbl_t`.
-/

namespace Osx64.Ahci

open List

/-- The arguments of `ahci_send` and what `port->tfd` shows each time it is read. -/
structure Call where
  lba48 : Nat
  count : Nat
  buf : Nat
  slot : Nat
  busy : Nat → Bool
  lba48_lt : lba48 < 2 ^ 64
  count_lt : count < 2 ^ 32

/-- `hba_prdt_entry_t` -/
structure PrdtEntry where
  dba : Nat
  dbau : Nat
  dbc : Nat

/-- The fields of `fis_reg_h2d_t` that depend on the call. -/
structure Fis where
  lba0 : Nat
  lba1 : Nat
  lba2 : Nat
  lba3 : Nat
  lba4 : Nat
  lba5 : Nat
  countl : Nat
  counth : Nat

/-- What the disk finds when a command is issued. -/
structure Command where
  prdtl : Nat
  table : List PrdtEntry
  fis : Fis

/-- The length of the array `prdt_entry`. -/
def tableLength : Nat := 8

/-- `(uint16_t)((count - 1) >> 3) + 1`, in a `uint16_t` -/
def prdtl (count : Nat) : Nat := u16 (u16 (sub32 count 1 / 8) + 1)

/-- One entry; `dbc` has 22 bits. -/
def prdtEntry (pt : Frames) (addr dbc : Nat) : PrdtEntry :=
  ⟨u32 (pt.translate addr), u32 (pt.translate addr / 2 ^ 32), dbc % 2 ^ 22⟩

/-- The loop over the entries and the last entry. -/
def fillPrdt (pt : Frames) : Nat → Nat → Nat → List PrdtEntry
  | 0, addr, tmpCount => [prdtEntry pt addr (sub32 (u32 (tmpCount * 512)) 1)]
  | rounds + 1, addr, tmpCount =>
    prdtEntry pt addr (4 * 1024 - 1) :: fillPrdt pt rounds (addr + 4 * 1024) (sub32 tmpCount 8)

def fillFis (lba48 count : Nat) : Fis where
  lba0 := lba48 % 256
  lba1 := lba48 / 2 ^ 8 % 256
  lba2 := lba48 / 2 ^ 16 % 256
  lba3 := lba48 / 2 ^ 24 % 256
  lba4 := lba48 / 2 ^ 32 % 256
  lba5 := lba48 / 2 ^ 40 % 256
  countl := count % 256
  counth := count / 2 ^ 8 % 256

/-- The header, the table and the FIS as they are filled in. -/
def command (pt : Frames) (c : Call) : Command :=
  ⟨prdtl c.count, fillPrdt pt (prdtl c.count - 1) c.buf c.count, fillFis c.lba48 c.count⟩

/-- The loop that waits for the port, for at most `fuel` rounds. -/
def spin (busy : Nat → Bool) : Nat → Nat → Nat
  | 0, n => n
  | fuel + 1, n => if busy n then spin busy fuel (n + 1) else n

def spinLimit : Nat := 1000000

/-- `ahci_send`; `none` is the result -1, with no command issued. -/
def ahciSend (pt : Frames) (c : Call) : Option Command :=
  if 32 ≤ c.slot then none
  else if spin c.busy spinLimit 0 = spinLimit then none
  else some (command pt c)

/-! ## What the disk makes of a command -/

/-- The ranges of memory, in order: `prdtl` entries, each of `dbc + 1` bytes. -/
def Command.ranges (cmd : Command) : List (Nat × Nat) :=
  (cmd.table.take cmd.prdtl).map fun e => (e.dbau * 2 ^ 32 + e.dba, e.dbc + 1)

def Fis.lba (fis : Fis) : Nat :=
  fis.lba0 + 2 ^ 8 * fis.lba1 + 2 ^ 16 * fis.lba2 + 2 ^ 24 * fis.lba3 + 2 ^ 32 * fis.lba4 +
    2 ^ 40 * fis.lba5

/-- The number of sectors; a count of 0 stands for 65536. -/
def Fis.sectors (fis : Fis) : Nat :=
  if fis.countl + 2 ^ 8 * fis.counth = 0 then 65536 else fis.countl + 2 ^ 8 * fis.counth

/-- The command is what the call asks for. -/
structure Exact (pt : Frames) (c : Call) (cmd : Command) : Prop where
  bytes : named cmd.ranges = (range' c.buf (c.count * 512)).map pt.translate
  entries : cmd.table.length ≤ tableLength
  lba : cmd.fis.lba = c.lba48
  sectors : cmd.fis.sectors = c.count

/-- A command that is issued is what the call asks for. -/
def SendsExactly (pt : Frames) (c : Call) : Prop := ∀ cmd, ahciSend pt c = some cmd → Exact pt c cmd

/-- Every 4096 bytes of the buffer are in one page, or in two whose frames follow each other. -/
def Contiguous (pt : Frames) (buf count : Nat) : Prop :=
  ∀ p ∈ pieces 4096 ((count + 7) / 8) buf (count * 512),
    p.1 % 4096 + p.2 ≤ 4096 ∨ pt.at (p.1 + 4096) = pt.at p.1 + 1

section Send

variable {pt : Frames} {c : Call} {cmd : Command} {count lba48 addr rounds n : Nat}

theorem spin_eq_iff {busy : Nat → Bool} {fuel n : Nat} :
    spin busy fuel n = n + fuel ↔ ∀ i < fuel, busy (n + i) = true := by
  induction fuel generalizing n with
  | zero => simp [spin]
  | succ fuel ih =>
    rw [spin]
    cases hbusy : busy n with
    | false =>
      refine iff_of_false ?_ fun h => ?_
      · simp
      · have h0 := h 0 (by omega)
        rw [Nat.add_zero, hbusy] at h0
        cases h0
    | true =>
      have hsum : n + (fuel + 1) = n + 1 + fuel := by omega
      rw [if_pos rfl, hsum, ih]
      constructor
      · rintro h (_ | i) hi
        · exact hbusy
        · rw [← Nat.succ_add_eq_add_succ]
          exact h i (by omega)
      · intro h i hi
        rw [Nat.add_assoc, Nat.add_comm 1]
        exact h (i + 1) (by omega)

theorem length_fillPrdt : (fillPrdt pt rounds addr n).length = rounds + 1 := by
  induction rounds generalizing addr n with
  | zero => rfl
  | succ rounds ih => rw [fillPrdt, length_cons, ih]

theorem prdtEntry_address (dbc : Nat) :
    (prdtEntry pt addr dbc).dbau * 2 ^ 32 + (prdtEntry pt addr dbc).dba = pt.translate addr := by
  have hlt : pt.translate addr < 2 ^ 52 := Frames.translate_lt
  simp only [prdtEntry, u32]
  omega

/-- The entries are the pieces of the buffer, each at its translated address. -/
theorem map_fillPrdt (h : rounds * 8 < n) (h' : n ≤ rounds * 8 + 8) (hn : n < 2 ^ 20) :
    ((fillPrdt pt rounds addr n).map fun e => (e.dbau * 2 ^ 32 + e.dba, e.dbc + 1)) =
      (pieces 4096 (rounds + 1) addr (n * 512)).map fun p => (pt.translate p.1, p.2) := by
  induction rounds generalizing addr n with
  | zero =>
    have hdbc : sub32 (u32 (n * 512)) 1 % 2 ^ 22 + 1 = min 4096 (n * 512) := by
      rw [u32_of_lt (by omega), sub32_of_le (by omega)]
      omega
    simp only [fillPrdt, pieces, map_cons, map_nil, prdtEntry_address]
    simp only [prdtEntry, hdbc]
  | succ rounds ih =>
    have hstep : min 4096 (n * 512) = 4096 := by omega
    have hrest : n * 512 - 4096 = (n - 8) * 512 := by omega
    rw [fillPrdt, pieces, map_cons, map_cons, prdtEntry_address, sub32_of_le (by omega),
      ih (by omega) (by omega) (by omega), hstep, hrest]
    rfl

theorem lba_fillFis : (fillFis lba48 count).lba = lba48 % 2 ^ 48 := by
  simp only [fillFis, Fis.lba]
  omega

theorem sectors_fillFis (h : 1 ≤ count) (h' : count < 65536) :
    (fillFis lba48 count).sectors = count := by
  have hsum : count % 256 + 2 ^ 8 * (count / 2 ^ 8 % 256) = count := by omega
  rw [fillFis, Fis.sectors, hsum, if_neg (by omega)]

theorem prdtl_of_le (h : 1 ≤ count) (h' : count ≤ 2 ^ 18) : prdtl count = (count + 7) / 8 := by
  have hquot : u16 ((count - 1) / 8) = (count - 1) / 8 := u16_of_lt (by omega)
  rw [prdtl, sub32_of_le h, hquot, u16_of_lt (by omega)]
  omega

/-- No entry names more than `2 ^ 22` bytes. -/
theorem length_named_take_le (k : Nat) :
    (named (((fillPrdt pt rounds addr n).take k).map fun e =>
      (e.dbau * 2 ^ 32 + e.dba, e.dbc + 1))).length ≤ k * 2 ^ 22 := by
  induction k generalizing rounds addr n with
  | zero => simp
  | succ k ih =>
    have hdbc : ∀ dbc, (prdtEntry pt addr dbc).dbc < 2 ^ 22 := fun dbc =>
      Nat.mod_lt dbc (by decide)
    cases rounds with
    | zero =>
      have hlast := hdbc (sub32 (u32 (n * 512)) 1)
      simp only [fillPrdt, take_succ_cons, take_nil, map_cons, map_nil,
        named_cons, named_nil, append_nil, length_range']
      omega
    | succ rounds =>
      have hhead := hdbc (4 * 1024 - 1)
      have htail := @ih (addr + 4 * 1024) rounds (sub32 n 8)
      simp only [fillPrdt, take_succ_cons, map_cons, named_cons, length_append,
        length_range']
      omega

/-- A count of 0 stands for another one, and a large count needs too many entries, or its entries
are too few. -/
theorem Exact.count_le (h : Exact pt c (command pt c)) : 1 ≤ c.count ∧ c.count ≤ 64 := by
  have hpos : 1 ≤ c.count := by
    by_contra h0
    have hsectors := h.sectors
    have hzero : c.count = 0 := by omega
    rw [hzero] at hsectors
    simp only [command, fillFis, Fis.sectors, hzero] at hsectors
    cases hsectors
  have hentries := h.entries
  rw [command, length_fillPrdt, tableLength] at hentries
  have hbytes := congrArg length h.bytes
  rw [length_map, length_range', Command.ranges, command] at hbytes
  have hlen := hbytes ▸ length_named_take_le (prdtl c.count)
  have hle : c.count ≤ 2 ^ 18 := by omega
  rw [prdtl_of_le hpos hle] at hentries
  omega

/-- The entries of a table that is long enough. -/
theorem ranges_command (h : 1 ≤ c.count) (h' : c.count ≤ 64) :
    (command pt c).ranges = (pieces 4096 ((c.count + 7) / 8) c.buf (c.count * 512)).flatMap
      fun p => [(pt.translate p.1, p.2)] := by
  have hprdtl := prdtl_of_le h (by omega : c.count ≤ 2 ^ 18)
  have hrounds : prdtl c.count - 1 + 1 = prdtl c.count := by omega
  have htake : (command pt c).table.take (command pt c).prdtl = (command pt c).table := by
    apply take_of_length_le
    rw [command, length_fillPrdt, hrounds]
  rw [Command.ranges, htake, command, map_fillPrdt (by omega) (by omega) (by omega),
    hrounds, hprdtl, map_eq_flatMap]

/-- The number of entries, the sector number and the frames are all that can go wrong. -/
theorem exact_command_iff : Exact pt c (command pt c) ↔
    1 ≤ c.count ∧ c.count ≤ 64 ∧ c.lba48 < 2 ^ 48 ∧ Contiguous pt c.buf c.count := by
  have hbytes : 1 ≤ c.count → c.count ≤ 64 →
      (named (command pt c).ranges = (range' c.buf (c.count * 512)).map pt.translate ↔
        Contiguous pt c.buf c.count) := by
    intro h h'
    have hbuf : named (pieces 4096 ((c.count + 7) / 8) c.buf (c.count * 512)) =
        range' c.buf (c.count * 512) := named_pieces (by omega)
    rw [ranges_command h h', ← hbuf, named_flatMap_iff (by simp)]
    refine forall₂_congr fun p hp => ?_
    obtain ⟨i, hi, rfl⟩ := mem_pieces hp
    exact named_single_iff (by omega) (by omega)
  constructor
  · intro h
    obtain ⟨hpos, hle⟩ := h.count_le
    have hlba := h.lba
    rw [command, lba_fillFis] at hlba
    exact ⟨hpos, hle, by omega, (hbytes hpos hle).mp h.bytes⟩
  · rintro ⟨hpos, hle, hlba, hcont⟩
    refine ⟨(hbytes hpos hle).mpr hcont, ?_, ?_, sectors_fillFis hpos (by omega)⟩
    · rw [command, length_fillPrdt, prdtl_of_le hpos (by omega), tableLength]
      omega
    · rw [command, lba_fillFis]
      omega

/-- `ahci_send` describes the buffer exactly if it issues no command, or there are one to 64
sectors, a sector number of 48 bits, and no 4096 bytes of the buffer in frames that do not follow
each other. -/
theorem sendsExactly_iff (pt : Frames) (c : Call) : SendsExactly pt c ↔
    32 ≤ c.slot ∨ (∀ i < spinLimit, c.busy i = true) ∨
      (1 ≤ c.count ∧ c.count ≤ 64 ∧ c.lba48 < 2 ^ 48 ∧ Contiguous pt c.buf c.count) := by
  have hspin : spin c.busy spinLimit 0 = spinLimit ↔ ∀ i < spinLimit, c.busy i = true := by
    simpa only [Nat.zero_add] using @spin_eq_iff c.busy spinLimit 0
  rw [← hspin, ← exact_command_iff]
  unfold SendsExactly ahciSend
  by_cases hslot : 32 ≤ c.slot
  · simp [hslot]
  by_cases hbusy : spin c.busy spinLimit 0 = spinLimit
  · simp [hslot, hbusy]
  · simp [hslot, hbusy]

/-- A page table that turns the order of the pages around. -/
def reversed : Frames where
  frame p := 1000 - p
  frame_lt p := by omega

/-- Eight sectors at an address in the middle of page 5 are one entry, which names the end of frame
995 and the start of frame 996; page 6 is in frame 994. -/
theorem not_sendsExactly_of_offset :
    ¬ SendsExactly reversed ⟨0, 8, 5 * 4096 + 2048, 0, fun _ => false, by decide, by decide⟩ := by
  intro h
  have hexact := exact_command_iff.mp (h _ rfl)
  have hpiece := hexact.2.2.2 (5 * 4096 + 2048, 4096) (by decide)
  revert hpiece
  decide

end Send

end Osx64.Ahci
