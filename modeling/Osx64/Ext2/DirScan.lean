import Osx64.Lib.Loop
import Osx64.Ext2.Dir

/-!
# Directory scans over arbitrary blocks

Five functions walk over the records of a directory: `ext2_lookup`, `ext2_readdir`, `ext2_rmdir`
(does the directory have other entries than the dots?), `ext2_dir_add_entry` and
`ext2_dir_remove_entry`.  They believe what they read.  Here every access of theirs to the block
buffer is checked on its own, byte for byte, and the loop is one that may not end: a record of
length zero keeps it in place, and one that leads behind the last header of the block makes it read
outside.

`Records` describes a function by the records that it passes over and those that it stops at, in
terms of the bytes of the block.  A scan ends, with all accesses inside the buffer, exactly if in
every block the records have lengths that lead from one to the next, up to one the function stops at
or to the end of the block (`Records.Lead`).
-/

namespace Osx64.Ext2

/-! ## Checked accesses -/

section Access

variable {bs i v n : Nat} {b : Buf} {bytes : List UInt8}

def load8 (bs : Nat) (b : Buf) (i : Nat) : Except Fault Nat :=
  if i < bs then .ok (b i).toNat else .error .wild

def load16 (bs : Nat) (b : Buf) (i : Nat) : Except Fault Nat :=
  if i + 2 ≤ bs then .ok (b.get16 i) else .error .wild

def load32 (bs : Nat) (b : Buf) (i : Nat) : Except Fault Nat :=
  if i + 4 ≤ bs then .ok (b.get32 i) else .error .wild

/-- `memcpy(…, buf + i, n)` -/
def loadBytes (bs : Nat) (b : Buf) (i n : Nat) : Except Fault (List UInt8) :=
  if n = 0 ∨ i + n ≤ bs then .ok ((List.range n).map fun k => b (i + k)) else .error .wild

def store8 (bs : Nat) (b : Buf) (i v : Nat) : Except Fault Buf :=
  if i < bs then .ok (b.put8 i v) else .error .wild

def store16 (bs : Nat) (b : Buf) (i v : Nat) : Except Fault Buf :=
  if i + 2 ≤ bs then .ok (b.put16 i (u16 v)) else .error .wild

def store32 (bs : Nat) (b : Buf) (i v : Nat) : Except Fault Buf :=
  if i + 4 ≤ bs then .ok (b.put32 i v) else .error .wild

/-- `memcpy(buf + i, bytes, …)` -/
def storeBytes (bs : Nat) (b : Buf) (i : Nat) (bytes : List UInt8) : Except Fault Buf :=
  if bytes = [] ∨ i + bytes.length ≤ bs then
    .ok (b.blit i (fun k => bytes.getD k 0) bytes.length)
  else .error .wild

theorem checked_bind {α β : Type} {p : Prop} [Decidable p] {x : α}
    {g : α → Except Fault β} {r : β} :
    ((if p then Except.ok x else Except.error Fault.wild) >>= g) = .ok r ↔ p ∧ g x = .ok r := by
  by_cases hp : p
  · simp [hp, bind, Except.bind]
  · simp [hp, bind, Except.bind]

variable {β : Type} {r : β} {g : Buf → Except Fault β}

theorem load8_bind {g : Nat → Except Fault β} :
    (load8 bs b i >>= g) = .ok r ↔ i < bs ∧ g (b i).toNat = .ok r := checked_bind

theorem load16_bind {g : Nat → Except Fault β} :
    (load16 bs b i >>= g) = .ok r ↔ i + 2 ≤ bs ∧ g (b.get16 i) = .ok r := checked_bind

theorem load32_bind {g : Nat → Except Fault β} :
    (load32 bs b i >>= g) = .ok r ↔ i + 4 ≤ bs ∧ g (b.get32 i) = .ok r := checked_bind

theorem loadBytes_bind {g : List UInt8 → Except Fault β} :
    (loadBytes bs b i n >>= g) = .ok r ↔
      (n = 0 ∨ i + n ≤ bs) ∧ g ((List.range n).map fun k => b (i + k)) = .ok r := checked_bind

theorem store8_bind :
    (store8 bs b i v >>= g) = .ok r ↔ i < bs ∧ g (b.put8 i v) = .ok r := checked_bind

theorem store16_bind :
    (store16 bs b i v >>= g) = .ok r ↔ i + 2 ≤ bs ∧ g (b.put16 i (u16 v)) = .ok r := checked_bind

theorem store32_bind :
    (store32 bs b i v >>= g) = .ok r ↔ i + 4 ≤ bs ∧ g (b.put32 i v) = .ok r := checked_bind

theorem storeBytes_bind :
    (storeBytes bs b i bytes >>= g) = .ok r ↔ (bytes = [] ∨ i + bytes.length ≤ bs) ∧
      g (b.blit i (fun k => bytes.getD k 0) bytes.length) = .ok r := checked_bind

theorem load16_eq_ok : load16 bs b i = .ok v ↔ i + 2 ≤ bs ∧ b.get16 i = v := by
  rw [load16]
  by_cases hin : i + 2 ≤ bs
  · simp [hin]
  · simp [hin]

end Access

/-! ## The loop -/

/-- Where a scan is: the blocks from the present one on (`none` if a block cannot be read), what the
function remembers, and the offset in the block. -/
structure Place (σ : Type) where
  blocks : List (Option Buf)
  state : σ
  offset : Nat

/-- What a function does at a record: go on with something to remember, or stop. -/
abbrev Visit (σ α : Type) := Buf → σ → Nat → Except Fault (σ ⊕ α)

section Scan

variable {σ α : Type}

/-- One turn: a record, or the way from one block to the next.  `fresh` is what the function does to
its memory before a block. -/
def scanTurn (bs : Nat) (visit : Visit σ α) (fresh : σ → σ) :
    Place σ → Turn Fault (Place σ) (Found α)
  | ⟨[], _, _⟩ => .done .missing
  | ⟨none :: _, _, _⟩ => .done .ioError
  | ⟨some b :: rest, s, o⟩ =>
    if bs ≤ o then .next ⟨rest, fresh s, 0⟩
    else
      match visit b s o with
      | .error e => .fail e
      | .ok (.inr a) => .done (.here a)
      | .ok (.inl s) =>
        -- `offset += de->rec_len`
        match load16 bs b (o + 4) with
        | .error e => .fail e
        | .ok len => .next ⟨some b :: rest, s, o + len⟩

/-- The scan of the blocks ends, with every access inside the buffer; if nothing has been found,
what the function does then (`last`) is all right too. -/
def ScanEnds (bs : Nat) (visit : Visit σ α) (fresh : σ → σ) (last : Prop) (s : σ)
    (blocks : List (Option Buf)) : Prop :=
  ∃ r, Loop.Ends (scanTurn bs visit fresh) ⟨blocks, s, 0⟩ r ∧ (r = .missing → last)

/-! ## The bytes -/

/-- The records that a function passes over, what it remembers then, and the records it stops at. -/
structure Records (σ : Type) where
  passes : Buf → σ → Nat → Prop
  next : Buf → σ → Nat → σ
  stops : Buf → σ → Nat → Prop

namespace Records

variable (R : Records σ)

/-- What is remembered at the `n`-th record behind the one at `o`. -/
def memoryAt (b : Buf) (s : σ) (o : Nat) : Nat → σ
  | 0 => s
  | n + 1 => memoryAt b (R.next b s o) (o + deRecLen b o) n

/-- From `o` on there are `n` records to pass over, each of some length and with the length inside
of the block. -/
def Chain (bs : Nat) (b : Buf) (s : σ) (o n : Nat) : Prop :=
  ∀ k < n, recordAt b o k + 6 ≤ bs ∧ deRecLen b (recordAt b o k) ≠ 0 ∧
    R.passes b (R.memoryAt b s o k) (recordAt b o k)

/-- In each block the records lead to one that the function stops at, or behind the end of the
block; a block that cannot be read ends the scan. -/
def Lead (bs : Nat) (fresh : σ → σ) (last : Prop) : List (Option Buf) → σ → Nat → Prop
  | [], _, _ => last
  | none :: _, _, _ => True
  | some b :: rest, s, o => ∃ n, R.Chain bs b s o n ∧
      (recordAt b o n < bs ∧ R.stops b (R.memoryAt b s o n) (recordAt b o n) ∨
        bs ≤ recordAt b o n ∧ Lead bs fresh last rest (fresh (R.memoryAt b s o n)) 0)

/-- The description is right.  A record without length keeps the function in place, which ends only
if it stops there after all. -/
structure Describes (bs : Nat) (visit : Visit σ α) (fresh : σ → σ) : Prop where
  passes : ∀ b s o t, visit b s o = .ok (.inl t) ↔ R.passes b s o ∧ t = R.next b s o
  found : ∀ b s o a, visit b s o = .ok (.inr a) → R.stops b s o
  ends : ∀ b rest s o, o < bs → R.stops b s o →
    ∃ a, Loop.Ends (scanTurn bs visit fresh) ⟨some b :: rest, s, o⟩ (.here a)
  zero : ∀ b rest s o r, o + 6 ≤ bs → deRecLen b o = 0 → R.passes b s o →
    Loop.Ends (scanTurn bs visit fresh) ⟨some b :: rest, s, o⟩ r → R.stops b s o

end Records

variable {bs : Nat} {visit : Visit σ α} {fresh : σ → σ} {last : Prop} {R : Records σ} {b : Buf}
  {rest : List (Option Buf)} {s : σ} {o n : Nat}

theorem Records.chain_succ : R.Chain bs b s o (n + 1) ↔
    (o + 6 ≤ bs ∧ deRecLen b o ≠ 0 ∧ R.passes b s o) ∧
      R.Chain bs b (R.next b s o) (o + deRecLen b o) n := by
  constructor
  · intro h
    exact ⟨h 0 n.succ_pos, fun k hk => h (k + 1) (Nat.succ_lt_succ hk)⟩
  · rintro ⟨hfirst, hrest⟩ k hk
    cases k with
    | zero => exact hfirst
    | succ k => exact hrest k (Nat.lt_of_succ_lt_succ hk)

theorem scanTurn_past (hpast : bs ≤ o) :
    scanTurn bs visit fresh ⟨some b :: rest, s, o⟩ = .next ⟨rest, fresh s, 0⟩ := by
  simp [scanTurn, hpast]

theorem scanTurn_record {t : σ} (hin : o + 6 ≤ bs) (hvisit : visit b s o = .ok (.inl t)) :
    scanTurn bs visit fresh ⟨some b :: rest, s, o⟩ =
      .next ⟨some b :: rest, t, o + deRecLen b o⟩ := by
  have hnot : ¬bs ≤ o := by omega
  have hload : load16 bs b (o + 4) = .ok (deRecLen b o) := load16_eq_ok.2 ⟨by omega, rfl⟩
  simp [scanTurn, hnot, hvisit, hload]

theorem scanTurn_found {a : α} (hin : o < bs) (hvisit : visit b s o = .ok (.inr a)) :
    scanTurn bs visit fresh ⟨some b :: rest, s, o⟩ = .done (.here a) := by
  simp [scanTurn, Nat.not_le.2 hin, hvisit]

/-- What a turn at a record comes to. -/
theorem scanTurn_cases (hpast : o < bs) :
    (∃ a, visit b s o = .ok (.inr a) ∧
      scanTurn bs visit fresh ⟨some b :: rest, s, o⟩ = .done (.here a)) ∨
    (∃ t, visit b s o = .ok (.inl t) ∧ o + 6 ≤ bs ∧
      scanTurn bs visit fresh ⟨some b :: rest, s, o⟩ =
        .next ⟨some b :: rest, t, o + deRecLen b o⟩) ∨
    ∃ e, scanTurn bs visit fresh ⟨some b :: rest, s, o⟩ = .fail e := by
  cases hvisit : visit b s o with
  | error e => exact .inr (.inr ⟨e, by simp [scanTurn, Nat.not_le.2 hpast, hvisit]⟩)
  | ok result =>
    cases result with
    | inr a => exact .inl ⟨a, rfl, scanTurn_found hpast hvisit⟩
    | inl t =>
      by_cases hin : o + 6 ≤ bs
      · exact .inr (.inl ⟨t, rfl, hin, scanTurn_record hin hvisit⟩)
      · have hload : load16 bs b (o + 4) = .error .wild := if_neg (by omega)
        exact .inr (.inr ⟨.wild, by simp [scanTurn, Nat.not_le.2 hpast, hvisit, hload]⟩)

/-- What a scan comes to, from what the function does at a record. -/
theorem Records.Describes.scanEnds_iff (h : R.Describes bs visit fresh) (s : σ)
    (blocks : List (Option Buf)) :
    ScanEnds bs visit fresh last s blocks ↔ R.Lead bs fresh last blocks s 0 := by
  constructor
  · rintro ⟨r, hends, hlast⟩
    suffices ∀ p r, Loop.Ends (scanTurn bs visit fresh) p r → (r = .missing → last) →
        R.Lead bs fresh last p.blocks p.state p.offset from this _ r hends hlast
    clear hends hlast r
    -- along the turns, the chain of a block is built from its end
    intro p r hends hlast
    induction hends with
    | @done p r hstep =>
      rcases p with ⟨_ | ⟨_ | b, rest⟩, s, o⟩
      · cases hstep
        exact hlast rfl
      · trivial
      · by_cases hpast : bs ≤ o
        · rw [scanTurn_past hpast] at hstep
          cases hstep
        · rcases scanTurn_cases (Nat.lt_of_not_le hpast) with ⟨a, hvisit, -⟩
            | ⟨t, -, -, hturn⟩ | ⟨e, hturn⟩
          · exact ⟨0, nofun, .inl ⟨Nat.lt_of_not_le hpast, h.found b s o a hvisit⟩⟩
          · cases hturn.symm.trans hstep
          · cases hturn.symm.trans hstep
    | @next p q r hstep hrest ih =>
      rcases p with ⟨_ | ⟨_ | b, rest⟩, s, o⟩
      · cases hstep
      · cases hstep
      · by_cases hpast : bs ≤ o
        · rw [scanTurn_past hpast] at hstep
          cases hstep
          exact ⟨0, nofun, .inr ⟨hpast, ih hlast⟩⟩
        · have hlt := Nat.lt_of_not_le hpast
          rcases scanTurn_cases hlt with ⟨a, -, hturn⟩ | ⟨t, hvisit, hin, hturn⟩ | ⟨e, hturn⟩
          · cases hturn.symm.trans hstep
          · obtain ⟨hpass, rfl⟩ := (h.passes b s o t).1 hvisit
            by_cases hzero : deRecLen b o = 0
            · have hall := h.zero b rest s o r hin hzero hpass (.next hstep hrest)
              exact ⟨0, nofun, .inl ⟨hlt, hall⟩⟩
            · cases hturn.symm.trans hstep
              obtain ⟨n, hchain, hend⟩ := ih hlast
              exact ⟨n + 1, chain_succ.2 ⟨⟨hin, hzero, hpass⟩, hchain⟩, hend⟩
          · cases hturn.symm.trans hstep
  · suffices ∀ blocks s o, R.Lead bs fresh last blocks s o →
        ∃ r, Loop.Ends (scanTurn bs visit fresh) ⟨blocks, s, o⟩ r ∧ (r = .missing → last) from
      this blocks s 0
    intro blocks
    induction blocks with
    | nil => exact fun s o hlast => ⟨.missing, .done rfl, fun _ => hlast⟩
    | cons block rest ih =>
      cases block with
      | none => exact fun s o _ => ⟨.ioError, .done rfl, nofun⟩
      | some b =>
        rintro s o ⟨n, hchain, hend⟩
        induction n generalizing s o with
        | zero =>
          rcases hend with ⟨hlt, hstop⟩ | ⟨hpast, hrest⟩
          · obtain ⟨a, hends⟩ := h.ends b rest s o hlt hstop
            exact ⟨.here a, hends, nofun⟩
          · obtain ⟨r, hends, hlast⟩ := ih _ 0 hrest
            exact ⟨r, .next (scanTurn_past hpast) hends, hlast⟩
        | succ n ihn =>
          obtain ⟨⟨hin, -, hpass⟩, hchain⟩ := chain_succ.1 hchain
          obtain ⟨r, hends, hlast⟩ := ihn _ _ hchain hend
          exact ⟨r, .next (scanTurn_record hin ((h.passes _ _ _ _).2 ⟨hpass, rfl⟩)) hends, hlast⟩

/-- A function that passes over a record again if it comes to it again stays at one without
length. -/
theorem not_ends_of_zero (hpasses : ∀ s t, visit b s o = .ok (.inl t) ↔ R.passes b s o ∧
    t = R.next b s o) (hstay : ∀ s, R.passes b s o → R.passes b (R.next b s o) o) (hin : o + 6 ≤ bs)
    (hzero : deRecLen b o = 0) (hpass : R.passes b s o) {r : Found α} :
    ¬Loop.Ends (scanTurn bs visit fresh) ⟨some b :: rest, s, o⟩ r := by
  refine @Loop.not_ends_of_trap _ _ _ _ _ _ (fun p => ∃ s, p = ⟨some b :: rest, s, o⟩ ∧
    R.passes b s o)
    ?_ ⟨s, rfl, hpass⟩
  rintro _ ⟨s, rfl, hpass⟩
  refine ⟨_, scanTurn_record hin ((hpasses s _).2 ⟨hpass, rfl⟩), R.next b s o, ?_, hstay s hpass⟩
  rw [hzero, Nat.add_zero]

/-- The functions whose memory does not matter for what they pass over. -/
theorem Records.describes_of_stay
    (hpasses : ∀ b s o t, visit b s o = .ok (.inl t) ↔ R.passes b s o ∧ t = R.next b s o)
    (hstops : ∀ b s o, (∃ a, visit b s o = .ok (.inr a)) ↔ R.stops b s o)
    (hstay : ∀ b s o, R.passes b s o → R.passes b (R.next b s o) o) :
    R.Describes bs visit fresh where
  passes := hpasses
  found b s o a hvisit := (hstops b s o).1 ⟨a, hvisit⟩
  ends b rest s o hin hstop := by
    obtain ⟨a, hvisit⟩ := (hstops b s o).2 hstop
    exact ⟨a, .done (scanTurn_found hin hvisit)⟩
  zero b rest s o r hin hzero hpass hends :=
    absurd hends (not_ends_of_zero (hpasses b · o) (hstay b · o) hin hzero hpass)

/-- A first record without length that the function does not stop at keeps it for ever. -/
theorem Records.Describes.not_scanEnds (h : R.Describes bs visit fresh) (hbs : 6 ≤ bs)
    (hzero : deRecLen b 0 = 0) (hpass : R.passes b s 0) (hnot : ¬R.stops b s 0) :
    ¬ScanEnds bs visit fresh last s (some b :: rest) := by
  rintro ⟨r, hends, -⟩
  exact hnot (h.zero b rest s 0 r (by omega) hzero hpass hends)

end Scan

end Osx64.Ext2
