import Mathlib.Algebra.Group.Int.Defs
import Osx64.Mm.Page

/-!
# Files in memory

A file of ramfs is one block from `kmalloc`, replaced by another whenever the size changes.  Sizes
and positions have 64 bits, but `kmalloc`, `memcpy` and `memset` take a `uint32_t`, and of that
`heap_alloc` rounds the last 4095 values up to nothing; `ramfs_setattr` takes a signed length as it
comes.  This module says what the three calls should do to a file (`File`), and finds the calls that
do it: those whose sizes `kmalloc` can round, those that are refused for want of memory, and a
remainder of calls whose end wraps around 64 bits without an effect.
-/

namespace Osx64.Ramfs

open Option Buf Mm

/-- A value of `size_t` as a signed number. -/
def i64 (x : Nat) : Int := if x < 2 ^ 63 then x else x - 2 ^ 64

/-- What ends a call in the middle. -/
inductive Fault
  /-- an access outside the buffer of the file -/
  | wild
  /-- `halt()` in `kfree` -/
  | halt

/-- A block from `kmalloc`, of `cap` bytes. -/
structure Chunk where
  cap : Nat
  bytes : Buf
  cap_le : cap ≤ kmallocMax

/-- The block that `kmalloc(size)` finds, with its old contents; the parameter is a `uint32_t`. -/
def Chunk.new (junk : Buf) (size : Nat) : Chunk where
  cap := kmallocSize (u32 size)
  bytes := junk
  cap_le := kmallocSize_le _

/-- `kmalloc(size)`; the answer is `NULL` or the old contents of a free block. -/
def kmalloc (answer : Option Buf) (size : Nat) : Option Chunk :=
  answer.map fun junk => .new junk size

/-- `kfree(data)` -/
def kfree (data : Option Chunk) : Except Fault Unit :=
  data.elim (.error .halt) fun _ => .ok ()

/-- An access to `n` bytes at `at` lies in a buffer of `size` bytes that is kept in the block. -/
def Chunk.Within (c : Chunk) (size start n : Nat) : Prop :=
  n = 0 ∨ start + n ≤ c.cap ∧ start + n ≤ size
deriving Decidable

/-- The source of `memcpy(…, data + start, len)` -/
def Chunk.load (c : Chunk) (size start len : Nat) : Except Fault Buf :=
  if c.Within size start (u32 len) then .ok (c.bytes.drop start) else .error .wild

/-- `memcpy(data + start, src, len)` -/
def Chunk.store (c : Chunk) (size start : Nat) (src : Buf) (len : Nat) : Except Fault Chunk :=
  if c.Within size start (u32 len) then
    .ok { c with bytes := c.bytes.blit start src (u32 len) }
  else .error .wild

/-- `node->data` and `node->data_size`, and the size of the inode. -/
structure Node where
  data : Option Chunk
  dataSize : Nat
  size : Nat

/-- What a call returns, what it leaves in the caller's buffer, and the file. -/
structure Reply where
  ret : Int
  user : Buf
  node : Node

/-- The part `ramfs_write` and `ramfs_setattr` share: the old contents and zeros behind them go to a
larger block. -/
def extend (n : Node) (new : Chunk) (newSize : Nat) : Except Fault Node := do
  let new ← n.data.elim (.ok new) fun old => do
    let src ← old.load n.dataSize 0 n.dataSize
    let new ← new.store newSize 0 src n.dataSize
    kfree n.data
    .ok new
  let new ← new.store newSize n.dataSize Buf.zero (newSize - n.dataSize)
  .ok { n with data := some new, dataSize := newSize }

/-- `ramfs_read` -/
def read (n : Node) (buf : Buf) (len pos : Nat) : Except Fault Reply :=
  n.data.elim (.ok ⟨0, buf, n⟩) fun c =>
    if i64 n.size ≤ pos then .ok ⟨0, buf, n⟩
    else do
      let len := if n.size < u64 (pos + len) then n.size - pos else len
      let src ← c.load n.dataSize pos len
      .ok ⟨i64 len, buf.blit 0 src (u32 len), n⟩

/-- The last `memcpy` of `ramfs_write` -/
def put (n : Node) (buf : Buf) (len pos : Nat) : Except Fault Reply :=
  n.data.elim (if u32 len = 0 then .ok ⟨i64 len, buf, n⟩ else .error .wild) fun c => do
    let c ← c.store n.dataSize pos buf len
    .ok ⟨i64 len, buf, { n with data := some c }⟩

/-- `ramfs_write` -/
def write (n : Node) (answer : Option Buf) (buf : Buf) (len pos : Nat) : Except Fault Reply :=
  let newSize := u64 (pos + len)
  if n.dataSize < newSize then
    (kmalloc answer newSize).elim (.ok ⟨-1, buf, n⟩) fun new => do
      let n ← extend n new newSize
      put { n with size := newSize } buf len pos
  else put n buf len pos

/-- `ramfs_setattr` with `ATTR_SIZE` -/
def setattr (n : Node) (answer : Option Buf) (buf : Buf) (newSize : Int) : Except Fault Reply :=
  -- the length as `kmalloc`, `memcpy` and `data_size` get it
  let stored := (newSize % 2 ^ 64).toNat
  if i64 n.dataSize < newSize then
    (kmalloc answer stored).elim (.ok ⟨-1, buf, n⟩) fun new => do
      let n ← extend n new stored
      .ok ⟨0, buf, { n with size := stored }⟩
  else if newSize < i64 n.dataSize then
    if 0 < newSize then
      (kmalloc answer stored).elim (.ok ⟨-1, buf, n⟩) fun new => do
        let src ← n.data.elim (.error .wild) fun old => old.load n.dataSize 0 stored
        let new ← new.store stored 0 src stored
        kfree n.data
        .ok ⟨0, buf, { data := some new, dataSize := stored, size := stored }⟩
    else do
      kfree n.data
      .ok ⟨0, buf, { data := none, dataSize := stored, size := stored }⟩
  else .ok ⟨0, buf, { n with size := stored }⟩

/-- A call on the file, with the answer `kmalloc` would give during it. -/
inductive Call
  | read (buf : Buf) (len pos : Nat)
  | write (answer : Option Buf) (buf : Buf) (len pos : Nat)
  | setattr (answer : Option Buf) (buf : Buf) (newSize : Int)

/-- The arguments are what their types can hold: a `size_t`, a position `sys_lseek` accepts, an
`off_t`. -/
def Call.InRange : Call → Prop
  | .read _ len pos => len < 2 ^ 64 ∧ pos < 2 ^ 63
  | .write _ _ len pos => len < 2 ^ 64 ∧ pos < 2 ^ 63
  | .setattr _ _ newSize => -2 ^ 63 ≤ newSize ∧ newSize < 2 ^ 63

def exec (n : Node) : Call → Except Fault Reply
  | .read buf len pos => read n buf len pos
  | .write answer buf len pos => write n answer buf len pos
  | .setattr answer buf newSize => setattr n answer buf newSize

/-! ## What a file is -/

/-- A length, and the byte last written at every place, zero where none was. -/
structure File where
  length : Nat
  bytes : Buf

namespace File

def write (f : File) (buf : Buf) (len pos : Nat) : File where
  length := max f.length (pos + len)
  bytes := f.bytes.blit pos buf len

def truncate (f : File) (length : Nat) : File where
  length := length
  bytes := f.bytes.clip length

/-- How many bytes a read of `len` at `pos` finds. -/
def count (f : File) (len pos : Nat) : Nat := min len (f.length - pos)

/-- The file after a call, which has no effect if it returns an error. -/
def after (f : File) (c : Call) (ret : Int) : File :=
  if ret < 0 then f
  else match c with
    | .read .. => f
    | .write _ buf len pos => f.write buf len pos
    | .setattr _ _ newSize => f.truncate newSize.toNat

end File

/-- The node holds the file. -/
structure Holds (n : Node) (f : File) : Prop where
  null_iff : n.data = none ↔ n.dataSize = 0
  room : ∀ c ∈ n.data, n.dataSize ≤ c.cap
  size_eq : n.size = n.dataSize
  length_eq : n.dataSize = f.length
  bytes_eq : ∀ c ∈ n.data, ∀ i < n.dataSize, c.bytes i = f.bytes i
  zero : ∀ i, n.dataSize ≤ i → f.bytes i = 0

/-- What a call that is not refused answers. -/
def Answered (f : File) (r : Reply) : Call → Prop
  | .read buf len pos => r.ret = f.count len pos ∧
      ∀ i, r.user i = if i < f.count len pos then f.bytes (pos + i) else buf i
  | .write _ _ len _ => 0 ≤ r.ret → r.ret = len
  | .setattr .. => 0 ≤ r.ret → r.ret = 0

/-- The call did what it should. -/
structure Kept (n : Node) (f : File) (c : Call) (r : Reply) : Prop where
  holds : Holds r.node (f.after c r.ret)
  failed : r.ret < 0 → r.node = n
  answered : Answered f r c

/-- The `memcpy` of a write would change nothing. -/
def Untouched (n : Node) (buf : Buf) (len pos : Nat) : Prop :=
  u32 len = 0 ∨ ∃ c ∈ n.data, pos + u32 len ≤ n.dataSize ∧ ∀ j < u32 len, c.bytes (pos + j) = buf j

/-- The calls that do what they should. -/
def Safe (n : Node) : Call → Prop
  | .read _ len pos => n.size ≤ pos ∨ pos + len < 2 ^ 64
  | .write answer buf len pos => pos + len ≤ kmallocMax ∨
      n.dataSize < u64 (pos + len) ∧ answer = none ∨
      2 ^ 64 ≤ pos + len ∧ u64 (pos + len) ≤ n.dataSize ∧ Untouched n buf len pos
  | .setattr answer _ newSize => 0 ≤ newSize ∧ (newSize ≤ kmallocMax ∨ answer = none)

/-! ## The memory operations -/

variable {x size start : Nat} {c : Chunk} {calls : List Call}

theorem i64_of_lt (hx : x < 2 ^ 63) : i64 x = x := if_pos hx

theorem i64_neg (hlow : 2 ^ 63 ≤ x) (hx : x < 2 ^ 64) : i64 x < 0 := by
  rw [i64, if_neg (by omega)]
  omega

theorem Chunk.load_eq {len : Nat} (hwithin : c.Within size start (u32 len)) :
    c.load size start len = .ok (c.bytes.drop start) := if_pos hwithin

theorem Chunk.store_eq {len : Nat} (src : Buf) (hwithin : c.Within size start (u32 len)) :
    c.store size start src len = .ok { c with bytes := c.bytes.blit start src (u32 len) } :=
  if_pos hwithin

theorem Chunk.store_ok {d : Chunk} {len : Nat} {src : Buf}
    (hstore : c.store size start src len = .ok d) :
    c.Within size start (u32 len) ∧ d = { c with bytes := c.bytes.blit start src (u32 len) } := by
  rw [Chunk.store] at hstore
  split at hstore
  · rename_i hwithin
    exact ⟨hwithin, (Except.ok.inj hstore).symm⟩
  · cases hstore

variable {n : Node} {f : File} {len pos : Nat} {buf : Buf} {r : Reply}

namespace Holds

variable (hholds : Holds n f)

include hholds

theorem le_max : n.dataSize ≤ kmallocMax := by
  cases hdata : n.data with
  | none => simp [hholds.null_iff.1 hdata]
  | some c => exact (hholds.room c hdata).trans c.cap_le

theorem lt : n.dataSize < 2 ^ 32 := Nat.lt_of_le_of_lt hholds.le_max (by decide)

theorem i64_eq : i64 n.dataSize = n.dataSize := i64_of_lt (Nat.lt_trans hholds.lt (by decide))

/-- The block of a file that is not empty. -/
theorem chunk (hpos : 0 < n.dataSize) : ∃ c, n.data = some c := by
  apply ne_none_iff_exists'.1
  intro hnone
  have hzero := hholds.null_iff.1 hnone
  omega

theorem within (hc : n.data = some c) {len : Nat} (hend : start + len ≤ n.dataSize) :
    c.Within n.dataSize start len := by
  have hroom := hholds.room c hc
  exact Or.inr ⟨by omega, hend⟩

/-- The larger block gets the contents and zeros. -/
theorem extended (new : Chunk) {newSize : Nat} (hgrows : n.dataSize < newSize)
    (hroom : newSize ≤ new.cap) :
    ∃ c : Chunk, extend n new newSize = .ok { n with data := some c, dataSize := newSize } ∧
      c.cap = new.cap ∧ ∀ i < newSize, c.bytes i = f.bytes i := by
  have hcap : new.cap < 2 ^ 32 := Nat.lt_of_le_of_lt new.cap_le (by decide)
  have hlt := hholds.lt
  have hsize : u32 n.dataSize = n.dataSize := u32_of_lt hlt
  have hrest : u32 (newSize - n.dataSize) = newSize - n.dataSize := u32_of_lt (by omega)
  have hzeros : ∀ c : Chunk, c.cap = new.cap →
      c.Within newSize n.dataSize (u32 (newSize - n.dataSize)) := by
    intro c hc
    exact Or.inr ⟨by omega, by omega⟩
  cases hdata : n.data with
  | none =>
    have hzero := hholds.null_iff.1 hdata
    refine ⟨{ new with bytes := new.bytes.blit n.dataSize Buf.zero (newSize - n.dataSize) },
      ?_, rfl, ?_⟩
    · simp only [extend, hdata, Option.elim, bind, Except.bind]
      rw [Chunk.store_eq _ (hzeros new rfl), hrest]
    · intro i hi
      rw [hholds.zero i (by omega)]
      simp [blit, hzero, hi, Buf.zero]
  | some old =>
    have hload : old.Within n.dataSize 0 (u32 n.dataSize) := by
      apply hholds.within hdata
      omega
    have hcopy : new.Within newSize 0 (u32 n.dataSize) := Or.inr ⟨by omega, by omega⟩
    refine ⟨{ new with
      bytes := (new.bytes.blit 0 (old.bytes.drop 0) n.dataSize).blit n.dataSize Buf.zero
        (newSize - n.dataSize) }, ?_, rfl, ?_⟩
    · simp only [extend, hdata, Option.elim, kfree, bind, Except.bind, Chunk.load_eq hload,
        Chunk.store_eq _ hcopy]
      rw [Chunk.store_eq _ (hzeros { new with bytes := new.bytes.blit 0 (old.bytes.drop 0) _ } rfl),
        hrest, hsize]
    · intro i hi
      by_cases hold : i < n.dataSize
      · have hnot : ¬(n.dataSize ≤ i ∧ i < n.dataSize + (newSize - n.dataSize)) := by omega
        rw [← hholds.bytes_eq old hdata i hold]
        simp [blit, drop, hnot, hold]
      · have hin : n.dataSize ≤ i ∧ i < n.dataSize + (newSize - n.dataSize) := by omega
        rw [hholds.zero i (by omega)]
        simp [blit, hin, Buf.zero]

end Holds

/-- Whatever the sizes, the block is the one `kmalloc` returned. -/
theorem extend_ok {new : Chunk} {newSize : Nat} {n' : Node}
    (hextend : extend n new newSize = .ok n') :
    n'.dataSize = newSize ∧ ∃ c, n'.data = some c ∧ c.cap = new.cap := by
  rw [extend] at hextend
  obtain ⟨filled, hfilled, hextend⟩ := bind_eq_ok.1 hextend
  obtain ⟨c, hstore, hextend⟩ := bind_eq_ok.1 hextend
  have hcap : filled.cap = new.cap := by
    cases hdata : n.data with
    | none =>
      simp only [hdata, Option.elim] at hfilled
      cases hfilled
      rfl
    | some old =>
      simp only [hdata, Option.elim] at hfilled
      obtain ⟨src, -, hfilled⟩ := bind_eq_ok.1 hfilled
      obtain ⟨copied, hcopy, hfilled⟩ := bind_eq_ok.1 hfilled
      cases hfilled
      rw [(Chunk.store_ok hcopy).2]
  cases hextend
  refine ⟨rfl, c, rfl, ?_⟩
  rw [(Chunk.store_ok hstore).2, ← hcap]

theorem put_ok (hput : put n buf len pos = .ok r) :
    r.ret = i64 len ∧ (n.data = none ∧ u32 len = 0 ∨
      ∃ c, n.data = some c ∧ c.Within n.dataSize pos (u32 len) ∧
        r.node = { n with data := some { c with bytes := c.bytes.blit pos buf (u32 len) } }) := by
  cases hdata : n.data with
  | none =>
    simp only [put, hdata, Option.elim] at hput
    split at hput
    · rename_i hzero
      cases hput
      exact ⟨rfl, Or.inl ⟨rfl, hzero⟩⟩
    · cases hput
  | some c =>
    simp only [put, hdata, Option.elim, bind, Except.bind] at hput
    split at hput
    · cases hput
    · rename_i d hstore
      obtain ⟨hwithin, hd⟩ := Chunk.store_ok hstore
      cases hput
      exact ⟨rfl, Or.inr ⟨c, rfl, hwithin, by rw [hd]⟩⟩

/-! ## The three calls -/

@[simp] theorem File.after_read (f : File) (buf : Buf) (len pos : Nat) (ret : Int) :
    f.after (.read buf len pos) ret = f := by
  rw [File.after]
  split <;> rfl

theorem File.after_failed (f : File) (c : Call) {ret : Int} (hret : ret < 0) :
    f.after c ret = f := by
  exact if_pos hret

/-- A read is right unless its end wraps around inside the file. -/
theorem Holds.read_iff (hholds : Holds n f) (hlen : len < 2 ^ 64) (hpos : pos < 2 ^ 63) :
    (∃ r, read n buf len pos = .ok r ∧ Kept n f (.read buf len pos) r) ↔
      n.size ≤ pos ∨ pos + len < 2 ^ 64 := by
  have hlt := hholds.lt
  have hsize := hholds.size_eq
  have hlength := hholds.length_eq
  by_cases hbehind : n.size ≤ pos
  · have hnone : f.count len pos = 0 := by
      rw [File.count]
      omega
    have hread : read n buf len pos = .ok ⟨0, buf, n⟩ := by
      cases hdata : n.data with
      | none => simp [read, hdata]
      | some c =>
        have hi64 : i64 n.size ≤ pos := by
          rw [i64_of_lt (by omega)]
          exact_mod_cast hbehind
        simp [read, hdata, hi64]
    refine iff_of_true ⟨_, hread, ?_, fun _ => rfl, ?_⟩ (Or.inl hbehind)
    · simpa using hholds
    · simp [Answered, hnone]
  · obtain ⟨c, hdata⟩ := hholds.chunk (by omega)
    have hi64 : ¬i64 n.size ≤ pos := by
      rw [i64_of_lt (by omega)]
      exact_mod_cast hbehind
    by_cases hwrap : pos + len < 2 ^ 64
    · have hcount : (if n.size < u64 (pos + len) then n.size - pos else len) = f.count len pos := by
        rw [u64_of_lt hwrap, File.count]
        split <;> omega
      have hle : pos + f.count len pos ≤ n.dataSize := by
        rw [File.count]
        omega
      have hu32 : u32 (f.count len pos) = f.count len pos := u32_of_lt (by omega)
      have hwithin : c.Within n.dataSize pos (u32 (f.count len pos)) := by
        rw [hu32]
        exact hholds.within hdata hle
      refine iff_of_true ⟨⟨i64 (f.count len pos),
        buf.blit 0 (c.bytes.drop pos) (f.count len pos), n⟩,
        ?_, ?_, fun _ => rfl, ?_, ?_⟩ (Or.inr hwrap)
      · simp [read, hdata, hi64, hcount, Chunk.load_eq hwithin, hu32, bind, Except.bind]
      · simpa using hholds
      · exact i64_of_lt (by omega)
      · intro i
        simp only [blit, Nat.zero_le, true_and, Nat.zero_add, Nat.sub_zero, drop]
        split
        · rename_i hi
          exact hholds.bytes_eq c hdata _ (by omega)
        · rfl
    · -- the sum is below `pos`, so the length is not cut, and it is negative as an answer
      have hwrapped : ¬n.size < u64 (pos + len) := by
        rw [u64]
        omega
      refine iff_of_false ?_ (by omega)
      rintro ⟨r, hread, hkept⟩
      simp only [read, hdata, Option.elim, if_neg hi64, if_neg hwrapped] at hread
      obtain ⟨src, -, hread⟩ := bind_eq_ok.1 hread
      have hret : r.ret = f.count len pos := hkept.answered.1
      have hneg := i64_neg (x := len) (by omega) hlen
      cases hread
      simp only at hret
      omega

theorem Holds.of_chunk {dataSize : Nat} (hpos : 0 < dataSize) (hsize : size = dataSize)
    (hlength : dataSize = f.length) (hroom : dataSize ≤ c.cap)
    (hbytes : ∀ i < dataSize, c.bytes i = f.bytes i) (hzero : ∀ i, dataSize ≤ i → f.bytes i = 0) :
    Holds ⟨some c, dataSize, size⟩ f where
  null_iff := iff_of_false nofun (Nat.ne_of_gt hpos)
  room _ hd := some.inj hd ▸ hroom
  size_eq := hsize
  length_eq := hlength
  bytes_eq _ hd := some.inj hd ▸ hbytes
  zero := hzero

/-- The bytes of a write, put in a file that reaches far enough. -/
theorem Holds.stored (hholds : Holds n f) (buf : Buf) (hend : pos + len ≤ n.dataSize) :
    ∃ r, put n buf len pos = .ok r ∧ r.ret = len ∧ Holds r.node (f.write buf len pos) := by
  have hlt := hholds.lt
  have hu32 : u32 len = len := u32_of_lt (by omega)
  have hret : i64 len = len := i64_of_lt (by omega)
  have hlength : n.dataSize = (f.write buf len pos).length := by
    have hlength := hholds.length_eq
    show _ = max _ _
    omega
  have hzero : ∀ i, n.dataSize ≤ i → (f.write buf len pos).bytes i = 0 := by
    intro i hi
    have hout : ¬(pos ≤ i ∧ i < pos + len) := by omega
    simp [File.write, blit, hout, hholds.zero i hi]
  cases hdata : n.data with
  | none =>
    have hempty := hholds.null_iff.1 hdata
    have hnothing : len = 0 := by omega
    refine ⟨⟨i64 len, buf, n⟩, by simp [put, hdata, hnothing, u32], hret, ?_⟩
    exact { hholds with length_eq := hlength, bytes_eq := by simp [hdata], zero := hzero }
  | some c =>
    have hwithin : c.Within n.dataSize pos (u32 len) := by
      rw [hu32]
      exact hholds.within hdata hend
    refine ⟨⟨i64 len, buf, { n with data := some { c with bytes := c.bytes.blit pos buf len } }⟩,
      ?_, hret, ?_⟩
    · simp [put, hdata, Chunk.store_eq _ hwithin, hu32, bind, Except.bind]
    · refine .of_chunk ?_ hholds.size_eq hlength (hholds.room c hdata) (fun i hi => ?_) hzero
      · exact Nat.pos_of_ne_zero fun hempty => by cases (hholds.null_iff.2 hempty).symm.trans hdata
      · simp [File.write, blit, hholds.bytes_eq c hdata i hi]

/-- The file as it is after room has been made for a write or by a longer length. -/
def File.grow (f : File) (length : Nat) : File := { f with length := length }

theorem Holds.grow (hholds : Holds n f) {newSize : Nat} {junk : Buf} (hgrows : n.dataSize < newSize)
    (hfits : newSize ≤ kmallocMax) :
    ∃ n', extend n (.new junk newSize) newSize = .ok n' ∧
      Holds { n' with size := newSize } (f.grow newSize) := by
  have hroom : newSize ≤ (Chunk.new junk newSize).cap := le_kmallocSize_iff.mpr hfits
  obtain ⟨c, hextend, hc, hbytes⟩ := hholds.extended _ hgrows hroom
  refine ⟨_, hextend, ?_⟩
  exact .of_chunk (Nat.zero_lt_of_lt hgrows) rfl rfl (hc ▸ hroom) hbytes fun i hi =>
    hholds.zero i (Nat.le_trans (Nat.le_of_lt hgrows) hi)

theorem File.grow_write {f : File} (hgrows : f.length < pos + len) :
    (f.grow (pos + len)).write buf len pos = f.write buf len pos := by
  have hmax : max f.length (pos + len) = pos + len := by omega
  simp [File.grow, File.write, hmax]

/-- A call that returns an error and leaves the node as it was is right, unless it is a read. -/
theorem Holds.kept_failed (hholds : Holds n f) {c : Call} (hret : r.ret < 0)
    (hnode : r.node = n) (hc : ∀ buf len pos, c ≠ .read buf len pos) : Kept n f c r := by
  refine ⟨?_, fun _ => hnode, ?_⟩
  · rw [hnode, File.after_failed f c hret]
    exact hholds
  · cases c with
    | read buf len pos => exact absurd rfl (hc buf len pos)
    | write | setattr =>
      intro hnonneg
      omega

theorem Holds.kept_written {answer : Option Buf}
    (hret : r.ret = len) (hholds : Holds r.node (f.write buf len pos)) :
    Kept n f (.write answer buf len pos) r := by
  have hnonneg : ¬r.ret < 0 := by omega
  refine ⟨?_, fun hneg => absurd hneg hnonneg, fun _ => hret⟩
  rw [File.after, if_neg hnonneg]
  exact hholds

section Write

variable {answer : Option Buf} {buf : Buf} {len pos : Nat}

section

variable (hholds : Holds n f) (hlen : len < 2 ^ 64) (hpos : pos < 2 ^ 63)
include hholds hlen hpos

/-- A write that needs a larger block. -/
theorem Holds.write_grows (hgrows : n.dataSize < u64 (pos + len)) (junk : Buf) :
    (∃ r, write n (some junk) buf len pos = .ok r ∧ Kept n f (.write (some junk) buf len pos) r) ↔
      pos + len ≤ kmallocMax := by
  have hwrite : write n (some junk) buf len pos =
      (extend n (.new junk (u64 (pos + len))) (u64 (pos + len))).bind fun n =>
        put { n with size := u64 (pos + len) } buf len pos := by
    simp only [write, if_pos hgrows, kmalloc, Option.map, Option.elim, bind]
  rw [hwrite]
  constructor
  · rintro ⟨r, hok, hkept⟩
    obtain ⟨n', hextend, hput⟩ := bind_eq_ok.1 hok
    obtain ⟨hdata, c, hc, hcap⟩ := extend_ok hextend
    obtain ⟨hret, ⟨hnone, -⟩ | ⟨d, hd, -, hnode⟩⟩ := put_ok hput
    · simp [hc] at hnone
    · by_contra hbig
      by_cases hwrap : pos + len < 2 ^ 64
      · -- the block is shorter than the file
        have hroom := hkept.holds.room { d with bytes := d.bytes.blit pos buf (u32 len) }
          (by simp [hnode])
        rw [hnode] at hroom
        exact hbig (u64_of_lt hwrap ▸ hdata ▸ hroom.trans d.cap_le)
      · -- the answer is negative, but the size has changed
        have hneg := i64_neg (x := len) (by omega) hlen
        have hsame := hkept.failed (by rw [hret]; exact hneg)
        have hsize := congrArg Node.dataSize hsame
        rw [hnode] at hsize
        simp only [hdata] at hsize
        omega
  · intro hfits
    have hu64 : u64 (pos + len) = pos + len :=
      u64_of_lt (Nat.lt_of_le_of_lt hfits (by decide))
    rw [hu64] at hgrows ⊢
    obtain ⟨n', hextend, hgrown⟩ := hholds.grow hgrows hfits
    have hend : pos + len ≤ n'.dataSize := Nat.le_of_eq (extend_ok hextend).1.symm
    obtain ⟨r, hput, hret, hafter⟩ := hgrown.stored buf hend
    rw [File.grow_write (by rw [← hholds.length_eq]; exact hgrows)] at hafter
    refine ⟨r, ?_, Holds.kept_written hret hafter⟩
    rw [hextend]
    exact hput

/-- A write whose end wraps around to a place in the file. -/
theorem Holds.put_wrapped (hwrap : 2 ^ 64 ≤ pos + len) :
    (∃ r, put n buf len pos = .ok r ∧ Kept n f (.write answer buf len pos) r) ↔
      Untouched n buf len pos := by
  have hneg := i64_neg (x := len) (by omega) hlen
  constructor
  · rintro ⟨r, hput, hkept⟩
    obtain ⟨hret, ⟨-, hzero⟩ | ⟨c, hc, hwithin, hnode⟩⟩ := put_ok hput
    · exact Or.inl hzero
    · rcases hwithin with hzero | ⟨-, hend⟩
      · exact Or.inl hzero
      · refine Or.inr ⟨c, hc, hend, fun j hj => ?_⟩
        have hsame := congrArg Node.data (hkept.failed (by rw [hret]; exact hneg))
        rw [hnode, hc] at hsame
        have hbytes := congrFun (congrArg Chunk.bytes (some.inj hsame)) (pos + j)
        have hin : pos ≤ pos + j ∧ pos + j < pos + u32 len := by omega
        simp only [blit, if_pos hin, Nat.add_sub_cancel_left] at hbytes
        exact hbytes.symm
  · intro huntouched
    refine ⟨⟨i64 len, buf, n⟩, ?_, hholds.kept_failed hneg rfl (by simp)⟩
    cases hdata : n.data with
    | none =>
      have hzero : u32 len = 0 := by
        rcases huntouched with hzero | ⟨c, hc, -⟩
        · exact hzero
        · simp [hdata] at hc
      simp [put, hdata, hzero]
    | some c =>
      have hwithin : c.Within n.dataSize pos (u32 len) := by
        rcases huntouched with hzero | ⟨d, -, hend, -⟩
        · exact Or.inl hzero
        · exact hholds.within hdata hend
      have hblit : c.bytes.blit pos buf (u32 len) = c.bytes := by
        funext i
        rcases huntouched with hzero | ⟨d, hd, hend, hsame⟩
        · have hout : ¬(pos ≤ i ∧ i < pos + u32 len) := by omega
          simp [blit, hout]
        · cases hdata.symm.trans hd
          by_cases hin : pos ≤ i ∧ i < pos + u32 len
          · have hbyte := hsame (i - pos) (by omega)
            rw [show pos + (i - pos) = i by omega] at hbyte
            simp [blit, hin, hbyte]
          · simp [blit, hin]
      rcases n with ⟨data, dataSize, size⟩
      cases hdata
      simp [put, Chunk.store_eq _ hwithin, hblit, bind, Except.bind]

/-- The writes that are right. -/
theorem Holds.write_iff :
    (∃ r, write n answer buf len pos = .ok r ∧ Kept n f (.write answer buf len pos) r) ↔
      Safe n (.write answer buf len pos) := by
  have hlt := hholds.lt
  by_cases hgrows : n.dataSize < u64 (pos + len)
  · have hnot : ¬u64 (pos + len) ≤ n.dataSize := by omega
    cases answer with
    | none =>
      refine iff_of_true ⟨⟨-1, buf, n⟩, ?_, hholds.kept_failed (by simp) rfl (by simp)⟩ ?_
      · simp [write, hgrows, kmalloc]
      · exact Or.inr (Or.inl ⟨hgrows, rfl⟩)
    | some junk =>
      rw [hholds.write_grows hlen hpos hgrows junk]
      simp [Safe, hnot]
  · have hwrite : write n answer buf len pos = put n buf len pos := if_neg hgrows
    rw [hwrite]
    by_cases hfits : pos + len ≤ kmallocMax
    · have hend : pos + len ≤ n.dataSize := by
        rw [u64_of_lt (Nat.lt_of_le_of_lt hfits (by decide))] at hgrows
        omega
      obtain ⟨r, hput, hret, hafter⟩ := hholds.stored buf hend
      exact iff_of_true ⟨r, hput, Holds.kept_written hret hafter⟩ (Or.inl hfits)
    · have hwrap : 2 ^ 64 ≤ pos + len := by
        by_contra hsmall
        rw [u64_of_lt (by omega)] at hgrows
        exact hfits ((Nat.le_of_not_lt hgrows).trans hholds.le_max)
      rw [hholds.put_wrapped hlen hpos hwrap]
      have hle : u64 (pos + len) ≤ n.dataSize := by omega
      constructor
      · intro huntouched
        exact Or.inr (Or.inr ⟨hwrap, hle, huntouched⟩)
      · rintro (hsmall | ⟨hlonger, -⟩ | ⟨-, -, huntouched⟩)
        · exact absurd hsmall hfits
        · exact absurd hlonger hgrows
        · exact huntouched

end

end Write

section Setattr

variable {answer : Option Buf} {buf : Buf} {newSize : Int} {length : Nat}

theorem Holds.kept_truncated {r : Reply} (hret : r.ret = 0)
    (hholds : Holds r.node (f.truncate newSize.toNat)) :
    Kept n f (.setattr answer buf newSize) r := by
  have hnonneg : ¬r.ret < 0 := by omega
  refine ⟨?_, fun hneg => absurd hneg hnonneg, fun _ => hret⟩
  unfold File.after
  rw [if_neg hnonneg]
  exact hholds

section

variable (hholds : Holds n f)
include hholds

/-- A longer length. -/
theorem Holds.truncate_longer (hlonger : f.length ≤ length) :
    f.truncate length = f.grow length := by
  have hbytes : f.bytes.clip length = f.bytes := by
    funext i
    rw [clip]
    split
    · rfl
    · exact (hholds.zero i (by rw [hholds.length_eq]; omega)).symm
  rw [File.truncate, File.grow, hbytes]

/-- A negative length leaves no buffer and a size. -/
theorem Holds.setattr_negative (hneg : newSize < 0) (hsize : -2 ^ 63 ≤ newSize) :
    ¬∃ r, setattr n answer buf newSize = .ok r ∧ Kept n f (.setattr answer buf newSize) r := by
  have hi64 := hholds.i64_eq
  rintro ⟨r, hok, hkept⟩
  simp only [setattr, hi64] at hok
  rw [if_neg (by omega), if_pos (by omega), if_neg (by omega)] at hok
  obtain ⟨-, -, hok⟩ := bind_eq_ok.1 hok
  cases hok
  have hnull := hkept.holds.null_iff.1 rfl
  simp only at hnull
  omega

/-- A longer length needs a block of that length. -/
theorem Holds.setattr_longer (hlonger : n.dataSize < length)
    (hsize : length < 2 ^ 63) (junk : Buf) :
    (∃ r, setattr n (some junk) buf length = .ok r ∧ Kept n f (.setattr (some junk) buf length) r) ↔
      length ≤ kmallocMax := by
  have hi64 := hholds.i64_eq
  have hstored : ((length : Int) % 2 ^ 64).toNat = length := by omega
  have hsetattr : setattr n (some junk) buf length =
      (extend n (.new junk length) length).bind fun n =>
        .ok ⟨0, buf, { n with size := length }⟩ := by
    simp only [setattr, hi64, hstored]
    rw [if_pos (by omega)]
    rfl
  rw [hsetattr]
  constructor
  · rintro ⟨r, hok, hkept⟩
    obtain ⟨n', hextend, hok⟩ := bind_eq_ok.1 hok
    obtain ⟨hdata, c, hc, hcap⟩ := extend_ok hextend
    cases hok
    exact hdata ▸ (hkept.holds.room c hc).trans c.cap_le
  · intro hfits
    obtain ⟨n', hextend, hgrown⟩ := hholds.grow hlonger hfits
    refine ⟨⟨0, buf, { n' with size := length }⟩, ?_, Holds.kept_truncated rfl ?_⟩
    · rw [hextend]
      rfl
    · have hlength : f.length ≤ length := by
        rw [← hholds.length_eq]
        omega
      rw [Int.toNat_natCast, hholds.truncate_longer hlength]
      exact hgrown

/-- A shorter length keeps the bytes below it. -/
theorem Holds.setattr_shorter (hshorter : length < n.dataSize) (hpos : 0 < length) (junk : Buf) :
    ∃ r, setattr n (some junk) buf length = .ok r ∧
      Kept n f (.setattr (some junk) buf length) r := by
  have hlt := hholds.lt
  have hi64 := hholds.i64_eq
  have hstored : ((length : Int) % 2 ^ 64).toNat = length := by omega
  have hu32 : u32 length = length := u32_of_lt (by omega)
  obtain ⟨c, hdata⟩ := hholds.chunk (by omega)
  let new := Chunk.new junk length
  have hroom : length ≤ new.cap := le_kmallocSize_iff.mpr (hshorter.le.trans hholds.le_max)
  have hload : c.Within n.dataSize 0 (u32 length) := by
    apply hholds.within hdata
    omega
  have hcopy : new.Within length 0 (u32 length) := Or.inr ⟨by omega, by omega⟩
  let short : Chunk := { new with bytes := junk.blit 0 (c.bytes.drop 0) length }
  refine ⟨⟨0, buf, { data := some short, dataSize := length, size := length }⟩, ?_,
    Holds.kept_truncated rfl ?_⟩
  · simp only [setattr, hi64, hstored]
    rw [if_neg (by omega), if_pos (by omega), if_pos (by omega)]
    have hstore := Chunk.store_eq (c.bytes.drop 0) hcopy
    simp only [new] at hstore
    simp only [kmalloc, Option.map, Option.elim, hdata, Chunk.load_eq hload, hstore, kfree, bind,
      Except.bind]
    simp only [short, new, Chunk.new, hu32]
  · refine .of_chunk hpos rfl rfl hroom (fun i hi => ?_) fun i hi => ?_
    · have hbyte := hholds.bytes_eq c hdata i (by omega)
      simp [short, File.truncate, clip, blit, drop, hi, hbyte]
    · simp [File.truncate, clip, Nat.not_lt.2 hi]

/-- Length zero gives the block back. -/
theorem Holds.setattr_zero (hsome : 0 < n.dataSize) :
    ∃ r, setattr n answer buf 0 = .ok r ∧ Kept n f (.setattr answer buf 0) r := by
  have hi64 := hholds.i64_eq
  obtain ⟨c, hdata⟩ := hholds.chunk hsome
  refine ⟨⟨0, buf, { data := none, dataSize := 0, size := 0 }⟩, ?_, Holds.kept_truncated rfl ?_⟩
  · simp only [setattr, hi64]
    rw [if_neg (by omega), if_pos (by omega), if_neg (by omega), hdata]
    rfl
  · refine ⟨by simp, by simp, rfl, rfl, by simp, ?_⟩
    intro i _
    simp [File.truncate, clip]

/-- The lengths that are right. -/
theorem Holds.setattr_iff (hlow : -2 ^ 63 ≤ newSize) (hhigh : newSize < 2 ^ 63) :
    (∃ r, setattr n answer buf newSize = .ok r ∧ Kept n f (.setattr answer buf newSize) r) ↔
      Safe n (.setattr answer buf newSize) := by
  have hlt := hholds.lt
  have hi64 := hholds.i64_eq
  rcases Int.lt_or_le newSize 0 with hneg | hnonneg
  · refine iff_of_false (hholds.setattr_negative hneg hlow) ?_
    rintro ⟨hnonneg, -⟩
    omega
  · obtain ⟨length, rfl⟩ := Int.eq_ofNat_of_zero_le hnonneg
    have hstored : ((length : Int) % 2 ^ 64).toNat = length := by omega
    have hrefused : (setattr n none buf length = .ok ⟨-1, buf, n⟩) →
        ∃ r, setattr n none buf length = .ok r ∧ Kept n f (.setattr none buf length) r := by
      intro hok
      exact ⟨_, hok, hholds.kept_failed (by simp) rfl (by simp)⟩
    rcases Nat.lt_trichotomy n.dataSize length with hlonger | hsame | hshorter
    · cases answer with
      | none =>
        refine iff_of_true (hrefused ?_) ⟨hnonneg, Or.inr rfl⟩
        simp only [setattr, hi64]
        rw [if_pos (by omega)]
        rfl
      | some junk =>
        rw [hholds.setattr_longer hlonger (by omega) junk]
        simp only [Safe, hnonneg, true_and, reduceCtorEq, or_false, Int.ofNat_le]
    · refine iff_of_true ⟨⟨0, buf, { n with size := length }⟩, ?_, Holds.kept_truncated rfl ?_⟩
        ⟨hnonneg, Or.inl (Int.ofNat_le.mpr (hsame ▸ hholds.le_max))⟩
      · simp only [setattr, hi64, hstored]
        rw [if_neg (by omega), if_neg (by omega)]
      · have hlength : f.length ≤ length := by
          rw [← hholds.length_eq]
          omega
        rw [Int.toNat_natCast, hholds.truncate_longer hlength]
        refine ⟨hholds.null_iff, hholds.room, hsame.symm, hsame, hholds.bytes_eq, hholds.zero⟩
    · have hsafe : Safe n (.setattr answer buf length) :=
        ⟨hnonneg, Or.inl (Int.ofNat_le.mpr (hshorter.le.trans hholds.le_max))⟩
      refine iff_of_true ?_ hsafe
      rcases Nat.eq_zero_or_pos length with rfl | hpos
      · exact hholds.setattr_zero (by omega)
      · cases answer with
        | none =>
          apply hrefused
          simp only [setattr, hi64]
          rw [if_neg (by omega), if_pos (by omega), if_pos (by omega)]
          rfl
        | some junk => exact hholds.setattr_shorter hshorter hpos junk

end

end Setattr

/-! ## Runs -/

/-- One call is right exactly if it is safe. -/
theorem Holds.kept_iff (hholds : Holds n f) {c : Call} (hrange : c.InRange) :
    (∃ r, exec n c = .ok r ∧ Kept n f c r) ↔ Safe n c := by
  cases c with
  | read buf len pos => exact hholds.read_iff hrange.1 hrange.2
  | write answer buf len pos => exact hholds.write_iff hrange.1 hrange.2
  | setattr answer buf newSize => exact hholds.setattr_iff hrange.1 hrange.2

/-- All calls of a sequence are right, each from the state the one before it has left. -/
def RunKept : Node → File → List Call → Prop
  | _, _, [] => True
  | n, f, c :: calls =>
    ∃ r, exec n c = .ok r ∧ Kept n f c r ∧ RunKept r.node (f.after c r.ret) calls

/-- All calls of a sequence are safe in the state they are made in. -/
def RunSafe : Node → List Call → Prop
  | _, [] => True
  | n, c :: calls => Safe n c ∧ ∀ r, exec n c = .ok r → RunSafe r.node calls

/-- A new file: `memset(node, 0, …)`, `inode->size = 0`. -/
def Node.new : Node := { data := none, dataSize := 0, size := 0 }

def File.empty : File := { length := 0, bytes := Buf.zero }

theorem holds_new : Holds Node.new File.empty where
  null_iff := by simp [Node.new]
  room := by simp [Node.new]
  size_eq := rfl
  length_eq := rfl
  bytes_eq := by simp [Node.new]
  zero := fun _ _ => rfl

theorem Holds.runKept_iff (hholds : Holds n f) (hrange : ∀ c ∈ calls, c.InRange) :
    RunKept n f calls ↔ RunSafe n calls := by
  induction calls generalizing n f with
  | nil => exact Iff.rfl
  | cons c calls ih =>
    have hrest := fun d hd => hrange d (List.mem_cons_of_mem c hd)
    have hkept := hholds.kept_iff (hrange c List.mem_cons_self)
    constructor
    · rintro ⟨r, hexec, hr, hrun⟩
      refine ⟨hkept.1 ⟨r, hexec, hr⟩, fun r' hexec' => ?_⟩
      cases hexec.symm.trans hexec'
      exact (ih hr.holds hrest).1 hrun
    · rintro ⟨hsafe, hrun⟩
      obtain ⟨r, hexec, hr⟩ := hkept.2 hsafe
      exact ⟨r, hexec, hr, (ih hr.holds hrest).2 (hrun r hexec)⟩

/-- A call whose sizes `kmalloc` can round, whatever the file. -/
def Call.Small : Call → Prop
  | .read _ len pos | .write _ _ len pos => pos + len ≤ kmallocMax
  | .setattr _ _ newSize => 0 ≤ newSize ∧ newSize ≤ kmallocMax

theorem runSafe_of_small (hsmall : ∀ c ∈ calls, c.Small) (n : Node) :
    RunSafe n calls := by
  induction calls generalizing n with
  | nil => trivial
  | cons c calls ih =>
    have hc := hsmall c List.mem_cons_self
    refine ⟨?_, fun r _ => ih (fun d hd => hsmall d (List.mem_cons_of_mem c hd)) r.node⟩
    cases c with
    | read buf len pos => exact Or.inr (Nat.lt_of_le_of_lt hc (by decide))
    | write answer buf len pos => exact Or.inl hc
    | setattr answer buf newSize => exact ⟨hc.1, Or.inl hc.2⟩

/-- The calls of a sequence on a new file are all right exactly if they are all safe. -/
theorem ramfs_sound_iff {calls : List Call} (hrange : ∀ c ∈ calls, c.InRange) :
    RunKept Node.new File.empty calls ↔ RunSafe Node.new calls :=
  holds_new.runKept_iff hrange

/-- Three bytes behind a gap of two, a read over the end, and a shorter length. -/
def smallCalls : List Call :=
  [.write (some Buf.zero) (fun i => UInt8.ofNat i) 3 2, .read Buf.zero 10 0,
    .setattr none Buf.zero 1]

theorem ramfs_sound_iff_small :
    (∀ c ∈ smallCalls, c.InRange) ∧ RunKept Node.new File.empty smallCalls := by
  have hrange : ∀ c ∈ smallCalls, c.InRange := by simp [smallCalls, Call.InRange]
  refine ⟨hrange, (ramfs_sound_iff hrange).2 (runSafe_of_small ?_ Node.new)⟩
  simp [smallCalls, Call.Small, kmallocMax]

/-- A byte at 4 GiB gets a block of 32 bytes; length -1 is accepted, and frees a block a new file
does not have. -/
theorem not_ramfs_sound_of_big :
    ¬RunKept Node.new File.empty [.write (some Buf.zero) Buf.zero 1 (2 ^ 32)] ∧
    ¬RunKept Node.new File.empty [.setattr none Buf.zero (-1)] := by
  constructor
  · rintro ⟨r, hexec, hkept, -⟩
    have hsafe := (holds_new.kept_iff (by simp [Call.InRange])).1 ⟨r, hexec, hkept⟩
    simp [Safe, Untouched, kmallocMax] at hsafe
  · rintro ⟨r, hexec, hkept, -⟩
    have hsafe := (holds_new.kept_iff (by simp [Call.InRange])).1 ⟨r, hexec, hkept⟩
    simp [Safe] at hsafe

end Osx64.Ramfs
