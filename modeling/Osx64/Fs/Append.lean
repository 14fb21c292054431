import Mathlib.Data.List.GetD
import Osx64.Fs.RamfsFile
import Osx64.Ext2.WriteExact
import Osx64.Lib.Run

/-!
# Writing at the end of a file

`vfs_open` sets the position of a file opened with `O_APPEND` to the end; `vfs_write` has the file
system write at the position and does not look at the flag.  A descriptor that finds the file longer
than it left it therefore overwrites what others have written.

The calls do append exactly if every one with something to write starts at the end of the file as
it is then (`run_iff`).  A call that starts before it makes the file grow by less than its buffer,
and no later call makes up for that.  The argument needs no more of a file system than that a
write to a file stores its bytes (`Lawful`), which `ramfs_write` and `ext2_write` do within their
bounds.
-/

namespace Osx64.Append

open Ramfs List

variable {σ α : Type}

/-- The end of a regular file, and what its file system does in `vfs_write`: what becomes of the
file and of `*ppos` if all of the buffer is written, and `none` if not. -/
structure Backend (σ α : Type) where
  size : σ → Nat
  write : σ → α → List UInt8 → Nat → Option (σ × Nat)

/-- The file, and `file->pos` of every `struct file` that is open on it. -/
structure State (σ : Type) where
  node : σ
  pos : List Nat

inductive Event (α : Type)
  /-- `vfs_open` with `O_APPEND` -/
  | vfsOpen
  /-- a `vfs_write` that writes all of its buffer -/
  | vfsWrite (fd : Nat) (buf : List UInt8) (arg : α)

def step (B : Backend σ α) (st : State σ) : Event α → Option (State σ)
  | .vfsOpen => some { st with pos := st.pos ++ [B.size st.node] }
  | .vfsWrite fd buf arg => st.pos[fd]?.bind fun pos =>
      (B.write st.node arg buf pos).map fun (node, pos) => ⟨node, st.pos.set fd pos⟩

def content (f : File) : List UInt8 := (range f.length).map f.bytes

/-- The buffers in the order of the calls. -/
def written : List (Event α) → List UInt8
  | [] => []
  | .vfsOpen :: es => written es
  | .vfsWrite _ buf _ :: es => buf ++ written es

/-- The buffer and the position of a call of `vfs_write`. -/
def call (st : State σ) : Event α → Option (List UInt8 × Nat)
  | .vfsOpen => none
  | .vfsWrite fd buf _ => st.pos[fd]?.map (buf, ·)

/-- A condition on the calls of `vfs_write` in a run, each in the state it is made in. -/
def Throughout (B : Backend σ α) (P : σ → List UInt8 → Nat → Prop) :
    State σ → List (Event α) → Prop
  | _, [] => True
  | st, e :: es => (∀ c ∈ call st e, P st.node c.1 c.2) ∧ ∀ st' ∈ step B st e, Throughout B P st' es

instance throughoutDecidable (B : Backend σ α) (P : σ → List UInt8 → Nat → Prop)
    [∀ s buf pos, Decidable (P s buf pos)] : ∀ st es, Decidable (Throughout B P st es)
  | _, [] => inferInstanceAs (Decidable True)
  | st, e :: es =>
    have := fun st' => throughoutDecidable B P st' es
    inferInstanceAs (Decidable ((∀ c ∈ call st e, P st.node c.1 c.2) ∧
      ∀ st' ∈ step B st e, Throughout B P st' es))

/-- A call that writes something starts at the end of the file. -/
def AtEnd (B : Backend σ α) (s : σ) (buf : List UInt8) (pos : Nat) : Prop :=
  buf = [] ∨ pos = B.size s
deriving Decidable

/-- Writes to a file that a node holds, at positions inside of it, store their bytes. -/
structure Lawful (B : Backend σ α) (Holds : σ → File → Prop)
    (Within : σ → List UInt8 → Nat → Prop) : Prop where
  size : ∀ {s f}, Holds s f → B.size s = f.length
  write : ∀ {s f arg buf pos s' pos'}, Holds s f → pos ≤ f.length → Within s buf pos →
    B.write s arg buf pos = some (s', pos') →
    Holds s' (f.write (buf.getD · 0) buf.length pos) ∧ pos' = pos + buf.length

theorem content_write {f : File} {pos : Nat} {buf : List UInt8} (hpos : pos ≤ f.length)
    (hend : buf = [] ∨ pos = f.length) :
    content (f.write (buf.getD · 0) buf.length pos) = content f ++ buf := by
  have hlen : buf.length = 0 ∨ pos = f.length := hend.imp_left (congrArg length)
  apply ext_getElem
  · simp only [content, File.write, length_map, length_range, length_append]
    omega
  · intro i _ hi
    simp only [content, File.write, Buf.blit, getElem_map, getElem_range,
      getElem_append, length_map, length_range]
    simp only [content, length_append, length_map, length_range] at hi
    split
    · rw [dif_neg (by omega), getD_eq_getElem _ _ (by omega)]
      congr 1
      omega
    · rw [dif_pos (by omega)]

theorem run_iff {B : Backend σ α} {Holds : σ → File → Prop} {Within : σ → List UInt8 → Nat → Prop}
    (law : Lawful B Holds Within) {st st' : State σ} {f : File} {es : List (Event α)}
    (hholds : Holds st.node f) (hpos : ∀ p ∈ st.pos, p ≤ f.length) (hin : Throughout B Within st es)
    (hrun : runEvents (step B) st es = some st') :
    ∃ f', Holds st'.node f' ∧ f'.length ≤ f.length + (written es).length ∧
      (content f' = content f ++ written es ↔ Throughout B (AtEnd B) st es) := by
  induction es generalizing st f with
  | nil =>
    cases hrun
    exact ⟨f, hholds, Nat.le_add_right _ _, by simp [written, Throughout]⟩
  | cons e es ih =>
    obtain ⟨st₁, hstep, hrest⟩ := Option.bind_eq_some_iff.mp hrun
    have hin₁ := hin.2 st₁ hstep
    have hall : Throughout B (AtEnd B) st (e :: es) ↔
        (∀ c ∈ call st e, AtEnd B st.node c.1 c.2) ∧ Throughout B (AtEnd B) st₁ es := by
      simp [Throughout, hstep]
    rw [hall]
    cases e with
    | vfsOpen =>
      cases hstep
      obtain ⟨f', hholds', hlen, hiff⟩ := @ih ⟨st.node, st.pos ++ [B.size st.node]⟩ f hholds
        (by simpa [or_imp, forall_and, law.size hholds] using hpos) hin₁ hrest
      exact ⟨f', hholds', hlen, hiff.trans (and_iff_right fun _ h => by cases h).symm⟩
    | vfsWrite fd buf arg =>
      obtain ⟨p, hp, hstep⟩ := Option.bind_eq_some_iff.mp hstep
      obtain ⟨⟨node, p'⟩, hwrite, rfl⟩ := Option.map_eq_some_iff.mp hstep
      have hle := hpos p (mem_of_getElem? hp)
      obtain ⟨hholds₁, rfl⟩ := law.write hholds hle (hin.1 (buf, p) (by simp [call, hp])) hwrite
      obtain ⟨f', hholds', hgrows, hiff⟩ := @ih ⟨node, _⟩ _ hholds₁ (fun q hq => by
        rcases mem_or_eq_of_mem_set hq with hq | rfl
        · exact Nat.le_trans (hpos q hq) (Nat.le_max_left _ _)
        · exact Nat.le_max_right _ _) hin₁ hrest
      simp only [File.write] at hgrows
      refine ⟨f', hholds', by simp only [written, length_append]; omega, ?_⟩
      have hfirst : (∀ c ∈ call st (.vfsWrite fd buf arg), AtEnd B st.node c.1 c.2) ↔
          buf = [] ∨ p = f.length := by
        simp [call, AtEnd, hp, law.size hholds]
      rw [hfirst]
      by_cases hend : buf = [] ∨ p = f.length
      · rw [← hiff, content_write hle hend, append_assoc, and_iff_right hend]
        rfl
      · -- the file has grown by less than the buffer
        refine iff_of_false (fun heq => ?_) fun h => hend h.1
        have hsum := congrArg length heq
        have hbuf := length_pos_iff.mpr (not_or.mp hend).1
        simp only [content, written, length_append, length_map, length_range] at hsum
        omega

/-! ## The file systems -/

/-- A regular file of ramfs.  The argument is the answer `kmalloc` gives. -/
def ramfs : Backend Node (Option Buf) where
  size := Node.size
  write n answer buf pos :=
    match Ramfs.write n answer (buf.getD · 0) buf.length pos with
    | .error _ => none
    -- `*ppos = pos + len`
    | .ok r => if r.ret = buf.length then some (r.node, pos + buf.length) else none

/-- The file fits the largest block of `kmalloc`. -/
def RamfsWithin (_ : Node) (buf : List UInt8) (pos : Nat) : Prop :=
  pos + buf.length ≤ Mm.kmallocMax
deriving Decidable

theorem ramfs_lawful : Lawful ramfs Ramfs.Holds RamfsWithin where
  size hholds := hholds.size_eq.trans hholds.length_eq
  write {n f answer buf pos n' pos'} hholds _ hin hwrite := by
    have hmax : Mm.kmallocMax < 2 ^ 63 := by decide
    have hle : pos + buf.length ≤ Mm.kmallocMax := hin
    have hrange : (Call.write answer (buf.getD · 0) buf.length pos).InRange :=
      ⟨by omega, by omega⟩
    obtain ⟨r, hr, hkept⟩ := (hholds.kept_iff hrange).mpr (.inl hle)
    change Ramfs.write n answer _ _ pos = .ok r at hr
    simp only [ramfs, hr] at hwrite
    obtain ⟨hret, hsome⟩ := Option.ite_none_right_eq_some.mp hwrite
    cases hsome
    have hholds' := hkept.holds
    rw [File.after, if_neg (by omega)] at hholds'
    exact ⟨hholds', rfl⟩

/-- The regular file of ext2 with inode `ino`.  The argument is the time. -/
def ext2 (ino : Nat) : Backend Ext2.State Nat where
  size st := (st.mem ino).elim 0 (·.size)
  write st now buf pos := (st.mem ino).bind fun inode =>
    let r := Ext2.write st.fs inode (buf.getD · 0) buf.length pos now
    if r.ret = some buf.length then
      some (⟨r.fs, Function.update st.mem ino (some r.inode)⟩, r.pos)
    else none

/-- The volume is in order, and the inode holds the file. -/
structure Ext2Holds (reserved : Nat → Prop) (ino : Nat) (st : Ext2.State) (f : File) : Prop where
  inv : Ext2.Inv reserved st
  held : ∃ inode, st.mem ino = some inode ∧ inode.size = f.length ∧ f.length < 2 ^ 63 ∧
    ∀ q < f.length, Ext2.byteAt st.fs inode q = some (f.bytes q)

/-- The map has a place for the range, there are blocks for what is missing of it, and it leaves
the other bytes of the file alone. -/
def Ext2Within (ino : Nat) (st : Ext2.State) (buf : List UInt8) (pos : Nat) : Prop :=
  ∀ inode, st.mem ino = some inode →
    Ext2.Fits st.fs inode (buf.getD · 0) pos buf.length

theorem ext2_lawful (reserved : Nat → Prop) (ino : Nat) :
    Lawful (ext2 ino) (Ext2Holds reserved ino) (Ext2Within ino) where
  size {st f} hholds := by
    obtain ⟨inode, hmem, hsize, -⟩ := hholds.held
    simp only [ext2, hmem, Option.elim_some, hsize]
  write {st f now buf pos st' pos'} hholds hpos hin hwrite := by
    obtain ⟨inode, hmem, hsize, hlt, hbytes⟩ := hholds.held
    have hfits := hin inode hmem
    simp only [ext2, hmem, Option.bind_some] at hwrite
    obtain ⟨hret, hsome⟩ := Option.ite_none_right_eq_some.mp hwrite
    cases hsome
    obtain ⟨hstored, -, hgrows⟩ := @Ext2.Inv.stored_iff reserved st ino inode (buf.getD · 0)
      buf.length pos now hholds.inv hmem (by omega) (by omega)
        (hholds.inv.writeLoop_fits hmem hfits)
    replace hstored := hstored.mpr hfits
    replace hgrows := hgrows (by omega) (by omega)
    have hend := Ext2.end_lt_of_inMap hholds.inv.owned.mounted.layout hfits.inMap (by omega)
    have hsigned : Ext2.signed inode.size = inode.size := if_pos (by omega)
    generalize hr : Ext2.write st.fs inode (buf.getD · 0) buf.length pos now = r at *
    refine ⟨⟨?_, r.inode, Function.update_self _ _ _, ?_, ?_, fun q hq => ?_⟩, hstored.position⟩
    · refine hholds.inv.step ⟨.write ino (buf.getD · 0) buf.length pos, now, trivial, ?_⟩
      simp only [Ext2.Op.run, hmem, hr]
    · rw [hgrows, hsize]
      rfl
    · simp only [File.write]
      omega
    · simp only [File.write, Buf.blit] at hq ⊢
      by_cases hrange : pos ≤ q ∧ q < pos + buf.length
      · rw [if_pos hrange]
        exact hstored.written q hrange.1 hrange.2
      · rw [if_neg hrange, hstored.others q hrange (by omega)]
        exact hbytes q (by omega)

/-- A regular file is in ramfs, or it has an inode on an ext2 volume. -/
inductive Kind
  | ramfs
  | ext2 (reserved : Nat → Prop) (ino : Nat)

namespace Kind

abbrev Store : Kind → Type
  | ramfs => Node
  | ext2 .. => Ext2.State

abbrev Arg : Kind → Type
  | ramfs => Option Buf
  | ext2 .. => Nat

def backend : (k : Kind) → Backend k.Store k.Arg
  | ramfs => Append.ramfs
  | ext2 _ ino => Append.ext2 ino

def Holds : (k : Kind) → k.Store → File → Prop
  | ramfs => Ramfs.Holds
  | ext2 reserved ino => Ext2Holds reserved ino

def Within : (k : Kind) → k.Store → List UInt8 → Nat → Prop
  | ramfs => RamfsWithin
  | ext2 _ ino => Ext2Within ino

theorem lawful : ∀ k : Kind, Lawful k.backend k.Holds k.Within
  | ramfs => ramfs_lawful
  | ext2 reserved ino => ext2_lawful reserved ino

end Kind

/-- As long as the calls keep to the bounds of the file system, the content is the old one followed
by the buffers exactly if every call starts at the end. -/
theorem append_iff (k : Kind) {s : k.Store} {f : File} {es : List (Event k.Arg)}
    {st : State k.Store} (hholds : k.Holds s f)
    (hin : Throughout k.backend k.Within ⟨s, []⟩ es)
    (hrun : runEvents (step k.backend) ⟨s, []⟩ es = some st) :
    ∃ f', k.Holds st.node f' ∧
      (content f' = content f ++ written es ↔
        Throughout k.backend (AtEnd k.backend) ⟨s, []⟩ es) := by
  obtain ⟨f', hholds', -, hiff⟩ :=
    @run_iff _ _ _ _ _ k.lawful ⟨s, []⟩ _ _ _ hholds (by simp) hin hrun
  exact ⟨f', hholds', hiff⟩

/-- One descriptor stays at the end. -/
def oneDescriptor : List (Event (Option Buf)) :=
  [.vfsOpen, .vfsWrite 0 [1] (some Buf.zero), .vfsWrite 0 [2] (some Buf.zero)]

/-- File `a` of the small volume, of which no block is missing. -/
def sampleContent : File :=
  ⟨4096, Ext2.fileByte Ext2.sample.fs Ext2.sampleFile.ei⟩

theorem ext2Holds_sample :
    Ext2Holds Ext2.sampleReserved 12 (Ext2.load Ext2.sample 12) sampleContent := by
  have hsize : Ext2.sampleFile.size = 4096 := by decide +kernel
  refine ⟨Ext2.sampleFile_inv, Ext2.sampleFile, Ext2.sampleFile_mem, hsize, by decide,
    fun q hq => ?_⟩
  have hlt : q < 4096 := hq
  have hmap : Ext2.InMap Ext2.sample.fs.geo q := by
    rw [Ext2.InMap, Ext2.blockAt, show Ext2.sample.fs.geo.blockSize = 1024 from rfl, u32]
    exact lt_of_le_of_lt (show _ ≤ 3 by omega) (by decide)
  have hbyte := @Ext2.byteAt_eq _ _ 12 Ext2.sample.fs Ext2.sampleFile q Ext2.sampleFile_owned
    (Function.update_self _ _ _) (by rw [hsize]; decide)
  rw [if_pos ⟨by rw [hsize, Ext2.signed, if_pos (by decide)]; omega, hmap⟩] at hbyte
  exact hbyte

/-- The same on file `a`. -/
def oneAppend : List (Event Nat) := [.vfsOpen, .vfsWrite 0 [1] 1]

theorem oneAppend_run : ∃ st,
    runEvents (step (ext2 12)) ⟨Ext2.load Ext2.sample 12, []⟩ oneAppend = some st := by
  exact Option.isSome_iff_exists.mp (by decide +kernel)

theorem oneAppend_within : Throughout (ext2 12) (Ext2Within 12)
    ⟨Ext2.load Ext2.sample 12, []⟩ oneAppend := by
  have hsize : (ext2 12).size (Ext2.load Ext2.sample 12) = 4096 := by decide +kernel
  rw [oneAppend, Throughout]
  refine ⟨by simp [call], fun st h => ?_⟩
  cases h
  rw [Throughout]
  refine ⟨fun c hc => ?_, fun _ _ => trivial⟩
  cases hc
  intro inode hmem
  obtain rfl : Ext2.sampleFile = inode := Option.some.inj (Ext2.sampleFile_mem.symm.trans hmem)
  rw [hsize]
  exact Ext2.fits_sample (by decide) (by decide +kernel)

theorem append_iff_oneDescriptor :
    (∃ st f', runEvents (step ramfs) ⟨.new, []⟩ oneDescriptor = some st ∧ Ramfs.Holds st.node f' ∧
      content f' = [1, 2]) ∧
    ∃ st f', runEvents (step (ext2 12)) ⟨Ext2.load Ext2.sample 12, []⟩ oneAppend = some st ∧
      Ext2Holds Ext2.sampleReserved 12 st.node f' ∧ content f' = content sampleContent ++ [1] := by
  constructor
  · have hin : Throughout ramfs RamfsWithin ⟨.new, []⟩ oneDescriptor := by decide
    obtain ⟨f', hholds, hiff⟩ := append_iff .ramfs holds_new hin rfl
    exact ⟨_, f', rfl, hholds, hiff.mpr (by decide)⟩
  · obtain ⟨st, hrun⟩ := oneAppend_run
    obtain ⟨f', hholds, hiff⟩ :=
      append_iff (.ext2 Ext2.sampleReserved 12) ext2Holds_sample oneAppend_within hrun
    exact ⟨st, f', hrun, hholds, hiff.mpr (by decide +kernel)⟩

/-- Of two descriptors the second overwrites what the first has written. -/
def twoDescriptors : List (Event (Option Buf)) :=
  [.vfsOpen, .vfsOpen, .vfsWrite 0 [1] (some Buf.zero), .vfsWrite 1 [2] (some Buf.zero)]

theorem append_overwrites : ∃ st, runEvents (step ramfs) ⟨.new, []⟩ twoDescriptors = some st ∧
    ∀ f', Ramfs.Holds st.node f' → content f' ≠ content .empty ++ written twoDescriptors := by
  refine ⟨_, rfl, fun f' hholds heq => ?_⟩
  have hlen := congrArg length heq
  rw [content, length_map, length_range, ← hholds.length_eq] at hlen
  revert hlen
  decide

end Osx64.Append
