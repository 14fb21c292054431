import Osx64.Lib.Holders
import Osx64.Lib.Run

/-!
# Open files and descriptor tables

Each process has a table of `NR_OPEN_DEFAULT` descriptors, which point to file objects with a
reference count.  The model has the functions of `fs/fs.c`, `fs/pipe.c` and `task/task.c` that
copy, overwrite and clear descriptors.  What `vfs_open` and `vfs_close` do with names and
inodes is left open: `vfs_open` may fail or give some `data` for the new file object, and
`vfs_close` gives it back (in `gone`) when it frees the object.

A function returns `none` if it follows a pointer that is not a file object: a freed one, or
the number `sys_pipe` keeps in a descriptor for a while.
-/

namespace Osx64.Fd

open Function Option List Relation

/-- `NR_OPEN_DEFAULT` -/
def nrOpenDefault : Nat := 64

/-- What a descriptor points to: a file object, or `(void *)114514`. -/
inductive Ptr where
  | file (f : Nat)
  | fake
deriving DecidableEq

/-- `file_t` -/
structure File (φ : Type) where
  refcount : Int
  data : φ

/-- The processes that are not reaped yet with their tables, and the file objects.  `next` is
the next new object and `released` logs the calls of the `release` hook. -/
structure State (φ : Type) where
  live : Finset Nat
  isKer : Nat → Bool
  slot : Nat × Nat → Option Ptr
  file : Nat → Option (File φ)
  next : Nat
  released : List Nat

/-- A state with the result of a call and the data of the files that were freed. -/
structure Result (φ : Type) where
  st : State φ
  ret : Int
  gone : List φ

variable {φ : Type}

/-! ## Single descriptors -/

namespace State

def setSlot (st : State φ) (x : Nat × Nat) (ptr : Option Ptr) : State φ :=
  { st with slot := update st.slot x ptr }

/-- A new file object with reference count 1. -/
def newFile (st : State φ) (data : φ) : State φ :=
  { st with file := update st.file st.next (some ⟨1, data⟩), next := st.next + 1 }

/-- `vfs_close` -/
def vfsClose (st : State φ) : Ptr → Option (State φ × List φ)
  | .fake => none
  | .file f =>
    match st.file f with
    | none => none
    | some file =>
      if file.refcount - 1 = 0 then
        some ({ st with
          file := update st.file f none
          released := st.released ++ [f] }, [file.data])
      else
        some ({ st with
          file := update st.file f (some { file with refcount := file.refcount - 1 }) }, [])

/-- `atomic_inc(&file->refcount)` -/
def incRef (st : State φ) : Ptr → Option (State φ)
  | .fake => none
  | .file f =>
    (st.file f).map fun file =>
      { st with
        file := update st.file f (some { file with refcount := file.refcount + 1 }) }

/-- `fd_alloc`; `none` is `-1`. -/
def fdAlloc (st : State φ) (p : Nat) : Option Nat :=
  (range nrOpenDefault).find? fun i => (st.slot (p, i)).isNone

/-- `fd_get` -/
def fdGet (st : State φ) (p : Nat) (fd : Int) : Option Ptr :=
  if fd < 0 ∨ (nrOpenDefault : Int) ≤ fd then none else st.slot (p, fd.toNat)

/-- `fd_close` -/
def fdClose (st : State φ) (p : Nat) (fd : Int) : Option (Result φ) :=
  match st.fdGet p fd with
  | none => some ⟨st, -1, []⟩
  | some ptr => ((st.setSlot (p, fd.toNat) none).vfsClose ptr).map fun r => ⟨r.1, 0, r.2⟩

/-- Descriptors are closed one after the other. -/
def closeEach (st : State φ) (p : Nat) : List Nat → Option (State φ × List φ)
  | [] => some (st, [])
  | i :: rest =>
    (st.fdClose p i).bind fun r =>
      (r.st.closeEach p rest).map fun s => (s.1, r.gone ++ s.2)

/-- One round of the loop of `fork_enter`. -/
def copySlot (st : State φ) (p child i : Nat) : Option (State φ) :=
  match st.slot (p, i) with
  | none => some (st.setSlot (child, i) none)
  | some ptr => (st.setSlot (child, i) (some ptr)).incRef ptr

def copyEach (st : State φ) (p child : Nat) : List Nat → Option (State φ)
  | [] => some st
  | i :: rest => (st.copySlot p child i).bind fun st => st.copyEach p child rest

/-- The part of `put_thread` about descriptors: a new process has none. -/
def putThread (st : State φ) (p : Nat) (isKer : Bool) : State φ :=
  { st with
    live := insert p st.live
    isKer := update st.isKer p isKer
    slot := fun x => if x.1 = p ∧ x.2 < nrOpenDefault then none else st.slot x }

/-! ## System calls -/

/-- `sys_open`, with what `vfs_open` gives. -/
def sysOpen (st : State φ) (p : Nat) (opened : Option φ) : Option (Result φ) :=
  match opened with
  | none => some ⟨st, -1, []⟩
  | some data =>
    let f := st.next
    let st := st.newFile data
    match st.fdAlloc p with
    | none => (st.vfsClose (.file f)).map fun r => ⟨r.1, -1, r.2⟩
    | some fd => some ⟨st.setSlot (p, fd) (some (.file f)), fd, []⟩

/-- `sys_close` -/
def sysClose (st : State φ) (p : Nat) (fd : Int) : Option (Result φ) := st.fdClose p fd

/-- `sys_pipe`.  The second search must not find the first descriptor again, so it is filled
with a number meanwhile. -/
def sysPipe (st : State φ) (p : Nat) (reader writer : φ) : Result φ :=
  match st.fdAlloc p with
  | none => ⟨st, -1, []⟩
  | some a =>
    let st₁ := st.setSlot (p, a) (some .fake)
    match st₁.fdAlloc p with
    | none => ⟨st₁.setSlot (p, a) none, -1, []⟩
    | some b =>
      let f := st₁.next
      let st₂ := (st₁.newFile reader).newFile writer
      ⟨(st₂.setSlot (p, a) (some (.file f))).setSlot (p, b) (some (.file (f + 1))), 0, []⟩

/-- `sys_dup` -/
def sysDup (st : State φ) (p : Nat) (oldfd : Int) : Option (Result φ) :=
  match st.fdGet p oldfd with
  | none => some ⟨st, -1, []⟩
  | some ptr =>
    match st.fdAlloc p with
    | none => some ⟨st, -1, []⟩
    | some fd => ((st.setSlot (p, fd) (some ptr)).incRef ptr).map fun st => ⟨st, fd, []⟩

/-- `sys_dup2` -/
def sysDup2 (st : State φ) (p : Nat) (oldfd newfd : Int) : Option (Result φ) :=
  if oldfd = newfd then some ⟨st, if (st.fdGet p oldfd).isSome then newfd else -1, []⟩
  else if newfd < 0 ∨ (nrOpenDefault : Int) ≤ newfd then some ⟨st, -1, []⟩
  else
    match st.fdGet p oldfd with
    | none => some ⟨st, -1, []⟩
    | some ptr =>
      if st.slot (p, newfd.toNat) = some ptr then some ⟨st, newfd, []⟩
      else
        (st.fdClose p newfd).bind fun r =>
          ((r.st.setSlot (p, newfd.toNat) (some ptr)).incRef ptr).map fun st =>
            ⟨st, newfd, r.gone⟩

/-- `fork_enter`, with the number of the child. -/
def forkEnter (st : State φ) (p child : Nat) : Option (Result φ) :=
  if st.isKer p then some ⟨st, -1, []⟩
  else
    ((st.putThread child false).copyEach p child (range nrOpenDefault)).map fun st =>
      ⟨st, child, []⟩

/-- `sys_execv`.  `argsOk` stands for the checks of the arguments and `executable` for
`elf_file_executable`. -/
def sysExecv (st : State φ) (p : Nat) (argsOk : Bool) (opened : Option φ) (executable : Bool) :
    Option (Result φ) :=
  if argsOk = false then some ⟨st, -5, []⟩
  else
    (st.sysOpen p opened).bind fun o =>
      if o.ret < 0 then some ⟨o.st, -4, o.gone⟩
      else
        (o.st.sysClose p o.ret).bind fun c =>
          if executable = false then some ⟨c.st, -3, c.gone⟩
          else
            (c.st.closeEach p ((range nrOpenDefault).drop 3)).map fun r =>
              ⟨{ r.1 with isKer := update r.1.isKer p false }, 0, c.gone ++ r.2⟩

/-- `free_task` -/
def freeTask (st : State φ) (p : Nat) : Option (Result φ) :=
  (st.closeEach p (range nrOpenDefault)).map fun r =>
    ⟨{ r.1 with live := r.1.live.erase p }, 0, r.2⟩

end State

/-- The calls, with the process that makes them. -/
inductive Event (φ : Type) where
  | spawn (p : Nat)
  | open (p : Nat) (opened : Option φ)
  | close (p : Nat) (fd : Int)
  | pipe (p : Nat) (reader writer : φ)
  | dup (p : Nat) (oldfd : Int)
  | dup2 (p : Nat) (oldfd newfd : Int)
  | fork (p child : Nat)
  | execv (p : Nat) (argsOk : Bool) (opened : Option φ) (executable : Bool)
  | reap (p : Nat)

/-- Calls are made by processes that exist, and new processes have new numbers. -/
def Event.Allowed (st : State φ) : Event φ → Prop
  | .spawn p => p ∉ st.live
  | .fork p child => p ∈ st.live ∧ child ∉ st.live
  | .open p _ | .close p _ | .pipe p _ _ | .dup p _ | .dup2 p _ _ | .execv p _ _ _ | .reap p =>
    p ∈ st.live

def exec (st : State φ) : Event φ → Option (Result φ)
  | .spawn p => some ⟨st.putThread p true, p, []⟩
  | .open p opened => st.sysOpen p opened
  | .close p fd => st.sysClose p fd
  | .pipe p reader writer => some (st.sysPipe p reader writer)
  | .dup p oldfd => st.sysDup p oldfd
  | .dup2 p oldfd newfd => st.sysDup2 p oldfd newfd
  | .fork p child => st.forkEnter p child
  | .execv p argsOk opened executable => st.sysExecv p argsOk opened executable
  | .reap p => st.freeTask p

def Step (st st' : State φ) : Prop :=
  ∃ e r, Event.Allowed st e ∧ exec st e = some r ∧ r.st = st'

/-- No process, no file. -/
def initial : State φ := ⟨∅, fun _ => true, fun _ => none, fun _ => none, 0, []⟩

/-! ## The invariant -/

/-- The descriptors of all processes. -/
def places (st : State φ) : Finset (Nat × Nat) := st.live ×ˢ Finset.range nrOpenDefault

/-- The number of descriptors that hold a file. -/
def slotsOf (st : State φ) (f : Nat) : Nat := holders (places st) st.slot (.file f)

structure Counted (st : State φ) : Prop where
  refcount : ∀ f file, st.file f = some file → file.refcount = slotsOf st f ∧ slotsOf st f ≠ 0
  held : ∀ x ptr, st.slot x = some ptr → x ∈ places st ∧ ∃ f file, ptr = .file f ∧
    st.file f = some file
  fresh : ∀ f, st.next ≤ f → st.file f = none
  released : ∀ f, st.released.count f = if f < st.next ∧ st.file f = none then 1 else 0

section Single

variable {st st' : State φ} {x : Nat × Nat} {ptr : Ptr} {p f : Nat} {v : Option Ptr}

@[simp]
theorem slot_setSlot (y : Nat × Nat) (v : Option Ptr) :
    (st.setSlot y v).slot x = if x = y then v else st.slot x :=
  update_apply ..

theorem mem_places : x ∈ places st ↔ x.1 ∈ st.live ∧ x.2 < nrOpenDefault := by
  rw [places, Finset.mem_product, Finset.mem_range]

variable (st') in
theorem slotsOf_update (hx : x ∈ places st) (hlive : st'.live = st.live)
    (hslot : st'.slot = update st.slot x v) (f : Nat) :
    slotsOf st' f + (if st.slot x = some (.file f) then 1 else 0) =
      slotsOf st f + if v = some (.file f) then 1 else 0 := by
  rw [slotsOf, slotsOf, places, hlive, hslot]
  exact holders_update _ hx v

section

variable (h : Counted st)
include h

/-- One descriptor and one file object change: the descriptor comes to hold the file or gives
it up, and the count of the file is right afterwards. -/
theorem Counted.change (hx : x ∈ places st)
    {w : Option (File φ)} (hlive : st'.live = st.live) (hslot : st'.slot = update st.slot x v)
    (hfile : st'.file = update st.file f w)
    (hold : st.slot x = none ∨ st.slot x = some (.file f)) (hv : v = none ∨ v = some (.file f))
    (hcount : ∀ file, w = some file → file.refcount = slotsOf st' f ∧ slotsOf st' f ≠ 0)
    (hgone : w = none → slotsOf st' f = 0) (hfresh : ∀ g, st'.next ≤ g → st'.file g = none)
    (hreleased : ∀ g, st'.released.count g = if g < st'.next ∧ st'.file g = none then 1 else 0) :
    Counted st' := by
  have hplaces : places st' = places st := by rw [places, places, hlive]
  have hother : ∀ g, g ≠ f → slotsOf st' g = slotsOf st g := by
    intro g hg
    have hupdate := slotsOf_update _ hx hlive hslot g
    have hx' : st.slot x ≠ some (.file g) := by
      rcases hold with hold | hold <;> rw [hold] <;> simp [hg.symm]
    have hv' : v ≠ some (.file g) := by
      rcases hv with hv | hv <;> rw [hv] <;> simp [hg.symm]
    rw [if_neg hx', if_neg hv'] at hupdate
    exact hupdate
  -- a file that is still held has not been freed
  have hkept : ∀ y ∈ places st', st'.slot y = some (.file f) → ∃ file, st'.file f = some file := by
    intro y hy hyf
    cases hw : w with
    | none => exact absurd (hgone hw) (Nat.pos_iff_ne_zero.mp (holders_pos _ hy hyf))
    | some file => exact ⟨file, by rw [hfile, update_self, hw]⟩
  refine ⟨fun g file hg => ?_, fun y ptr hy => ?_, hfresh, hreleased⟩
  · by_cases hgf : g = f
    · subst hgf
      rw [hfile, update_self] at hg
      exact hcount file hg
    · rw [hfile, update_of_ne hgf] at hg
      rw [hother g hgf]
      exact h.refcount g file hg
  · by_cases hyx : y = x
    · subst hyx
      have hv' : v = some ptr := by rw [← hy, hslot, update_self]
      have hptr : ptr = .file f := by
        rcases hv with hv | hv <;> rw [hv'] at hv <;> cases hv
        rfl
      have hmem : y ∈ places st' := hplaces ▸ hx
      obtain ⟨file, hf⟩ := hkept y hmem (hptr ▸ hy)
      exact ⟨hmem, f, file, hptr, hf⟩
    · have hold' : st.slot y = some ptr := by rw [← hy, hslot, update_of_ne hyx]
      obtain ⟨hmem, g, file, rfl, hg⟩ := h.held y ptr hold'
      rw [← hplaces] at hmem
      by_cases hgf : g = f
      · subst hgf
        obtain ⟨file', hf⟩ := hkept y hmem hy
        exact ⟨hmem, g, file', rfl, hf⟩
      · exact ⟨hmem, g, file, rfl, by rw [hfile, update_of_ne hgf, hg]⟩

/-- No descriptor holds a file object that does not exist. -/
theorem Counted.slotsOf_eq_zero (hnone : st.file f = none) : slotsOf st f = 0 := by
  refine holders_eq_zero fun y _ hy => ?_
  obtain ⟨-, g, file, hg, hfile⟩ := h.held y _ hy
  cases hg
  cases hnone.symm.trans hfile

/-- A new file object is put into an empty descriptor. -/
theorem Counted.install (hx : x ∈ places st) (hempty : st.slot x = none)
    (data : φ) : Counted ((st.newFile data).setSlot x (some (.file st.next))) := by
  have hnone : st.file st.next = none := h.fresh _ le_rfl
  have hslots : slotsOf ((st.newFile data).setSlot x (some (.file st.next))) st.next = 1 := by
    have hupdate := slotsOf_update ((st.newFile data).setSlot x (some (.file st.next))) hx
      rfl rfl st.next
    rw [hempty, h.slotsOf_eq_zero hnone] at hupdate
    simpa using hupdate
  refine h.change hx rfl rfl rfl (.inl hempty) (.inr rfl) (fun file hfile => ?_)
    (fun hw => by cases hw) (fun g hg => ?_) fun g => ?_
  · cases hfile
    rw [hslots]
    exact ⟨rfl, one_ne_zero⟩
  · have hg : st.next + 1 ≤ g := hg
    exact (update_of_ne (by omega) _ _).trans (h.fresh g (by omega))
  · show st.released.count g =
      if g < st.next + 1 ∧ update st.file st.next (some ⟨1, data⟩) g = none then 1 else 0
    rw [h.released g]
    by_cases hg : g = st.next
    · subst hg
      simp
    · rw [update_of_ne hg]
      congr 1
      rw [eq_iff_iff]
      exact and_congr_left fun _ => by omega

/-- The count of a file object changes together with a descriptor, and stays positive. -/
theorem Counted.recount (hx : x ∈ places st) {file : File φ}
    {n : Int} (hfile : st.file f = some file)
    (hold : st.slot x = none ∨ st.slot x = some (.file f)) (hv : v = none ∨ v = some (.file f))
    (hst' : st' = { st with
      slot := update st.slot x v
      file := update st.file f (some { file with refcount := n }) })
    (hn : n = slotsOf st' f) (hpos : slotsOf st' f ≠ 0) : Counted st' := by
  have hfree : ∀ g, st'.file g = none ↔ st.file g = none := by
    intro g
    rw [hst']
    by_cases hg : g = f
    · subst hg
      simp [hfile]
    · simp [update_of_ne hg]
  have hnext : st'.next = st.next := by rw [hst']
  refine h.change hx (by rw [hst']) (by rw [hst']) (by rw [hst']) hold hv (fun file' hfile' => ?_)
    (fun hw => by cases hw) (fun g hg => ?_) fun g => ?_
  · cases hfile'
    exact ⟨hn, hpos⟩
  · exact (hfree g).mpr (h.fresh g (hnext ▸ hg))
  · simp only [hfree, hnext]
    rw [← h.released g, hst']

/-- A file that is held is put into one more descriptor. -/
theorem Counted.share {y : Nat × Nat} (hx : x ∈ places st)
    (hempty : st.slot x = none) (hptr : st.slot y = some ptr) :
    ∃ st', (st.setSlot x (some ptr)).incRef ptr = some st' ∧ Counted st' ∧ st'.live = st.live ∧
      st'.slot = update st.slot x (some ptr) := by
  obtain ⟨-, f, file, rfl, hfile⟩ := h.held y ptr hptr
  refine ⟨{ st with
    slot := update st.slot x (some (.file f))
    file := update st.file f (some { file with refcount := file.refcount + 1 }) },
    ?_, ?_, rfl, rfl⟩
  · show ((st.setSlot x _).file f).map _ = _
    rw [show (st.setSlot x (some (.file f))).file f = some file from hfile]
    rfl
  · generalize hst' : ({ st with
      slot := update st.slot x (some (.file f))
      file := update st.file f (some { file with refcount := file.refcount + 1 }) } :
        State φ) = st'
    have hupdate := slotsOf_update st' hx (by rw [← hst']) (by rw [← hst']) f
    rw [hempty, if_neg (by simp), if_pos rfl] at hupdate
    obtain ⟨hcount, -⟩ := h.refcount f file hfile
    exact h.recount hx hfile (.inl hempty) (.inr rfl) hst'.symm (by omega) (by omega)

/-- A descriptor is cleared and its file closed. -/
theorem Counted.close (hptr : st.slot x = some ptr) :
    ∃ r, (st.setSlot x none).vfsClose ptr = some r ∧ Counted r.1 ∧ r.1.live = st.live ∧
      r.1.slot = update st.slot x none := by
  obtain ⟨hx, f, file, rfl, hfile⟩ := h.held x ptr hptr
  obtain ⟨hcount, hpos⟩ := h.refcount f file hfile
  have hclose : (st.setSlot x none).vfsClose (.file f) = if file.refcount - 1 = 0 then
      some ({ st with
        slot := update st.slot x none
        file := update st.file f none
        released := st.released ++ [f] }, [file.data])
      else some ({ st with
        slot := update st.slot x none
        file := update st.file f (some { file with refcount := file.refcount - 1 }) },
          []) := by
    show (match st.file f with | none => none | some file => _) = _
    rw [hfile]
    rfl
  rw [hclose]
  split
  · next hlast =>
    -- the last descriptor: the object is freed and its hook called
    refine ⟨_, rfl, ?_, rfl, rfl⟩
    dsimp only
    generalize hst' : ({ st with
      slot := update st.slot x none
      file := update st.file f none
      released := st.released ++ [f] } : State φ) = st'
    have hupdate := slotsOf_update st' hx (by rw [← hst']) (by rw [← hst']) f
    rw [hptr, if_pos rfl, if_neg (by simp)] at hupdate
    have hlt : f < st.next := by
      by_contra hge
      cases (h.fresh f (by omega)).symm.trans hfile
    refine h.change (w := none) hx (by rw [← hst']) (by rw [← hst']) (by rw [← hst']) (.inr hptr)
      (.inl rfl) (fun file hw => by cases hw) (fun _ => by omega) (fun g hg => ?_) fun g => ?_
    · have hg : st.next ≤ g := by rw [← hst'] at hg; exact hg
      rw [← hst']
      exact (update_of_ne (by omega) _ _).trans (h.fresh g hg)
    · rw [← hst']
      show (st.released ++ [f]).count g =
        if g < st.next ∧ update st.file f none g = none then 1 else 0
      rw [count_append, h.released g]
      by_cases hg : g = f
      · subst hg
        simp [hfile, hlt]
      · have hne : count g [f] = 0 := by
          rw [count_singleton, if_neg]
          simpa using Ne.symm hg
        rw [update_of_ne hg, hne, Nat.add_zero]
  · next hmore =>
    refine ⟨_, rfl, ?_, rfl, rfl⟩
    dsimp only
    generalize hst' : ({ st with
      slot := update st.slot x none
      file := update st.file f (some { file with refcount := file.refcount - 1 }) } :
        State φ) = st'
    have hupdate := slotsOf_update st' hx (by rw [← hst']) (by rw [← hst']) f
    rw [hptr, if_pos rfl, if_neg (by simp)] at hupdate
    exact h.recount hx hfile (.inr hptr) (.inl rfl) hst'.symm (by omega) (by omega)

end

end Single

/-! ## The calls keep it -/

section Calls

variable {st st' : State φ} {p child : Nat} {is : List Nat}

theorem fdAlloc_spec {fd : Nat} (h : st.fdAlloc p = some fd) :
    fd < nrOpenDefault ∧ st.slot (p, fd) = none := by
  obtain ⟨hempty, hmem⟩ := And.intro (find?_some h) (mem_of_find?_eq_some h)
  exact ⟨mem_range.mp hmem, isNone_iff_eq_none.mp hempty⟩

/-- A valid descriptor number, as an index. -/
theorem fdGet_spec {fd : Int} {ptr : Ptr} (h : st.fdGet p fd = some ptr) :
    0 ≤ fd ∧ st.slot (p, fd.toNat) = some ptr := by
  unfold State.fdGet at h
  split at h
  · cases h
  · exact ⟨by omega, h⟩

theorem fdGet_natCast {i : Nat} (h : i < nrOpenDefault) :
    st.fdGet p (i : Int) = st.slot (p, i) := by
  rw [State.fdGet, if_neg (by omega), Int.toNat_natCast]

section

variable (h : Counted st)
include h

/-- `fd_close` always returns. -/
theorem Counted.fdClose (p : Nat) (fd : Int) :
    ∃ r, st.fdClose p fd = some r ∧ Counted r.st ∧ r.st.live = st.live ∧
      ∀ x, r.st.slot x = if st.fdGet p fd ≠ none ∧ x = (p, fd.toNat) then none else st.slot x := by
  unfold State.fdClose
  cases hget : st.fdGet p fd with
  | none => exact ⟨_, rfl, h, rfl, fun x => by simp⟩
  | some ptr =>
    obtain ⟨r, hr, hcounted, hlive, hslot⟩ := h.close (fdGet_spec hget).2
    refine ⟨⟨r.1, 0, r.2⟩, congrArg (Option.map _) hr, hcounted, hlive, fun x => ?_⟩
    rw [hslot]
    by_cases hx : x = (p, fd.toNat)
    · simp [hx]
    · simp [hx]

/-- Closing descriptors one after the other. -/
theorem Counted.closeEach (his : ∀ i ∈ is, i < nrOpenDefault) :
    ∃ r, st.closeEach p is = some r ∧ Counted r.1 ∧
      ∀ x, r.1.slot x = if x.1 = p ∧ x.2 ∈ is then none else st.slot x := by
  induction is generalizing st with
  | nil => exact ⟨_, rfl, h, fun x => by simp⟩
  | cons i rest ih =>
    obtain ⟨r, hr, hcounted, -, hslot⟩ := h.fdClose p i
    obtain ⟨s, hs, hcounted', hslot'⟩ :=
      ih hcounted fun j hj => his j (mem_cons_of_mem i hj)
    have hrun : st.closeEach p (i :: rest) = some (s.1, r.gone ++ s.2) := by
      rw [State.closeEach, hr, bind_some, hs, map_some]
    refine ⟨_, hrun, hcounted', fun x => ?_⟩
    rw [hslot', hslot, fdGet_natCast (his i mem_cons_self), Int.toNat_natCast]
    obtain ⟨q, j⟩ := x
    by_cases hq : q = p
    · by_cases hj : j = i
      · subst hq hj
        cases hsl : st.slot (q, j) <;> simp
      · simp [hq, hj]
    · simp [hq]

/-- The loop of `fork_enter`. -/
theorem Counted.copyEach (hchild : child ∈ st.live)
    (his : ∀ i ∈ is, i < nrOpenDefault) (hnodup : is.Nodup)
    (hempty : ∀ i ∈ is, st.slot (child, i) = none) :
    ∃ st', st.copyEach p child is = some st' ∧ Counted st' := by
  induction is generalizing st with
  | nil => exact ⟨_, rfl, h⟩
  | cons i rest ih =>
    rw [nodup_cons] at hnodup
    have hi := hempty i mem_cons_self
    have hrest : ∀ j ∈ rest, (child, j) ≠ (child, i) := by
      intro j hj heq
      cases heq
      exact hnodup.1 hj
    obtain ⟨st₁, hcopy, hcounted, hlive, hslot⟩ : ∃ st₁, st.copySlot p child i = some st₁ ∧
        Counted st₁ ∧ st₁.live = st.live ∧
          ∀ x, x ≠ (child, i) → st₁.slot x = st.slot x := by
      unfold State.copySlot
      cases hptr : st.slot (p, i) with
      | none =>
        have hsame : st.setSlot (child, i) none = st := by
          rw [State.setSlot, ← hi, update_eq_self]
        exact ⟨st, by rw [hsame], h, rfl, fun _ _ => rfl⟩
      | some ptr =>
        have hx : (child, i) ∈ places st := mem_places.mpr ⟨hchild, his i mem_cons_self⟩
        obtain ⟨st₁, hshare, hcounted, hlive, hslot⟩ := h.share hx hi hptr
        refine ⟨st₁, hshare, hcounted, hlive, fun x hx => ?_⟩
        rw [hslot, update_of_ne hx]
    obtain ⟨st', hst', hcounted'⟩ := ih hcounted (hlive ▸ hchild)
      (fun j hj => his j (mem_cons_of_mem i hj)) hnodup.2 fun j hj => by
        rw [hslot _ (hrest j hj)]
        exact hempty j (mem_cons_of_mem i hj)
    exact ⟨st', by rw [State.copyEach, hcopy, bind_some, hst'], hcounted'⟩

/-- A new process has no descriptors. -/
theorem Counted.putThread (hp : p ∉ st.live) (isKer : Bool) :
    Counted (st.putThread p isKer) ∧ ∀ i, (st.putThread p isKer).slot (p, i) = none := by
  have hnone : ∀ i, st.slot (p, i) = none := by
    intro i
    by_contra hne
    obtain ⟨ptr, hptr⟩ := ne_none_iff_exists'.mp hne
    exact hp (mem_places.mp (h.held _ _ hptr).1).1
  have hslot : (st.putThread p isKer).slot = st.slot := by
    funext x
    show (if x.1 = p ∧ x.2 < nrOpenDefault then none else st.slot x) = st.slot x
    split
    · next hx =>
      obtain ⟨q, i⟩ := x
      obtain ⟨rfl, -⟩ := hx
      exact (hnone i).symm
    · rfl
  have hsub : places st ⊆ places (st.putThread p isKer) :=
    Finset.product_subset_product_left (Finset.subset_insert p st.live)
  have hslots : ∀ f, slotsOf (st.putThread p isKer) f = slotsOf st f := by
    intro f
    rw [slotsOf, slotsOf, hslot]
    refine holders_of_subset hsub fun x _ hx hxf => hx (h.held x _ hxf).1
  refine ⟨⟨fun f file hfile => ?_, fun x ptr hx => ?_, h.fresh, h.released⟩, fun i => ?_⟩
  · rw [hslots]
    exact h.refcount f file hfile
  · rw [hslot] at hx
    obtain ⟨hmem, hrest⟩ := h.held x ptr hx
    exact ⟨hsub hmem, hrest⟩
  · rw [hslot, hnone]

/-- A process without descriptors goes. -/
theorem Counted.erase (hempty : ∀ i < nrOpenDefault, st.slot (p, i) = none) :
    Counted { st with live := st.live.erase p } := by
  have hmem : ∀ x ptr, st.slot x = some ptr → x ∈ places { st with live := st.live.erase p } := by
    intro x ptr hx
    obtain ⟨hlive, hlt⟩ := mem_places.mp (h.held x ptr hx).1
    refine mem_places.mpr ⟨Finset.mem_erase.mpr ⟨fun heq => ?_, hlive⟩, hlt⟩
    obtain ⟨q, i⟩ := x
    cases heq
    cases (hempty i hlt).symm.trans hx
  have hsub : places { st with live := st.live.erase p } ⊆ places st :=
    Finset.product_subset_product_left (Finset.erase_subset p st.live)
  have hslots : ∀ f, slotsOf { st with live := st.live.erase p } f = slotsOf st f :=
    fun f => (holders_of_subset hsub fun x _ hx hxf => hx (hmem x _ hxf)).symm
  refine ⟨fun f file hfile => ?_, fun x ptr hx => ⟨hmem x ptr hx, (h.held x ptr hx).2⟩, h.fresh,
    h.released⟩
  rw [hslots]
  exact h.refcount f file hfile

/-- A new file object for which there is no descriptor goes again. -/
theorem Counted.dropNew (data : φ) :
    ∃ r, (st.newFile data).vfsClose (.file st.next) = some r ∧ Counted r.1 := by
  have hnew : (st.newFile data).file st.next = some ⟨1, data⟩ := update_self ..
  have hfile : update (st.newFile data).file st.next none = st.file := by
    rw [State.newFile, update_idem, ← h.fresh st.next le_rfl, update_eq_self]
  refine ⟨({ st with next := st.next + 1, released := st.released ++ [st.next] }, [data]), ?_,
    h.refcount, h.held, fun f hf => h.fresh f (Nat.le_of_succ_le hf), fun f => ?_⟩
  · simp only [State.vfsClose, hnew, sub_self, if_true, hfile]
    rfl
  · show (st.released ++ [st.next]).count f = if f < st.next + 1 ∧ st.file f = none then 1 else 0
    rw [count_append, h.released f, count_singleton]
    by_cases hf : f = st.next
    · subst hf
      simp [h.fresh st.next le_rfl]
    · have hlt : f < st.next + 1 ↔ f < st.next := by omega
      simp [Ne.symm hf, hlt]

section

variable (hp : p ∈ st.live)
include hp

theorem Counted.sysOpen (opened : Option φ) :
    ∃ r, st.sysOpen p opened = some r ∧ Counted r.st := by
  unfold State.sysOpen
  cases opened with
  | none => exact ⟨_, rfl, h⟩
  | some data =>
    cases halloc : (st.newFile data).fdAlloc p with
    | none =>
      obtain ⟨r, hr, hcounted⟩ := h.dropNew data
      exact ⟨⟨r.1, -1, r.2⟩, by simp [halloc, hr], hcounted⟩
    | some fd =>
      obtain ⟨hlt, hempty⟩ := fdAlloc_spec halloc
      refine ⟨⟨_, fd, []⟩, ?_, h.install (mem_places.mpr ⟨hp, hlt⟩) hempty data⟩
      simp only [halloc]
      rfl

/-- Both new descriptors get a file; the number in the first one is gone. -/
theorem Counted.sysPipe (reader writer : φ) :
    Counted (st.sysPipe p reader writer).st := by
  unfold State.sysPipe
  split
  · exact h
  · next a ha =>
    obtain ⟨halt, hempty⟩ := fdAlloc_spec ha
    dsimp only
    split
    · have hback : (st.setSlot (p, a) (some .fake)).setSlot (p, a) none = st := by
        rw [State.setSlot, State.setSlot, update_idem, ← hempty, update_eq_self]
      rw [hback]
      exact h
    · next b hb =>
      obtain ⟨hblt, hbempty⟩ := fdAlloc_spec hb
      have hba : (p, b) ≠ (p, a) := by
        intro heq
        simp [heq] at hbempty
      rw [slot_setSlot, if_neg hba] at hbempty
      have hfirst := h.install (mem_places.mpr ⟨hp, halt⟩) hempty reader
      have hsecond := hfirst.install (x := (p, b)) (mem_places.mpr ⟨hp, hblt⟩)
        (by rw [slot_setSlot, if_neg hba]; exact hbempty) writer
      simpa only [State.setSlot, State.newFile, update_idem] using hsecond

theorem Counted.sysDup (oldfd : Int) :
    ∃ r, st.sysDup p oldfd = some r ∧ Counted r.st := by
  unfold State.sysDup
  cases hget : st.fdGet p oldfd with
  | none => exact ⟨_, rfl, h⟩
  | some ptr =>
    cases halloc : st.fdAlloc p with
    | none => exact ⟨_, rfl, h⟩
    | some fd =>
      obtain ⟨hlt, hempty⟩ := fdAlloc_spec halloc
      obtain ⟨st', hst', hcounted, -⟩ :=
        h.share (mem_places.mpr ⟨hp, hlt⟩) hempty (fdGet_spec hget).2
      exact ⟨⟨st', fd, []⟩, congrArg (Option.map _) hst', hcounted⟩

/-- The target is closed first; this does not free the file that is then put there. -/
theorem Counted.sysDup2 (oldfd newfd : Int) :
    ∃ r, st.sysDup2 p oldfd newfd = some r ∧ Counted r.st := by
  unfold State.sysDup2
  by_cases heq : oldfd = newfd
  · rw [if_pos heq]
    exact ⟨_, rfl, h⟩
  by_cases hrange : newfd < 0 ∨ (nrOpenDefault : Int) ≤ newfd
  · rw [if_neg heq, if_pos hrange]
    exact ⟨_, rfl, h⟩
  rw [if_neg heq, if_neg hrange]
  cases hget : st.fdGet p oldfd with
  | none => exact ⟨_, rfl, h⟩
  | some ptr =>
    obtain ⟨hnonneg, hptr⟩ := fdGet_spec hget
    dsimp only
    split
    · exact ⟨_, rfl, h⟩
    · obtain ⟨r, hr, hcounted, hlive, hslot⟩ := h.fdClose p newfd
      have hempty : r.st.slot (p, newfd.toNat) = none := by
        rw [hslot, State.fdGet, if_neg hrange]
        split
        · rfl
        · next hnone => simpa using hnone
      have hkept : r.st.slot (p, oldfd.toNat) = some ptr := by
        have hne : (p, oldfd.toNat) ≠ (p, newfd.toNat) := by
          intro hsame
          have := congrArg Prod.snd hsame
          omega
        rw [hslot, if_neg fun hboth => hne hboth.2, hptr]
      have hmem : (p, newfd.toNat) ∈ places r.st :=
        mem_places.mpr ⟨hlive ▸ hp, by dsimp only; omega⟩
      obtain ⟨st', hst', hcounted', -⟩ := hcounted.share hmem hempty hkept
      exact ⟨⟨st', newfd, r.gone⟩, by rw [hr, bind_some, hst', map_some],
        hcounted'⟩

end

theorem Counted.forkEnter (hchild : child ∉ st.live) :
    ∃ r, st.forkEnter p child = some r ∧ Counted r.st := by
  unfold State.forkEnter
  split
  · exact ⟨_, rfl, h⟩
  · obtain ⟨hnew, hempty⟩ := h.putThread hchild false
    obtain ⟨st', hst', hcounted⟩ := hnew.copyEach (p := p)
      (Finset.mem_insert_self child st.live) (fun i hi => mem_range.mp hi) nodup_range
      fun i _ => hempty i
    exact ⟨⟨st', child, []⟩, by rw [hst', map_some], hcounted⟩

theorem Counted.sysExecv (hp : p ∈ st.live) (argsOk : Bool) (opened : Option φ)
    (executable : Bool) :
    ∃ r, st.sysExecv p argsOk opened executable = some r ∧ Counted r.st := by
  unfold State.sysExecv
  split
  · exact ⟨_, rfl, h⟩
  obtain ⟨o, ho, hopened⟩ := h.sysOpen hp opened
  rw [ho, bind_some]
  split
  · exact ⟨_, rfl, hopened⟩
  obtain ⟨c, hc, hclosed, -⟩ := hopened.fdClose p o.ret
  rw [State.sysClose, hc, bind_some]
  split
  · exact ⟨_, rfl, hclosed⟩
  obtain ⟨r, hr, hcounted, -⟩ := hclosed.closeEach (p := p)
    fun i hi => mem_range.mp (mem_of_mem_drop hi)
  rw [hr]
  exact ⟨_, rfl, { hcounted with }⟩

theorem Counted.freeTask : ∃ r, st.freeTask p = some r ∧ Counted r.st := by
  obtain ⟨r, hr, hcounted, hslot⟩ :=
    h.closeEach (p := p) fun i (hi : i ∈ range nrOpenDefault) => mem_range.mp hi
  refine ⟨⟨{ r.1 with live := r.1.live.erase p }, 0, r.2⟩, congrArg (Option.map _) hr,
    hcounted.erase fun i hi => ?_⟩
  rw [hslot, if_pos ⟨rfl, mem_range.mpr hi⟩]

/-- Every call returns and keeps the counts. -/
theorem Counted.exec {e : Event φ} (he : e.Allowed st) :
    ∃ r, exec st e = some r ∧ Counted r.st := by
  cases e with
  | spawn p => exact ⟨_, rfl, (h.putThread he true).1⟩
  | «open» p opened => exact h.sysOpen he opened
  | close p fd =>
    obtain ⟨r, hr, hcounted, -⟩ := h.fdClose p fd
    exact ⟨r, hr, hcounted⟩
  | pipe p reader writer => exact ⟨_, rfl, h.sysPipe he reader writer⟩
  | dup p oldfd => exact h.sysDup he oldfd
  | dup2 p oldfd newfd => exact h.sysDup2 he oldfd newfd
  | fork p child => exact h.forkEnter he.2
  | execv p argsOk opened executable => exact h.sysExecv he argsOk opened executable
  | reap p => exact h.freeTask

end

end Calls

/-! ## Runs -/

theorem counted_initial : Counted (initial : State φ) where
  refcount _ _ hfile := by cases hfile
  held _ _ hslot := by cases hslot
  fresh _ _ := rfl
  released f := by simp [initial]

theorem counted_of_run {st : State φ} (h : ReflTransGen Step initial st) :
    Counted st := by
  induction h with
  | refl => exact counted_initial
  | tail _ hstep ih =>
    obtain ⟨e, r, hallowed, hexec, rfl⟩ := hstep
    obtain ⟨r', hr', hcounted⟩ := ih.exec hallowed
    cases hexec.symm.trans hr'
    exact hcounted

/-- After any calls of any processes the count of each file object is the number of descriptors
that hold it, descriptors hold only file objects that exist, the hook of a file has run exactly
once if no descriptor holds it any more and not at all before, and the next call does not
follow a wild pointer. -/
theorem refcount_eq_slots {st : State φ} (h : Relation.ReflTransGen Step initial st) :
    (∀ f file, st.file f = some file → file.refcount = slotsOf st f) ∧
      (∀ x ptr, st.slot x = some ptr → ∃ f file, ptr = .file f ∧ st.file f = some file) ∧
      (∀ f < st.next, st.released.count f = if slotsOf st f = 0 then 1 else 0) ∧
      (∀ f < st.next, st.file f = none ↔ slotsOf st f = 0) ∧
      ∀ e : Event φ, e.Allowed st → ∃ r, exec st e = some r := by
  have hcounted := counted_of_run h
  have hfreed : ∀ f, st.file f = none ↔ slotsOf st f = 0 := by
    intro f
    refine ⟨hcounted.slotsOf_eq_zero, fun hzero => ?_⟩
    by_contra hne
    obtain ⟨file, hfile⟩ := ne_none_iff_exists'.mp hne
    exact (hcounted.refcount f file hfile).2 hzero
  refine ⟨fun f file hfile => (hcounted.refcount f file hfile).1,
    fun x ptr hx => (hcounted.held x ptr hx).2, fun f hf => ?_, fun f _ => hfreed f,
    fun e he => ?_⟩
  · rw [hcounted.released f]
    simp only [hf, hfreed, true_and]
  · obtain ⟨r, hr, -⟩ := hcounted.exec he
    exact ⟨r, hr⟩

instance (st : State φ) (e : Event φ) : Decidable (e.Allowed st) := by
  cases e <;> unfold Event.Allowed <;> infer_instance

/-- A step as a function. -/
def step (st : State φ) (e : Event φ) : Option (State φ) :=
  if e.Allowed st then (exec st e).map Result.st else none

theorem steps_of_run {st st' : State φ} {es : List (Event φ)}
    (h : runEvents step st es = some st') : ReflTransGen Step st st' := by
  refine ReflTransGen.mono (fun st st' hstep => ?_) _ _ (steps_of_runEvents h)
  obtain ⟨e, he⟩ := hstep
  obtain ⟨hallowed, hexec⟩ := ite_none_right_eq_some.mp he
  obtain ⟨r, hr, rfl⟩ := map_eq_some_iff.mp hexec
  exact ⟨e, r, hallowed, hr, rfl⟩

/-- A process that has loaded a program opens a file, duplicates the descriptor over the
reading end of a pipe and forks: the first file is in four descriptors, the reading end has
been released. -/
theorem refcount_eq_slots_sample : ∃ st : State Unit, Relation.ReflTransGen Step initial st ∧
    slotsOf st 1 = 4 ∧ st.released = [0, 2] ∧
      ∀ file, st.file 1 = some file → file.refcount = 4 := by
  let events : List (Event Unit) := [.spawn 1, .execv 1 true (some ()) true, .open 1 (some ()),
    .pipe 1 () (), .dup2 1 0 1, .fork 1 2]
  obtain ⟨st, hrun⟩ : ∃ st, runEvents step initial events = some st := ⟨_, rfl⟩
  have hst := steps_of_run hrun
  have hview : (runEvents step initial events).map (fun st => (slotsOf st 1, st.released)) =
      some (4, [0, 2]) := by
    decide +kernel
  rw [hrun, map_some, some_inj, Prod.mk.injEq] at hview
  refine ⟨st, hst, hview.1, hview.2, fun file hfile => ?_⟩
  rw [(refcount_eq_slots hst).1 1 file hfile, hview.1]
  rfl

end Osx64.Fd
