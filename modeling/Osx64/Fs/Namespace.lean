import Mathlib.Data.Finset.Option
import Osx64.Fs.FdFiles
import Osx64.Fs.VfsRef

/-!
# Processes in the name space

The calls of the processes on the name space of `Fs/Vfs.lean`, with the descriptor tables of
`Fs/Fd.lean` and the current directories.  A call that frees file objects gives their dentries
and inodes back.  Between two calls all references to dentries that are not pointers of the name
space itself are those of open files and of current directories, and the invariants of the two
models are kept with exactly these.

The files of a pipe have no dentry.  A process that has exited keeps its files and its current
directory until it is reaped.
-/

namespace Osx64.Vfs

open Function Multiset Option

variable {β : Type} (o : Backend β)

/-- The name space, the descriptors and files, and `cwd` of each process.  `rootNode` is the node
of the partition that `mount_root` has mounted; no function reads it. -/
structure Sys (β : Type) where
  fs : Fs β
  fd : Fd.State Opened
  cwd : Nat → Nat
  rootNode : Option Nat

/-- The dentries of files. -/
def named (files : Multiset Opened) : Multiset Nat := files.filterMap Opened.dentry

namespace Sys

variable (sys : Sys β)

/-- The dentries of the open files. -/
def openOn : Multiset Nat := named sys.fd.files

/-- The current directories of the processes that are not reaped. -/
def cwds : Multiset Nat := sys.fd.live.val.map sys.cwd

def held : Multiset Nat := sys.openOn + sys.cwds

end Sys

/-! ## Calls -/

/-- The last references to these files are gone. -/
def closeAll (fs : Fs β) (gone : List Opened) : Fs β :=
  gone.foldl (fun fs file => fs.vfsClose o file) fs

/-- `getin_cwd` -/
def getinCwd (fs : Fs β) (d : Nat) : Fs β := (fs.sbGet (fs.dentry d).inMnt).dentryGet d

/-- One end of a pipe. -/
def pipeEnd : Opened := ⟨none, none⟩

inductive Call where
  /-- `kernel_thread` with its parent -/
  | spawn (p child : Nat)
  | fork (p child : Nat)
  | exit (p : Nat)
  /-- `free_task`, called by `sys_waitpid` -/
  | reap (p : Nat)
  | open (p : Nat) (path : Path) (flags mode : Nat)
  | close (p : Nat) (fd : Int)
  | pipe (p : Nat)
  | dup (p : Nat) (oldfd : Int)
  | dup2 (p : Nat) (oldfd newfd : Int)
  | execv (p : Nat) (argsOk : Bool) (path : Path) (executable : Bool)
  | mkdir (p : Nat) (path : Path) (mode : Nat)
  | rmdir (p : Nat) (path : Path)
  | unlink (p : Nat) (path : Path)
  | rename (p : Nat) (oldpath newpath : Path)
  | truncate (p : Nat) (path : Path) (length : Int)
  | chdir (p : Nat) (path : Path)
  | mount (p : Nat) (devPath toPath : Path)
  | umount (p : Nat) (path : Path)
  /-- `vfs_mount` of a partition, in `mount_root` -/
  | vfsMount (q : Nat) (path : Path)
  /-- a round of `dentry_cache_task` -/
  | cacheTask
  /-- `devfs_block_register` or `devfs_chr_register` -/
  | register (name : Name) (mode priv : Nat) (block : Bool)

namespace Sys

variable (sys : Sys β)

/-- A call on descriptors. -/
def onFiles (e : Fd.Event Opened) : Option (Sys β) :=
  (Fd.exec sys.fd e).map fun r => { sys with fs := closeAll o sys.fs r.gone, fd := r.st }

/-- The part of `put_thread` about the current directory. -/
def inherit (p child : Nat) : Sys β :=
  { sys with
    fs := getinCwd sys.fs (sys.cwd p)
    cwd := update sys.cwd child (sys.cwd p) }

def exec : Call → Option (Sys β)
  | .spawn p child => (sys.inherit p child).onFiles o (.spawn child)
  | .fork p child =>
    if sys.fd.isKer p then some sys else (sys.inherit p child).onFiles o (.fork p child)
  | .exit _ => some sys
  | .reap p =>
    (sys.onFiles o (.reap p)).map fun sys =>
      { sys with fs := (sys.fs.sbPut (sys.fs.dentry (sys.cwd p)).inMnt).dentryPut o (sys.cwd p) }
  | .open p path flags mode =>
    let r := sys.fs.vfsOpen o (sys.cwd p) path flags mode
    ({ sys with fs := r.1 } : Sys β).onFiles o (.open p r.2)
  | .close p fd => sys.onFiles o (.close p fd)
  | .pipe p => sys.onFiles o (.pipe p pipeEnd pipeEnd)
  | .dup p oldfd => sys.onFiles o (.dup p oldfd)
  | .dup2 p oldfd newfd => sys.onFiles o (.dup2 p oldfd newfd)
  | .execv p argsOk path executable =>
    if argsOk then
      let r := sys.fs.vfsOpen o (sys.cwd p) path 0 0
      ({ sys with fs := r.1 } : Sys β).onFiles o (.execv p true r.2 executable)
    else sys.onFiles o (.execv p false none executable)
  | .mkdir p path mode => some { sys with fs := (sys.fs.sysMkdir o (sys.cwd p) path mode).1 }
  | .rmdir p path => some { sys with fs := (sys.fs.sysRmdir o (sys.cwd p) path).1 }
  | .unlink p path => some { sys with fs := (sys.fs.sysUnlink o (sys.cwd p) path).1 }
  | .rename p oldpath newpath =>
    some { sys with fs := (sys.fs.sysRename o (sys.cwd p) oldpath newpath).1 }
  | .truncate p path length =>
    some { sys with fs := (sys.fs.sysTruncate o (sys.cwd p) path length).1 }
  | .chdir p path =>
    let r := sys.fs.sysChdir o (sys.cwd p) path
    some { sys with fs := r.1, cwd := update sys.cwd p (r.2.getD (sys.cwd p)) }
  | .mount p devPath toPath =>
    some { sys with fs := (sys.fs.sysMount o (sys.cwd p) devPath toPath).1 }
  | .umount _ path => some { sys with fs := (sys.fs.sysUmount o path).1 }
  | .vfsMount q path =>
    let r := sys.fs.vfsMount o (some q) path 0
    some { sys with
      fs := r.1
      rootNode := if r.2 then (sys.fs.part q).fsDentry else sys.rootNode }
  | .cacheTask => some { sys with fs := sys.fs.dentryCacheTask o }
  | .register name mode priv block =>
    some { sys with fs := (sys.fs.sb devfsSb).root.elim sys.fs fun root =>
      (sys.fs.devfsRegister o devfsSb root name mode priv block).1 }

end Sys

/-- Calls are made by processes that exist, and new processes have new numbers.  While devfs is
mounted, a device is registered once, and `mount_root`, which runs once, mounts a partition that
has been registered. -/
def Call.Allowed (sys : Sys β) : Call → Prop
  | .spawn p child | .fork p child => p ∈ sys.fd.live ∧ child ∉ sys.fd.live
  | .exit p | .reap p | .open p _ _ _ | .close p _ | .pipe p | .dup p _ | .dup2 p _ _
  | .execv p _ _ _ | .mkdir p _ _ | .rmdir p _ | .unlink p _ | .rename p _ _ | .truncate p _ _
  | .chdir p _ | .mount p _ _ | .umount p _ => p ∈ sys.fd.live
  | .vfsMount q _ => devfsSb ∈ sys.fs.mounted ∧ sys.rootNode = none ∧
    ∃ dev ∈ sys.fs.dentries, (sys.fs.part q).fsDentry = some dev ∧
      (sys.fs.dentry dev).blockDev = true
  | .cacheTask => True
  | .register _ _ priv block =>
    devfsSb ∈ sys.fs.mounted ∧ (block = true → (sys.fs.part priv).fsDentry = none)

/-- `sys_rename` gives the reference of the dentry to its parent back to another dentry if the
source is not a child of the parent that has been looked up; `sys_unlink` deletes a file that
dentries hang from. -/
def Call.Tame (sys : Sys β) : Call → Prop
  | .rename p oldpath newpath => sys.fs.RenamesChild o (sys.cwd p) oldpath newpath
  | .unlink p path => sys.fs.UnlinksLeaf o (sys.cwd p) path
  | _ => True

def Step (sys sys' : Sys β) : Prop :=
  ∃ call : Call, call.Allowed sys ∧ call.Tame o sys ∧ sys.exec o call = some sys'

/-! ## The invariant -/

structure SysInv (sys : Sys β) (debt : Debt) : Prop where
  fd : Fd.Counted sys.fd
  inv : Inv sys.fs debt sys.held
  refs : RefOk sys.fs sys.held
  marked : ∀ d ∈ debt.leaked, (sys.fs.dentry d).deleted = true
  lent : debt.lent = sys.rootNode.toFinset
  cwd : ∀ p ∈ sys.fd.live, sys.fs.Dir (sys.cwd p)

variable {o} {sys : Sys β} {fs fs' : Fs β} {debt : Debt} {held rest : Multiset Nat}

@[simp]
theorem named_zero : named 0 = 0 := rfl

@[simp]
theorem named_add (a b : Multiset Opened) : named (a + b) = named a + named b :=
  filterMap_add ..

@[simp]
theorem named_coe_cons (file : Opened) (files : List Opened) :
    named ↑(file :: files) = file.dentry.elim 0 (fun d => {d}) + named ↑files := by
  rw [named, named, filterMap_coe, filterMap_coe, List.filterMap_cons]
  cases file.dentry <;> rfl

/-- Files are closed, each with its reference. -/
theorem Inv.closeAll_carry (gone : List Opened) {fs : Fs β}
    (h : Inv fs debt (named ↑gone + held)) (hrefs : RefOk fs (named ↑gone + held)) :
    Carry fs (closeAll o fs gone) debt held := by
  induction gone generalizing fs with
  | nil =>
    rw [coe_nil, named_zero, zero_add] at h hrefs
    exact .refl h hrefs
  | cons file gone ih =>
    obtain ⟨dentry, i⟩ := file
    rw [named_coe_cons] at h hrefs
    cases dentry with
    | none =>
      rw [elim_none, zero_add] at h hrefs
      exact ih h hrefs
    | some d =>
      rw [elim_some, add_assoc, singleton_add] at h hrefs
      have hclose := h.close_carry (o := o) hrefs i
      exact hclose.trans (ih hclose.inv hclose.refs) (le_add_left _ _)

variable (sys rest) in
/-- A call on descriptors keeps the files that are not freed, and gives back the others. -/
theorem files_carry {e : Fd.Event Opened} {new : Multiset Opened} (hfd : Fd.Counted sys.fd)
    (hallowed : e.Allowed sys.fd)
    (hgained : ∀ r, Fd.exec sys.fd e = some r → Fd.Gained sys.fd r.st new r.gone)
    (hinv : Inv sys.fs debt (named new + (sys.openOn + rest)))
    (hrefs : RefOk sys.fs (named new + (sys.openOn + rest))) :
    ∃ sys', sys.onFiles o e = some sys' ∧ Fd.Counted sys'.fd ∧
      (sys'.cwd = sys.cwd ∧ sys'.rootNode = sys.rootNode) ∧
      sys'.fd.live = e.survivors sys.fd ∧ Carry sys.fs sys'.fs debt (sys'.openOn + rest) := by
  obtain ⟨r, hr, hcounted⟩ := hfd.exec hallowed
  refine ⟨_, congrArg (Option.map _) hr, hcounted, ⟨rfl, rfl⟩, Fd.live_exec hfd.fresh hr, ?_⟩
  have hfiles := congrArg named (hgained r hr).files
  have hsum : named new + (sys.openOn + rest) = named ↑r.gone + (named r.st.files + rest) := by
    rw [named_add, named_add] at hfiles
    calc named new + (sys.openOn + rest) = (named sys.fd.files + named new) + rest := by
          rw [Sys.openOn, ← add_assoc, add_comm (named new)]
      _ = (named r.st.files + named ↑r.gone) + rest := by rw [hfiles]
      _ = named ↑r.gone + (named r.st.files + rest) := by
          rw [add_comm (named r.st.files), add_assoc]
  rw [hsum] at hinv hrefs
  exact hinv.closeAll_carry r.gone hrefs

namespace SysInv

variable {p child : Nat} {e : Fd.Event Opened}

/-- What has been marked stays marked. -/
theorem still_marked {held' : Multiset Nat} (h : SysInv sys debt)
    (hcarry : Carry sys.fs fs' debt held') : ∀ d ∈ debt.leaked, (fs'.dentry d).deleted = true :=
  fun d hd => hcarry.deleted d (h.inv.counted.lt d (h.inv.counted.leaked d hd)) (h.marked d hd)

theorem cwd_mem (hp : p ∈ sys.fd.live) : sys.cwd p ∈ sys.held :=
  mem_add.mpr (.inr (mem_map_of_mem sys.cwd hp))

section

variable (h : SysInv sys debt)
include h

theorem good_cwd (hp : p ∈ sys.fd.live) : sys.fs.Good (sys.cwd p) :=
  (h.cwd p hp).1

/-- A call that only works on the name space. -/
theorem carry (hcarry : Carry sys.fs fs' debt sys.held) :
    SysInv { sys with fs := fs' } debt where
  fd := h.fd
  inv := hcarry.inv
  refs := hcarry.refs
  marked := h.still_marked hcarry
  lent := h.lent
  cwd p hp := hcarry.dir _ (cwd_mem hp) (h.cwd p hp)

theorem done (hdone : Done sys.fs fs' debt sys.held) : SysInv { sys with fs := fs' } debt :=
  h.carry (hdone.carry h.inv h.refs)

/-- A call on descriptors, after the name space has given the new files. -/
theorem onFiles {new : Multiset Opened}
    (hcarry : Carry sys.fs fs' debt (named new + sys.held)) (hallowed : e.Allowed sys.fd)
    (hgained : ∀ r, Fd.exec sys.fd e = some r → Fd.Gained sys.fd r.st new r.gone)
    (hlive : e.survivors sys.fd = sys.fd.live) :
    ∃ sys', ({ sys with fs := fs' } : Sys β).onFiles o e = some sys' ∧ SysInv sys' debt := by
  obtain ⟨sys', hsys', hcounted, ⟨hcwd, hnode⟩, hlive', hfiles⟩ := files_carry (o := o)
    { sys with fs := fs' } sys.cwds h.fd hallowed hgained hcarry.inv hcarry.refs
  have hcwds : sys'.cwds = sys.cwds := by
    rw [Sys.cwds, Sys.cwds, hlive', hcwd, hlive]
  rw [← hcwds] at hfiles
  refine ⟨sys', hsys', hcounted, hfiles.inv, hfiles.refs, fun d hd => ?_, hnode ▸ h.lent,
    fun p hp => ?_⟩
  · have hlt := h.inv.counted.lt d (h.inv.counted.leaked d hd)
    exact hfiles.deleted d (hlt.trans_le hcarry.next) (hcarry.deleted d hlt (h.marked d hd))
  · rw [hlive', hlive] at hp
    rw [hcwd]
    have hmem : sys.cwd p ∈ sys.cwds := mem_map_of_mem sys.cwd hp
    refine hfiles.dir _ (mem_add.mpr (.inr (hcwds ▸ hmem))) (hcarry.dir _ ?_ (h.cwd p hp))
    exact mem_add.mpr (.inr (cwd_mem hp))

/-- A call on descriptors that does not need the name space. -/
theorem onFiles_kept {new : Multiset Opened} (hnew : named new = 0) (hallowed : e.Allowed sys.fd)
    (hgained : ∀ r, Fd.exec sys.fd e = some r → Fd.Gained sys.fd r.st new r.gone)
    (hlive : e.survivors sys.fd = sys.fd.live) :
    ∃ sys', sys.onFiles o e = some sys' ∧ SysInv sys' debt := by
  refine h.onFiles (show Carry sys.fs sys.fs debt (named new + sys.held) from ?_) hallowed hgained
    hlive
  rw [hnew, zero_add]
  exact .refl h.inv h.refs

theorem sysOpen (hp : p ∈ sys.fd.live) (path : Path) (flags mode : Nat) :
    Carry sys.fs (sys.fs.vfsOpen o (sys.cwd p) path flags mode).1 debt
      (named ((sys.fs.vfsOpen o (sys.cwd p) path flags mode).2.elim 0 fun file => {file}) +
        sys.held) := by
  have hopen := (h.inv.vfsOpen (o := o) (h.good_cwd hp) path flags mode).carry h.inv h.refs
  generalize sys.fs.vfsOpen o (sys.cwd p) path flags mode = r at hopen
  obtain ⟨fs', opened⟩ := r
  cases opened with
  | none =>
    rw [elim_none, named_zero, zero_add]
    exact hopen
  | some file =>
    obtain ⟨dentry, i⟩ := file
    cases dentry with
    | none => exact (zero_add sys.held).symm ▸ hopen
    | some d => exact (singleton_add d sys.held).symm ▸ hopen

end

/-- The current directories with that of a new process. -/
theorem cwds_insert {live : Finset Nat} {cwd : Nat → Nat} (hchild : child ∉ live) (d : Nat) :
    (insert child live).val.map (update cwd child d) = d ::ₘ live.val.map cwd := by
  rw [Finset.insert_val_of_notMem hchild, map_cons, update_self]
  refine congrArg (d ::ₘ ·) (map_congr rfl fun q hq => ?_)
  exact update_of_ne (fun heq : q = child => hchild (heq ▸ hq)) _ _

/-- A process is made. -/
theorem inherit (h : SysInv sys debt) (hp : p ∈ sys.fd.live)
    (hchild : child ∉ sys.fd.live) (hallowed : e.Allowed sys.fd)
    (hkept : ∀ r, Fd.exec sys.fd e = some r → Fd.Kept sys.fd r.st r.gone)
    (hlive : e.survivors sys.fd = insert child sys.fd.live) :
    ∃ sys', (sys.inherit p child).onFiles o e = some sys' ∧ SysInv sys' debt := by
  have henter := h.inv.enter_carry h.refs (h.good_cwd hp)
  have hfs : getinCwd sys.fs (sys.cwd p) =
      (sys.fs.dentryGet (sys.cwd p)).sbGet (sys.fs.dentry (sys.cwd p)).inMnt := by
    rw [getinCwd, Fs.sbGet_eq, Fs.sbGet_eq]
    rfl
  rw [← hfs] at henter
  have hheld : sys.cwd p ::ₘ sys.held = named 0 + (sys.openOn + (sys.cwd p ::ₘ sys.cwds)) := by
    rw [named_zero, zero_add, add_cons]
    rfl
  rw [hheld] at henter
  obtain ⟨sys', hsys', hcounted, ⟨hcwd, hnode⟩, hlive', hfiles⟩ := files_carry (o := o)
    (sys.inherit p child) _ h.fd hallowed (fun r hr => (hkept r hr).gained) henter.inv henter.refs
  have hcwds : sys'.cwds = sys.cwd p ::ₘ sys.cwds := by
    rw [Sys.cwds, hlive', hcwd]
    change (e.survivors sys.fd).val.map (update sys.cwd child (sys.cwd p)) = _
    rw [hlive]
    exact cwds_insert hchild _
  rw [← hcwds] at hfiles
  have hdir : ∀ q ∈ sys.fd.live, sys'.fs.Dir (sys.cwd q) := by
    intro q hq
    have hmem : sys.cwd q ∈ sys.cwds := mem_map_of_mem sys.cwd hq
    refine hfiles.dir _ (mem_add.mpr (.inr (hcwds ▸ mem_cons_of_mem hmem))) ?_
    exact henter.dir _ (hheld ▸ mem_cons_of_mem (cwd_mem hq)) (h.cwd q hq)
  refine ⟨sys', hsys', hcounted, hfiles.inv, hfiles.refs, fun d hd => ?_, hnode ▸ h.lent,
    fun q hq => ?_⟩
  · have hlt := h.inv.counted.lt d (h.inv.counted.leaked d hd)
    exact hfiles.deleted d (hlt.trans_le henter.next) (henter.deleted d hlt (h.marked d hd))
  · rw [hcwd]
    change sys'.fs.Dir (update sys.cwd child (sys.cwd p) q)
    rw [update_apply]
    split
    · exact hdir p hp
    · next hne =>
      rw [hlive'] at hq
      change q ∈ e.survivors sys.fd at hq
      rw [hlive] at hq
      exact hdir q (Finset.mem_of_mem_insert_of_ne hq hne)

/-- The current directories without that of a process. -/
theorem cwds_erase (hp : p ∈ sys.fd.live) :
    sys.cwds = sys.cwd p ::ₘ (sys.fd.live.erase p).val.map sys.cwd := by
  rw [Sys.cwds, ← map_cons, Finset.erase_val, cons_erase hp]

section

variable (h : SysInv sys debt)
include h

theorem reap (hp : p ∈ sys.fd.live) :
    ∃ sys', sys.exec o (.reap p) = some sys' ∧ SysInv sys' debt := by
  have hheld : sys.held = named 0 + (sys.openOn + sys.cwds) := by
    rw [named_zero, zero_add]
    rfl
  obtain ⟨sys', hsys', hcounted, ⟨hcwd, hnode⟩, hlive, hfiles⟩ := files_carry (o := o)
    (e := .reap p) sys sys.cwds h.fd hp (fun r hr => (Fd.kept_freeTask h.fd.fresh hr).gained)
    (hheld ▸ h.inv) (hheld ▸ h.refs)
  have hlive : sys'.fd.live = sys.fd.live.erase p := hlive
  have hcwds : sys.cwds = sys.cwd p ::ₘ sys'.cwds := by
    rw [cwds_erase hp, Sys.cwds, hlive, hcwd]
  rw [hcwds, add_cons] at hfiles
  have hleave := hfiles.inv.leave_carry (o := o) hfiles.refs
  rw [← hcwd] at hleave
  refine ⟨_, congrArg (Option.map _) hsys', ?_⟩
  refine ⟨hcounted, hleave.inv, hleave.refs, fun d hd => ?_, hnode ▸ h.lent, fun q hq => ?_⟩
  · have hlt := h.inv.counted.lt d (h.inv.counted.leaked d hd)
    exact hleave.deleted d (hlt.trans_le hfiles.next) (hfiles.deleted d hlt (h.marked d hd))
  · have hmem : sys'.cwd q ∈ sys'.held := cwd_mem hq
    rw [hlive] at hq
    refine hleave.dir _ hmem (hfiles.dir _ (mem_cons_of_mem hmem) ?_)
    rw [hcwd]
    exact h.cwd q (Finset.mem_of_mem_erase hq)

theorem chdir (hp : p ∈ sys.fd.live) (path : Path) :
    ∃ sys', sys.exec o (.chdir p path) = some sys' ∧ SysInv sys' debt := by
  refine ⟨_, rfl, ?_⟩
  have hheld : sys.held =
      sys.cwd p ::ₘ (sys.openOn + (sys.fd.live.erase p).val.map sys.cwd) := by
    rw [Sys.held, cwds_erase hp, add_cons]
  have hinv := h.inv
  have hrefs := h.refs
  rw [hheld] at hinv hrefs
  obtain ⟨hcarry, hnew⟩ := (hinv.sysChdir (o := o) (h.good_cwd hp) path).carry hinv hrefs
  generalize hd : (sys.fs.sysChdir o (sys.cwd p) path).2.getD (sys.cwd p) = d at hcarry
  generalize hfs : (sys.fs.sysChdir o (sys.cwd p) path).1 = fs' at hcarry hnew
  have hcwds : sys.fd.live.val.map (update sys.cwd p d) =
      d ::ₘ (sys.fd.live.erase p).val.map sys.cwd := by
    rw [← cwds_insert (Finset.notMem_erase p _), Finset.insert_erase hp]
  have hheld' : ({ sys with fs := fs', cwd := update sys.cwd p d } : Sys β).held =
      d ::ₘ (sys.openOn + (sys.fd.live.erase p).val.map sys.cwd) := by
    rw [← add_cons, ← hcwds]
    rfl
  rw [← hheld'] at hcarry
  have hother : ∀ q ∈ sys.fd.live, q ≠ p → fs'.Dir (sys.cwd q) := by
    intro q hq hne
    refine hcarry.dir _ (hheld' ▸ mem_cons_of_mem (mem_add.mpr (.inr ?_)))
      (h.cwd q hq)
    exact mem_map_of_mem sys.cwd (Finset.mem_erase.mpr ⟨hne, hq⟩)
  refine ⟨h.fd, hcarry.inv, hcarry.refs, h.still_marked hcarry, h.lent, fun q hq => ?_⟩
  change fs'.Dir (update sys.cwd p d q)
  rw [update_apply]
  split
  · cases hres : (sys.fs.sysChdir o (sys.cwd p) path).2 with
    | none =>
      rw [hres, getD_none] at hd
      subst hd
      exact hcarry.dir _ (hheld' ▸ mem_cons_self _ _) (h.cwd p hp)
    | some d' =>
      rw [hres, getD_some] at hd
      subst hd
      exact hnew d' hres
  · next hne => exact hother q hq hne

/-- A file system has been mounted. -/
theorem grown {debt' : Debt} {node : Option Nat} {s t : Nat} (hinv : Inv fs' debt' sys.held)
    (hgrown : Grown sys.fs fs' sys.held s t) (hleaked : debt'.leaked = debt.leaked)
    (hlent : debt'.lent = node.toFinset) :
    SysInv { sys with fs := fs', rootNode := node } debt' where
  fd := h.fd
  inv := hinv
  refs := hgrown.refOk h.inv h.refs
  marked d hd := by
    rw [hleaked] at hd
    exact hgrown.deleted d (h.inv.counted.lt d (h.inv.counted.leaked d hd)) (h.marked d hd)
  lent := hlent
  cwd p hp := hgrown.dir _ (cwd_mem hp) (h.cwd p hp)

theorem mount (hp : p ∈ sys.fd.live) (devPath toPath : Path) :
    SysInv { sys with fs := (sys.fs.sysMount o (sys.cwd p) devPath toPath).1 } debt := by
  have hmount := h.inv.sysMount (o := o) (h.good_cwd hp) devPath toPath
  generalize sys.fs.sysMount o (sys.cwd p) devPath toPath = r at hmount
  cases hmount with
  | failed hdone => exact h.done hdone
  | mounted hinv hgrown hkept => exact h.grown hinv hgrown rfl h.lent

theorem vfsMount {q : Nat} {path : Path} (hallowed : (Call.vfsMount q path).Allowed sys) :
    ∃ sys' debt', sys.exec o (.vfsMount q path) = some sys' ∧ SysInv sys' debt' := by
  obtain ⟨hdevfs, hnone, dev, hmem, hdev, hblock⟩ := hallowed
  have hlent : debt.lent = ∅ := by rw [h.lent, hnone, toFinset_none]
  have hmount := h.inv.vfsMount (o := o) hdev hmem hblock (hlent ▸ Finset.notMem_empty dev) hdevfs
    path 0
  simp only [Sys.exec]
  generalize sys.fs.vfsMount o (some q) path 0 = r at hmount
  cases hmount with
  | failed hdone => exact ⟨_, debt, rfl, h.done hdone⟩
  | mounted hinv hgrown hkept =>
    refine ⟨_, _, rfl, h.grown hinv hgrown rfl ?_⟩
    rw [if_pos rfl, hdev, toFinset_some, Debt.lend, hlent]
    rfl

/-- A file system that is unmounted leaves its root behind. -/
theorem umount (path : Path) :
    ∃ debt', SysInv { sys with fs := (sys.fs.sysUmount o path).1 } debt' := by
  have humount := h.inv.sysUmount (o := o) h.marked (fun s hs => h.refs.unused hs) path
  generalize sys.fs.sysUmount o path = r at humount
  cases humount with
  | failed hdone => exact ⟨debt, h.done hdone⟩
  | @unmounted fs' s t r hinv hcut hnew hidle =>
    refine ⟨debt.leave r, h.fd, hinv, hcut.refOk h.inv h.refs, fun d hd => ?_, h.lent,
      fun q hq => hcut.dir _ (cwd_mem hq) (h.cwd q hq)⟩
    rcases Finset.mem_insert.mp hd with rfl | hd
    · exact hcut.marked
    · exact hcut.deleted d (h.inv.counted.lt d (h.inv.counted.leaked d hd)) (h.marked d hd)

theorem register {name : Name} {mode priv : Nat} {block : Bool}
    (hallowed : (Call.register name mode priv block).Allowed sys) :
    ∃ sys', sys.exec o (.register name mode priv block) = some sys' ∧ SysInv sys' debt := by
  refine ⟨_, rfl, h.done ?_⟩
  cases hroot : (sys.fs.sb devfsSb).root with
  | none => exact (Settled.refl h.inv).done h.inv
  | some root => exact h.inv.devfsRegister ⟨hallowed.1, hroot, hallowed.2⟩ name mode

/-- Every call returns and keeps the invariant. -/
theorem exec {call : Call} (hallowed : call.Allowed sys) (htame : call.Tame o sys) :
    ∃ sys' debt', sys.exec o call = some sys' ∧ SysInv sys' debt' := by
  have hsame : ∀ {res : Option (Sys β)}, (∃ sys', res = some sys' ∧ SysInv sys' debt) →
      ∃ sys' debt', res = some sys' ∧ SysInv sys' debt' :=
    fun ⟨sys', hsys', hinv⟩ => ⟨sys', debt, hsys', hinv⟩
  have hfresh := h.fd.fresh
  cases call with
  | spawn p child =>
    refine hsame (h.inherit hallowed.1 hallowed.2 hallowed.2 (fun r hr => ?_) rfl)
    cases hr
    exact .of_eq hfresh rfl rfl
  | fork p child =>
    refine hsame ?_
    by_cases hker : sys.fd.isKer p
    · exact ⟨sys, if_pos hker, h⟩
    · obtain ⟨sys', hsys', hinv⟩ := h.inherit (o := o) (e := .fork p child) hallowed.1 hallowed.2
        hallowed (fun r hr => Fd.kept_forkEnter hfresh hr) (if_neg hker)
      exact ⟨sys', (if_neg hker).trans hsys', hinv⟩
  | exit p => exact hsame ⟨sys, rfl, h⟩
  | reap p => exact hsame (h.reap hallowed)
  | «open» p path flags mode =>
    exact hsame (h.onFiles (h.sysOpen hallowed path flags mode) hallowed
      (fun r hr => (Fd.gained_sysOpen hfresh hr).1) rfl)
  | close p fd =>
    exact hsame (h.onFiles_kept named_zero hallowed
      (fun r hr => (Fd.kept_fdClose hfresh hr).gained) rfl)
  | pipe p =>
    obtain ⟨new, hnew, hgained⟩ := Fd.gained_sysPipe (p := p) pipeEnd pipeEnd hfresh
    refine hsame (h.onFiles_kept (show named new = 0 from ?_) hallowed (fun r hr => ?_) rfl)
    · refine eq_zero_of_forall_notMem fun d hd => ?_
      obtain ⟨x, hx, hxd⟩ := (mem_filterMap _ _).mp hd
      rcases hnew x hx with rfl | rfl <;> cases hxd
    · cases hr
      exact hgained
  | dup p fd =>
    exact hsame (h.onFiles_kept named_zero hallowed
      (fun r hr => (Fd.kept_sysDup hfresh hr).gained) rfl)
  | dup2 p oldfd newfd =>
    exact hsame (h.onFiles_kept named_zero hallowed
      (fun r hr => (Fd.kept_sysDup2 hfresh hr).gained) rfl)
  | execv p argsOk path executable =>
    refine hsame ?_
    cases argsOk with
    | true =>
      exact h.onFiles (h.sysOpen hallowed path 0 0) hallowed
        (fun r hr => (Fd.gained_sysExecv hfresh hr).1) rfl
    | false =>
      exact h.onFiles_kept (e := .execv p false none executable) named_zero hallowed
        (fun r hr => (Fd.gained_sysExecv hfresh hr).1) rfl
  | mkdir p path mode =>
    exact hsame ⟨_, rfl, h.done ((h.inv.sysMkdir (h.good_cwd hallowed) path mode).done h.inv)⟩
  | rmdir p path => exact hsame ⟨_, rfl, h.done (h.inv.sysRmdir (h.good_cwd hallowed) path)⟩
  | unlink p path =>
    exact hsame ⟨_, rfl, h.done (h.inv.sysUnlink (h.good_cwd hallowed) path htame)⟩
  | rename p oldpath newpath =>
    exact hsame ⟨_, rfl, h.done (h.inv.sysRename (h.good_cwd hallowed) oldpath newpath htame)⟩
  | truncate p path length =>
    exact hsame ⟨_, rfl, h.done
      ((h.inv.sysTruncate (h.good_cwd hallowed) path length).done h.inv)⟩
  | chdir p path => exact hsame (h.chdir hallowed path)
  | mount p devPath toPath => exact hsame ⟨_, rfl, h.mount hallowed devPath toPath⟩
  | vfsMount q path => exact h.vfsMount hallowed
  | umount p path =>
    obtain ⟨debt', hinv⟩ := h.umount (o := o) path
    exact ⟨_, debt', rfl, hinv⟩
  | cacheTask => exact hsame ⟨_, rfl, h.done h.inv.dentryCacheTask⟩
  | register name mode priv block => exact hsame (h.register hallowed)

end

end SysInv

end Osx64.Vfs
