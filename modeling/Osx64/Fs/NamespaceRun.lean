import Osx64.Fs.Namespace

/-!
# Runs of the name space

From the state that `init_vfs_mgr` leaves behind, any sequence of calls keeps the counts of the
dentries and of the super blocks.  `/mnt` and `/root`, which the kernel makes at the end of
`init_vfs_mgr`, the nodes of the devices and the file system that `mount_root` mounts come from the
first calls of a run.
-/

namespace Osx64.Vfs

open Finset Option Relation

variable {β : Type} {o : Backend β}

/-! ## The state after booting -/

/-- The dentries `/`, `/dev` and the root of devfs; `started` tasks have `/` as current
directory.  `/dev` has been unused for a moment and is still on the cache list. -/
def bootDentry (started : Nat) : Nat → Dentry
  | 0 => {
    name := [slash], inode := some 0, parent := none, children := [1], mountpoint := false,
    blockDev := false, charDev := false, deleted := false, mountedHere := none,
    inMnt := some rootSb, refcount := 3 + started, inCacheList := false }
  | 1 => {
    name := [100, 101, 118], inode := some 1, parent := some 0, children := [], mountpoint := true,
    blockDev := false, charDev := false, deleted := false, mountedHere := some devfsSb,
    inMnt := some rootSb, refcount := 1, inCacheList := true }
  | 2 => {
    name := [slash], inode := some 2, parent := none, children := [], mountpoint := false,
    blockDev := false, charDev := false, deleted := false, mountedHere := none,
    inMnt := some devfsSb, refcount := 1, inCacheList := false }
  | _ => default

/-- `FS_TYPE_RAMFS` -/
def fsTypeRamfs : Nat := 0x1001

/-- `FS_TYPE_DEVFS` -/
def fsTypeDevfs : Nat := 0x1002

/-- The three inodes, with the ramfs nodes of `/` and `/dev`. -/
def bootInode (rootNode devNode : Nat) : Nat → Inode
  | 0 => ⟨⟨0o040755, rootSb, rootNode⟩, 2, 1⟩
  | 1 => ⟨⟨0o040755, rootSb, devNode⟩, 1, 1⟩
  | 2 => ⟨⟨0o040555, devfsSb, 0⟩, 1, 1⟩
  | _ => default

def bootSb : Nat → SuperBlock
  | 0 => ⟨fsTypeRamfs, none, none, none⟩
  | 1 => ⟨fsTypeDevfs, some 2, some 1, none⟩
  | _ => default

/-- What is left open about the machine: the state of the file systems, the block devices (is it
a partition, and of which type) and the tasks that have been started. -/
structure Machine (β : Type) where
  backend : β
  rootNode : Nat
  devNode : Nat
  device : Nat → Bool × Nat
  started : Finset Nat

variable (machine : Machine β) {sys : Sys β}

def bootFs : Fs β where
  dentry := bootDentry machine.started.card
  next := 3
  freed := []
  inode := bootInode machine.rootNode machine.devNode
  nextInode := 3
  freedInodes := []
  sb := bootSb
  fsRef := fun s => if s = rootSb then 2 + machine.started.card else 0
  nextSb := 2
  part := fun q => ⟨(machine.device q).1, (machine.device q).2, none, none⟩
  mountList := [devfsSb]
  cacheList := [1]
  cacheNum := 1
  root := 0
  backend := machine.backend

/-- The kernel tasks have no open files. -/
def booted : Sys β where
  fs := bootFs machine
  fd := { Fd.initial with live := machine.started }
  cwd := fun _ => 0
  rootNode := none

theorem held_booted : (booted machine).held = Multiset.replicate machine.started.card 0 := by
  change named 0 + machine.started.val.map (fun _ => 0) = _
  rw [named_zero, zero_add, Multiset.map_const', card_val]

theorem dentries_boot : (bootFs machine).dentries = {0, 1, 2} := rfl

theorem mounted_boot : (bootFs machine).mounted = {0, 1} := rfl

theorem good_boot (d : Nat) : (bootFs machine).Good d ↔ d = 0 ∨ d = 1 ∨ d = 2 := by
  unfold Fs.Good Good
  rw [dentries_boot, mounted_boot]
  constructor
  · rintro ⟨hd, -⟩
    simpa using hd
  · rintro (rfl | rfl | rfl)
    · exact ⟨by decide, rfl, 0, by decide, rfl⟩
    · exact ⟨by decide, rfl, 0, by decide, rfl⟩
    · exact ⟨by decide, rfl, 1, by decide, rfl⟩

theorem pointers_boot (d : Nat) : pointers (bootFs machine) {0, 1, 2} {0, 1} d =
    if d ≤ 2 then 1 else 0 := by
  match d with
  | 0 => rfl
  | 1 => rfl
  | 2 => rfl
  | d + 3 =>
    have hdentry : ∀ x ∈ ({0, 1, 2} : Finset Nat),
        ((bootFs machine).dentry x).parent ≠ some (d + 3) := by
      simp [bootFs, bootDentry]
    have hsb : ∀ x ∈ ({0, 1} : Finset Nat), ((bootFs machine).sb x).mountpoint ≠ some (d + 3) ∧
        ((bootFs machine).sb x).root ≠ some (d + 3) ∧ ((bootFs machine).sb x).part = none := by
      simp [bootFs, bootSb]
    rw [if_neg (by omega), pointers, holders_eq_zero hdentry,
      holders_eq_zero fun x hx => (hsb x hx).1, holders_eq_zero fun x hx => (hsb x hx).2.1,
      holders_eq_zero fun x hx => by
        rw [(hsb x hx).2.2]
        rintro ⟨⟩]

theorem counted_boot : Counted (bootFs machine) {0, 1, 2} {0, 1} ∅ (booted machine).held := by
  rw [held_booted]
  refine ⟨fun d hd => ?_, fun d hd => ?_, fun d hd => ?_, fun d hd => ?_, fun d hd => ?_,
    fun d hd => ?_, List.nodup_nil, fun d hd => ?_,
      ⟨fun d hd => ?_, fun d hd => ?_, List.nodup_singleton 1, fun d hd hzero => ?_⟩⟩
  · simp only [mem_insert, mem_singleton] at hd
    change d < 3
    omega
  · rw [refs, pointers_boot, Multiset.count_replicate]
    simp only [mem_insert, mem_singleton] at hd
    rcases hd with rfl | rfl | rfl
    · change (3 + machine.started.card : Int) =
        ((1 + 2 + 0 + 0 + if 0 = 0 then machine.started.card else 0 : Nat) : Int)
      simp
    · rfl
    · rfl
  · rw [pointers_boot] at hd
    have hle : d ≤ 2 := by
      by_contra hlt
      exact hd (if_neg hlt)
    simp only [mem_insert, mem_singleton]
    omega
  · rw [Multiset.eq_of_mem_replicate hd]
    decide
  · exact absurd hd (notMem_empty d)
  · exact absurd hd (notMem_empty d)
  · cases hd
  · change d ∈ [1] ↔ _
    simp only [mem_insert, mem_singleton] at hd
    rcases hd with rfl | rfl | rfl <;> simp [bootFs, bootDentry]
  · rw [List.mem_singleton.mp hd]
    decide
  · simp only [mem_insert, mem_singleton] at hd
    rcases hd with rfl | rfl | rfl
    · change (3 + machine.started.card : Int) = 0 at hzero
      omega
    · cases hzero
    · cases hzero

theorem shape_boot : Shape (bootFs machine) {0, 1, 2} {0, 1} := by
  have hgood := good_boot machine
  unfold Fs.Good at hgood
  rw [dentries_boot, mounted_boot] at hgood
  have h0 := (hgood 0).mpr (.inl rfl)
  have h1 := (hgood 1).mpr (.inr (.inl rfl))
  have h2 := (hgood 2).mpr (.inr (.inr rfl))
  refine ⟨fun d hd => ?_, fun s hs hne => ?_, by decide, ⟨rfl, rfl, rfl⟩, h0, rfl, rfl,
    fun s hs => ?_, le_rfl⟩
  · rcases (hgood d).mp hd with rfl | rfl | rfl
    · refine ⟨fun p hp => (by cases hp), fun _ => .inl rfl, fun c hc => ?_, List.nodup_singleton 1,
        ⟨0, Nat.zero_lt_succ 2, rfl, rfl⟩, fun s hs => (by cases hs), rfl, fun hb => (by cases hb)⟩
      rw [List.mem_singleton.mp hc]
      exact ⟨h1, rfl, rfl⟩
    · refine ⟨fun p hp => ?_, fun htop => (by cases htop), fun c hc => (by cases hc),
        List.nodup_nil,
        ⟨1, Nat.one_lt_succ_succ 1, rfl, rfl⟩, fun s hs => ?_, rfl, fun hb => (by cases hb)⟩
      · cases hp
        exact ⟨h0, rfl, List.mem_singleton_self 1⟩
      · cases hs
        exact ⟨by decide, rfl⟩
    · exact ⟨fun p hp => (by cases hp), fun _ => .inr ⟨1, by decide, rfl⟩, fun c hc =>
        (by cases hc),
        List.nodup_nil, ⟨2, Nat.lt_succ_self 2, rfl, rfl⟩, fun s hs => (by cases hs), rfl,
        fun hb => (by cases hb)⟩
  · have hs : s = 1 := by
      simp only [mem_insert, mem_singleton] at hs
      exact hs.resolve_left hne
    subst hs
    exact ⟨2, 1, rfl, h2, rfl, rfl, rfl, h1, rfl, some_ne_none 0,
      (by decide : isDir 0o040755 = true), fun _ => rfl,
      fun q hq => (by cases hq), fun q hq => (by cases hq)⟩
  · simp only [mem_insert, mem_singleton] at hs
    change s < 2
    omega

theorem bound_boot : (bootFs machine).Bound := by
  intro d hd s hs
  rw [dentries_boot] at hd
  change s < 2
  simp only [mem_insert, mem_singleton] at hd
  rcases hd with rfl | rfl | rfl <;> cases hs <;> decide

theorem refOk_boot : RefOk (bootFs machine) (booted machine).held := by
  intro s hs
  rw [mounted_boot] at hs
  simp only [mem_insert, mem_singleton] at hs
  have hin : ∀ n, inFs (bootFs machine) (Multiset.replicate n 0) s =
      if s = rootSb then n else 0 := by
    intro n
    induction n with
    | zero => simp [inFs]
    | succ n ih =>
      rw [Multiset.replicate_succ, inFs_cons, ih]
      rcases hs with rfl | rfl <;> rfl
  rw [held_booted, hin]
  rcases hs with rfl | rfl
  · change (2 + machine.started.card : Int) = _
    rw [show mountsOn (bootFs machine) 0 = 1 from rfl]
    simp only [rootSb, if_true]
    omega
  · rfl

/-- The state after booting keeps the invariant. -/
theorem sysInv_booted : SysInv (booted machine) ∅ where
  fd := ⟨fun _ _ hfile => (by cases hfile), fun _ _ hslot => (by cases hslot), fun _ _ => rfl,
    fun f => by simp [booted, Fd.initial]⟩
  inv := ⟨counted_boot machine, shape_boot machine, bound_boot machine⟩
  refs := refOk_boot machine
  marked d hd := absurd hd (notMem_empty d)
  lent := rfl
  cwd _ _ := ⟨(good_boot machine 0).mpr (.inl rfl), (by decide : isDir 0o040755 = true)⟩

/-! ## Runs -/

theorem sysInv_of_run (h : ReflTransGen (Step o) (booted machine) sys) :
    ∃ debt, SysInv sys debt := by
  induction h with
  | refl => exact ⟨∅, sysInv_booted machine⟩
  | tail _ hstep ih =>
    obtain ⟨call, hallowed, htame, hexec⟩ := hstep
    obtain ⟨debt, hinv⟩ := ih
    obtain ⟨sys', debt', hsys', hinv'⟩ := hinv.exec hallowed htame
    cases hexec.symm.trans hsys'
    exact ⟨debt', hinv'⟩

/-! ## Runs of a list of calls -/

instance (sys : Sys β) : (call : Call) → Decidable (call.Allowed sys)
  | .spawn p child | .fork p child =>
    inferInstanceAs (Decidable (p ∈ sys.fd.live ∧ child ∉ sys.fd.live))
  | .exit p | .reap p | .open p _ _ _ | .close p _ | .pipe p | .dup p _ | .dup2 p _ _
  | .execv p _ _ _ | .mkdir p _ _ | .rmdir p _ | .unlink p _ | .rename p _ _ | .truncate p _ _
  | .chdir p _ | .mount p _ _ | .umount p _ => inferInstanceAs (Decidable (p ∈ sys.fd.live))
  | .vfsMount q _ => inferInstanceAs (Decidable (devfsSb ∈ sys.fs.mounted ∧ sys.rootNode = none ∧
      ∃ dev ∈ sys.fs.dentries, (sys.fs.part q).fsDentry = some dev ∧
        (sys.fs.dentry dev).blockDev = true))
  | .cacheTask => inferInstanceAs (Decidable True)
  | .register _ _ priv block => inferInstanceAs (Decidable (devfsSb ∈ sys.fs.mounted ∧
      (block = true → (sys.fs.part priv).fsDentry = none)))

/-- Calls that are tame in every state. -/
def Call.plain : Call → Bool
  | .rename .. | .unlink .. => false
  | _ => true

theorem Call.tame_of_plain {call : Call} (h : call.plain = true) :
    call.Tame o sys := by
  cases call with
  | rename p oldpath newpath => cases h
  | unlink p path => cases h
  | _ => trivial

/-- A call that is possible and tame, for runs of a list of calls. -/
def plainStep (o : Backend β) (sys : Sys β) (call : Call) : Option (Sys β) :=
  if call.Allowed sys ∧ call.plain = true then sys.exec o call else none

theorem steps_of_plain {sys sys' : Sys β} {calls : List Call}
    (h : runEvents (plainStep o) sys calls = some sys') :
    ReflTransGen (Step o) sys sys' := by
  refine ReflTransGen.mono (fun sys sys' hstep => ?_) _ _ (steps_of_runEvents h)
  obtain ⟨call, hcall⟩ := hstep
  obtain ⟨⟨hallowed, hplain⟩, hexec⟩ := ite_none_right_eq_some.mp hcall
  exact ⟨call, hallowed, Call.tame_of_plain hplain, hexec⟩

/-- File systems that find nothing and let everything be opened. -/
def bareOps : Backend Unit where
  readRootInode b _ _ := (b, none)
  putSuper b _ _ := b
  lookup b _ _ := (b, none)
  create b _ _ _ := (b, none)
  mkdir b _ _ _ := (b, none)
  unlink b _ _ _ := (b, false)
  rmdir b _ _ _ := (b, false)
  rename b _ _ _ _ _ := (b, false)
  setattr b _ _ := (b, false)
  delete b _ := b
  openFile b _ := (b, true)
  releaseFile b _ := b

/-- A machine on which one task has been started. -/
def oneTask : Machine Unit := ⟨(), 0, 0, fun _ => (false, 0), {0}⟩

/-- `"/dev"` -/
def devPath : Path := [47, 100, 101, 118]

/-! ## Uses of a file system -/

/-- The open files whose dentry is in a super block. -/
def filesIn (sys : Sys β) (s : Nat) : Nat := inFs sys.fs sys.openOn s

/-- The processes whose current directory is in a super block. -/
def cwdsIn (sys : Sys β) (s : Nat) : Nat := inFs sys.fs sys.cwds s

theorem inFs_held (sys : Sys β) (s : Nat) : inFs sys.fs sys.held s = filesIn sys s + cwdsIn sys s :=
  Multiset.countP_add ..

/-- `fs_ref` counts the uses of a file system, so `sys_umount` fails while there is one. -/
theorem fsRef_eq_uses {sys : Sys β} (h : Relation.ReflTransGen (Step o) (booted machine) sys) :
    (∀ s ∈ sys.fs.mounted, sys.fs.fsRef s =
      (filesIn sys s + cwdsIn sys s + mountsOn sys.fs s : Nat) + if s = rootSb then 1 else 0) ∧
    ∀ path, (sys.fs.sysUmount o path).2 = true →
      ∃ s ∈ sys.fs.mounted, (sys.fs.sysUmount o path).1.mounted = sys.fs.mounted.erase s ∧
        s ≠ rootSb ∧ filesIn sys s = 0 ∧ cwdsIn sys s = 0 ∧ mountsOn sys.fs s = 0 := by
  obtain ⟨debt, hinv⟩ := sysInv_of_run machine h
  have hcount : ∀ s ∈ sys.fs.mounted, sys.fs.fsRef s =
      (filesIn sys s + cwdsIn sys s + mountsOn sys.fs s : Nat) + if s = rootSb then 1 else 0 :=
    fun s hs => by rw [hinv.refs s hs, inFs_held]
  refine ⟨hcount, fun path hsuccess => ?_⟩
  have humount := hinv.inv.sysUmount (o := o) hinv.marked (fun s hs => hinv.refs.unused hs) path
  generalize sys.fs.sysUmount o path = r at humount hsuccess
  cases humount with
  | failed hdone => cases hsuccess
  | @unmounted fs' s t r hinv' hcut hnew hidle =>
    obtain ⟨hs, hne⟩ := hcut.live
    have hzero := hcount s hs
    rw [hidle, if_neg hne] at hzero
    exact ⟨s, hs, hcut.mounted, hne, by omega, by omega, by omega⟩

/-- What can be seen after some calls. -/
theorem booted_run {α : Type} (o : Backend β) (machine : Machine β) (calls : List Call)
    (view : Sys β → α) {x : α}
    (h : (runEvents (plainStep o) (booted machine) calls).map view = some x) :
    ∃ sys, Relation.ReflTransGen (Step o) (booted machine) sys ∧ view sys = x := by
  obtain ⟨sys, hrun, hview⟩ := map_eq_some_iff.mp h
  exact ⟨sys, steps_of_plain hrun, hview⟩

/-- A task goes to `/dev`, opens it, and makes another one. -/
theorem fsRef_eq_uses_dev : ∃ sys, Relation.ReflTransGen (Step bareOps) (booted oneTask) sys ∧
    filesIn sys devfsSb = 1 ∧ cwdsIn sys devfsSb = 2 ∧ sys.fs.fsRef devfsSb = 3 := by
  obtain ⟨sys, hsteps, hview⟩ := booted_run bareOps oneTask
    [.chdir 0 devPath, .open 0 devPath 0 0, .dup 0 0, .spawn 0 1]
    (fun sys => (filesIn sys devfsSb, cwdsIn sys devfsSb, mountsOn sys.fs devfsSb,
      decide (devfsSb ∈ sys.fs.mounted))) (x := (1, 2, 0, true)) (by decide +kernel)
  simp only [Prod.mk.injEq, decide_eq_true_eq] at hview
  obtain ⟨hfiles, hcwds, hmounts, hmem⟩ := hview
  have huse := (fsRef_eq_uses oneTask hsteps).1 devfsSb hmem
  rw [hfiles, hcwds, hmounts] at huse
  exact ⟨sys, hsteps, hfiles, hcwds, huse⟩

/-- What an open file, a current directory, a parent pointer, a mount point, a root or a mounted
device refers to is never freed. -/
theorem noDangling {sys : Sys β} (h : Relation.ReflTransGen (Step o) (booted machine) sys) :
    (∀ d ∈ sys.held, d ∉ sys.fs.freed) ∧
      ∀ d, pointers sys.fs sys.fs.dentries sys.fs.mounted d ≠ 0 → d ∉ sys.fs.freed := by
  obtain ⟨debt, hinv⟩ := sysInv_of_run machine h
  have hcounted := hinv.inv.counted
  exact ⟨fun d hd hfreed => (hcounted.freed d hfreed).1 (hcounted.held d hd),
    fun d hd hfreed => (hcounted.freed d hfreed).1 (hcounted.pointed d hd)⟩

theorem noDangling_dev : ∃ sys, Relation.ReflTransGen (Step bareOps) (booted oneTask) sys ∧
    2 ∈ sys.held ∧ 2 ∉ sys.fs.freed := by
  obtain ⟨sys, hsteps, hview⟩ :=
    booted_run bareOps oneTask [.chdir 0 devPath] (fun sys => decide (2 ∈ sys.held))
    (x := true) (by decide +kernel)
  have hmem := of_decide_eq_true hview
  exact ⟨sys, hsteps, hmem, (noDangling oneTask hsteps).1 2 hmem⟩

/-! ## References to a dentry -/

/-- A mount point, the root of a mounted file system, or the root of the name space. -/
def Joint (fs : Fs β) (d : Nat) : Prop :=
  (∃ s ∈ fs.mounted, (fs.sb s).mountpoint = some d) ∨
    (∃ s ∈ fs.mounted, (fs.sb s).root = some d) ∨ d = fs.root
deriving Decidable

/-- A device node. -/
def IsDevice (fs : Fs β) (d : Nat) : Prop :=
  (fs.dentry d).blockDev = true ∨ (fs.dentry d).charDev = true
deriving Decidable

/-- The mounted file systems on the device with this node. -/
def mountsOf (fs : Fs β) (d : Nat) : Nat :=
  holders fs.mounted (fun s => (fs.sb s).part.bind fun q => (fs.part q).fsDentry) d

/-- The references that a dentry should have; `vfs_mgr.root` is another one to `/`. -/
def owed (sys : Sys β) (d : Nat) : Nat :=
  holders sys.fs.dentries (fun x => (sys.fs.dentry x).parent) d + sys.openOn.count d +
    sys.cwds.count d + (if Joint sys.fs d then 1 else 0) + (if IsDevice sys.fs d then 1 else 0) +
    mountsOf sys.fs d + if d = sys.fs.root then 1 else 0

section Owed

variable {fs : Fs β} {debt : Debt} {held : Multiset Nat} {d s t : Nat}

theorem Inv.mounted_at (h : Inv fs debt held) (hs : s ∈ fs.mounted)
    (hd : (fs.sb s).mountpoint = some d) :
    (fs.dentry d).mountedHere = some s ∧ (fs.dentry d).parent ≠ none := by
  obtain ⟨r, hm⟩ := h.shape.mountedAt hs hd
  exact ⟨hm.here, hm.below⟩

theorem Inv.root_of (h : Inv fs debt held) (hs : s ∈ fs.mounted) (hd : (fs.sb s).root = some d) :
    (fs.dentry d).inMnt = some s ∧ (fs.dentry d).parent = none ∧ s ≠ rootSb := by
  by_cases hne : s = rootSb
  · rw [hne, h.shape.rootNone.1] at hd
    cases hd
  · obtain ⟨r, m, hm⟩ := h.shape.mounted s hs hne
    obtain rfl : r = d := some_inj.mp (hm.root.symm.trans hd)
    exact ⟨hm.rootIn, hm.rootTop, hne⟩

/-- A dentry is a mount point or a root, of one file system. -/
theorem Inv.joint (h : Inv fs debt held) (d : Nat) :
    holders fs.mounted (fun s => (fs.sb s).mountpoint) d +
      holders fs.mounted (fun s => (fs.sb s).root) d +
      (if d = fs.root then 1 else 0) = if Joint fs d then 1 else 0 := by
  have hpoint := holders_of_unique fs.mounted (fun s => (fs.sb s).mountpoint) d
    fun s hs t ht hsd htd => some_inj.mp
      ((h.mounted_at hs hsd).1.symm.trans (h.mounted_at ht htd).1)
  have hroot := holders_of_unique fs.mounted (fun s => (fs.sb s).root) d
    fun s hs t ht hsd htd => some_inj.mp ((h.root_of hs hsd).1.symm.trans (h.root_of ht htd).1)
  rw [hpoint, hroot]
  -- the three cases exclude each other
  by_cases hm : ∃ s ∈ fs.mounted, (fs.sb s).mountpoint = some d
  · obtain ⟨s, hs, hsd⟩ := hm
    have hbelow := (h.mounted_at hs hsd).2
    have hnot : ¬∃ s ∈ fs.mounted, (fs.sb s).root = some d := fun ⟨t, ht, htd⟩ =>
      hbelow (h.root_of ht htd).2.1
    have hne : d ≠ fs.root := by
      rintro rfl
      exact hbelow h.shape.rootTop
    rw [if_pos ⟨s, hs, hsd⟩, if_neg hnot, if_neg hne, if_pos (.inl ⟨s, hs, hsd⟩)]
  · rw [if_neg hm]
    by_cases hr : ∃ s ∈ fs.mounted, (fs.sb s).root = some d
    · have hne : d ≠ fs.root := by
        obtain ⟨s, hs, hsd⟩ := hr
        obtain ⟨hin, -, hother⟩ := h.root_of hs hsd
        rintro rfl
        rw [h.shape.rootIn, some_inj] at hin
        exact hother hin.symm
      rw [if_pos hr, if_neg hne, if_pos (.inr (.inl hr))]
    · rw [if_neg hr]
      by_cases htop : d = fs.root
      · rw [if_pos htop, if_pos (.inr (.inr htop))]
      · rw [if_neg htop, if_neg]
        rintro (hx | hx | hx)
        · exact hm hx
        · exact hr hx
        · exact htop hx

end Owed

/-- What a dentry is owed is its count, as long as it is not deleted.  The node of the partition
that `mount_root` has mounted has one reference fewer. -/
theorem SysInv.refcount_eq {debt : Debt} {d : Nat} (h : SysInv sys debt)
    (hd : d ∈ sys.fs.dentries) (hdeleted : (sys.fs.dentry d).deleted = false) :
    (sys.fs.dentry d).refcount + (if sys.rootNode = some d then 1 else 0) = owed sys d := by
  have hnot : d ∉ debt.leaked := by
    intro hmem
    rw [h.marked d hmem] at hdeleted
    cases hdeleted
  have hlent : d ∈ debt.lent ↔ sys.rootNode = some d := by
    rw [h.lent, Option.mem_toFinset, Option.mem_def]
  have hjoint := h.inv.joint d
  have hheld : sys.held.count d = sys.openOn.count d + sys.cwds.count d := Multiset.count_add ..
  have hdevice : (if IsDevice sys.fs d ∧ d ∉ debt.lent then 1 else 0) +
      (if sys.rootNode = some d then 1 else 0) = if IsDevice sys.fs d then 1 else 0 := by
    by_cases hmem : d ∈ debt.lent
    · have hisDevice : IsDevice sys.fs d := (h.inv.counted.lent d hmem).2
      rw [if_neg fun hown => hown.2 hmem, if_pos (hlent.mp hmem), if_pos hisDevice]
    · rw [if_neg (hlent.not.mp hmem), add_zero]
      exact if_congr (and_iff_left hmem) rfl rfl
  have htwice : (if d = sys.fs.root then 2 else 0) =
      (if d = sys.fs.root then 1 else 0) + if d = sys.fs.root then 1 else 0 := by
    split <;> rfl
  have hcount := h.inv.counted.count d hd
  have hrefs : Vfs.refs sys.fs sys.fs.dentries sys.fs.mounted debt d + sys.held.count d +
      (if sys.rootNode = some d then 1 else 0) = owed sys d := by
    rw [hheld, Vfs.refs, if_neg hnot, pointers, owed, mountsOf, ← hdevice, htwice, ← hjoint]
    change _ + (if IsDevice sys.fs d ∧ d ∉ debt.lent then 1 else 0) + _ + _ + _ = _
    omega
  rw [hcount, ← hrefs]
  split_ifs <;> rfl

/-- In a run in which renames and unlinks are tame, the counts are what the dentries are owed, but
for the node of the partition that `mount_root` has mounted, and no device is mounted twice.  A file
system that is unmounted still leaves its root allocated. -/
theorem refcount_eq_owed {sys : Sys β} (h : Relation.ReflTransGen (Step o) (booted machine) sys) :
    (∀ d ∈ sys.fs.dentries, (sys.fs.dentry d).deleted = false →
      (sys.fs.dentry d).refcount + (if sys.rootNode = some d then 1 else 0) = owed sys d) ∧
    (∀ s ∈ sys.fs.mounted, ∀ t ∈ sys.fs.mounted, ∀ q, (sys.fs.sb s).part = some q →
      (sys.fs.sb t).part = some q → s = t) ∧
    (∀ d ∈ sys.fs.dentries, (sys.fs.dentry d).refcount = 0 → sys.fs.cacheList.count d = 1) ∧
    sys.fs.freed.Nodup ∧
    ∀ path, (sys.fs.sysUmount o path).2 = true → ∃ s ∈ sys.fs.mounted, ∃ r,
      (sys.fs.sb s).root = some r ∧ (sys.fs.sysUmount o path).1.mounted = sys.fs.mounted.erase s ∧
        r ∉ (sys.fs.sysUmount o path).1.freed := by
  obtain ⟨debt, hinv⟩ := sysInv_of_run machine h
  have hcounted := hinv.inv.counted
  refine ⟨fun d hd hdeleted => hinv.refcount_eq hd hdeleted, fun s hs t ht q hsq htq => ?_,
    fun d hd hzero => ?_, hcounted.log, fun path hsuccess => ?_⟩
  · exact some_inj.mp ((hinv.inv.shape.owner s hs q hsq).symm.trans
      (hinv.inv.shape.owner t ht q htq))
  · exact List.count_eq_one_of_mem hcounted.cache.nodup (hcounted.cache.zero d hd hzero)
  · have humount := hinv.inv.sysUmount (o := o) hinv.marked (fun s hs => hinv.refs.unused hs) path
    generalize sys.fs.sysUmount o path = res at humount hsuccess
    cases humount with
    | failed hdone => cases hsuccess
    | @unmounted fs' s t r hinv' hcut hnew hidle =>
      have hmem := hinv'.counted.leaked r (mem_insert_self r debt.leaked)
      exact ⟨s, hcut.live.1, r, hcut.root, hcut.mounted, (Fs.mem_dentries.mp hmem).2⟩

/-- File systems that make directories and have a root. -/
def diskOps : Backend Unit := { bareOps with
  readRootInode := fun b _ _ => (b, some ⟨0o040755, 2, 1, 1⟩)
  mkdir := fun b _ _ mode => (b, some ⟨0o040000 + mode, 0, 1, 1⟩) }

/-- A machine with one task, on which every block device is a partition of type 0x83. -/
def oneDisk : Machine Unit := ⟨(), 0, 0, fun _ => (true, 0x83), {0}⟩

/-- `"/mnt"` -/
def mntPath : Path := [47, 109, 110, 116]

/-- `"/root"` -/
def rootPath : Path := [47, 114, 111, 111, 116]

/-- The end of `init_vfs_mgr`, the partitions `sda1` and `sda2`, and `mount_root`. -/
def bootCalls : List Call :=
  [.mkdir 0 mntPath 0o755, .mkdir 0 rootPath 0o755, .register [115, 100, 97, 49] 2 0 true,
    .register [115, 100, 97, 50] 2 1 true, .vfsMount 0 rootPath]

/-- A task goes to `/root`: the root of `sda1` has a reference of it, and one as a root. -/
theorem refcount_eq_owed_root : ∃ sys, Relation.ReflTransGen (Step diskOps) (booted oneDisk) sys ∧
    sys.rootNode = some 8 ∧ owed sys 11 = 2 ∧ (sys.fs.dentry 11).refcount = 2 := by
  obtain ⟨sys, hsteps, hview⟩ := booted_run diskOps oneDisk (bootCalls ++ [.chdir 0 rootPath])
    (fun sys => (sys.rootNode, owed sys 11, decide (11 ∈ sys.fs.dentries),
      (sys.fs.dentry 11).deleted)) (x := (some 8, 2, true, false)) (by decide +kernel)
  simp only [Prod.mk.injEq, decide_eq_true_eq] at hview
  obtain ⟨hroot, howed, hmem, hdeleted⟩ := hview
  have hcount := (refcount_eq_owed oneDisk hsteps).1 11 hmem hdeleted
  rw [hroot, howed, if_neg (by decide), add_zero] at hcount
  exact ⟨sys, hsteps, hroot, howed, hcount⟩

/-- After booting, the node of `sda1` has one of the two references that it is owed.
`mount("/dev/sda2", "/mnt")` and `umount("/mnt")` leave the root of `sda2` behind, with a reference
that nobody holds. -/
theorem unbalanced_after_boot : ∃ sys, Relation.ReflTransGen (Step diskOps) (booted oneDisk) sys ∧
    ((8 ∈ sys.fs.dentries ∧ (sys.fs.dentry 8).deleted = false) ∧ owed sys 8 = 2 ∧
      (sys.fs.dentry 8).refcount = 1) ∧
    (sys.fs.sb 3).root = some 12 ∧ (sys.fs.sysUmount diskOps mntPath).2 = true ∧
      12 ∈ (sys.fs.sysUmount diskOps mntPath).1.dentries ∧
      ((sys.fs.sysUmount diskOps mntPath).1.dentry 12).refcount = 1 := by
  obtain ⟨sys, hsteps, hview⟩ := booted_run diskOps oneDisk
    (bootCalls ++ [.mount 0 [47, 100, 101, 118, 47, 115, 100, 97, 50] mntPath])
    (fun sys => ((decide (8 ∈ sys.fs.dentries ∧ (sys.fs.dentry 8).deleted = false), owed sys 8,
      (sys.fs.dentry 8).refcount), (sys.fs.sb 3).root, (sys.fs.sysUmount diskOps mntPath).2,
      decide (12 ∈ (sys.fs.sysUmount diskOps mntPath).1.dentries),
      ((sys.fs.sysUmount diskOps mntPath).1.dentry 12).refcount))
    (x := ((true, 2, 1), some 12, true, true, 1)) (by decide +kernel)
  simp only [Prod.mk.injEq, decide_eq_true_eq] at hview
  exact ⟨sys, hsteps, hview⟩

end Osx64.Vfs
