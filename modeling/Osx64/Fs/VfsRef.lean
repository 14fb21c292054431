import Osx64.Fs.VfsUmount

/-!
# `fs_ref`

The count of a super block is the number of references that are held to dentries in it, by open
files and by processes, and the number of file systems mounted on its dentries.  The root has one
more.  `Carry` puts this together with the invariant of the name space, as what is known between
two states of the same references.
-/

namespace Osx64.Vfs

open Option Finset Multiset

variable {β : Type} {o : Backend β} {fs fs' fs'' : Fs β} {debt debt' : Debt}
  {held held' : Multiset Nat} {d r s t : Nat}

/-- The references that are held to dentries of a super block. -/
def inFs (fs : Fs β) (held : Multiset Nat) (s : Nat) : Nat :=
  held.countP fun d => (fs.dentry d).inMnt = some s

/-- The file systems mounted on dentries of a super block. -/
def mountsOn (fs : Fs β) (s : Nat) : Nat :=
  holders fs.mounted (fun t => (fs.sb t).mountpoint.bind fun m => (fs.dentry m).inMnt) s

def RefOk (fs : Fs β) (held : Multiset Nat) : Prop :=
  ∀ s ∈ fs.mounted, fs.fsRef s =
    (inFs fs held s + mountsOn fs s : Nat) + if s = rootSb then 1 else 0

theorem inFs_cons (d : Nat) :
    inFs fs (d ::ₘ held) s = inFs fs held s + if (fs.dentry d).inMnt = some s then 1 else 0 := by
  unfold inFs
  rw [countP_cons]

theorem addRef_apply (f : Nat → Int) (n : Int) (v : Option Nat) :
    addRef f n v s = f s + if v = some s then n else 0 := by
  cases v with
  | none => simp [addRef]
  | some t =>
    by_cases hst : s = t
    · simp [addRef, hst]
    · simp [addRef, hst, Ne.symm hst]

theorem inFs_congr (hinv : Inv fs debt held)
    (hin : ∀ d < fs.next, (fs'.dentry d).inMnt = (fs.dentry d).inMnt) (s : Nat) :
    inFs fs' held s = inFs fs held s := by
  refine countP_congr rfl fun d hd => ?_
  rw [hin d (hinv.counted.lt d (hinv.counted.held d hd))]

theorem Inv.point_lt (hinv : Inv fs debt held) {m : Nat} (ht : t ∈ fs.mounted)
    (hm : (fs.sb t).mountpoint = some m) : m < fs.next :=
  hinv.counted.lt m (hinv.mem_of_mountpoint ht hm)

section

variable (hinv : Inv fs debt held) (hin : ∀ d < fs.next, (fs'.dentry d).inMnt = (fs.dentry d).inMnt)
include hinv hin

/-- Where a file system is mounted does not change. -/
theorem mountsOn_place (ht : t ∈ fs.mounted)
    (hsb : fs'.sb t = fs.sb t) :
    ((fs'.sb t).mountpoint.bind fun m => (fs'.dentry m).inMnt) =
      (fs.sb t).mountpoint.bind fun m => (fs.dentry m).inMnt := by
  rw [hsb]
  cases hm : (fs.sb t).mountpoint with
  | none => rfl
  | some m => exact hin m (hinv.point_lt ht hm)

section

variable (hsb : ∀ t ∈ fs.mounted, fs'.sb t = fs.sb t) (hmounted : fs'.mounted = fs.mounted)
include hsb hmounted

theorem mountsOn_congr (s : Nat) :
    mountsOn fs' s = mountsOn fs s := by
  unfold mountsOn
  rw [hmounted]
  exact holders_congr fun t ht => mountsOn_place hinv hin ht (hsb t ht)

/-- References are taken and given back, and the counts follow. -/
theorem RefOk.shift (h : RefOk fs held)
    (hfsRef : ∀ s ∈ fs.mounted,
      fs'.fsRef s + inFs fs' held s = fs.fsRef s + inFs fs' held' s) : RefOk fs' held' := by
  intro s hs
  rw [hmounted] at hs
  have hcount := hfsRef s hs
  have hold := h s hs
  rw [inFs_congr hinv hin] at hcount
  rw [mountsOn_congr hinv hin hsb hmounted]
  push_cast at hold ⊢
  omega

end

end

/-- A file system without references is not in use. -/
theorem RefOk.unused (h : RefOk fs held) (hs : s ∈ fs.mounted) (hzero : fs.fsRef s = 0) :
    Unused fs held s := by
  have hsum := h s hs
  have hheld : inFs fs held s = 0 ∧ mountsOn fs s = 0 := by
    push_cast at hsum
    split at hsum <;> omega
  refine ⟨fun x hx hin => ?_, fun t ht m hm hin => ?_⟩
  · have hpos : 0 < inFs fs held s := countP_pos.mpr ⟨x, hx, hin⟩
    omega
  · have hpos : 0 < mountsOn fs s := holders_pos _ ht (by rw [hm]; exact hin)
    omega

/-! ## From one state to the next -/

structure Carry (fs fs' : Fs β) (debt : Debt) (held : Multiset Nat) : Prop where
  inv : Inv fs' debt held
  refs : RefOk fs' held
  dir : ∀ d ∈ held, fs.Dir d → fs'.Dir d
  deleted : ∀ d < fs.next, (fs.dentry d).deleted = true → (fs'.dentry d).deleted = true
  next : fs.next ≤ fs'.next

theorem Carry.refl (hinv : Inv fs debt held) (h : RefOk fs held) : Carry fs fs debt held :=
  ⟨hinv, h, fun _ _ hdir => hdir, fun _ _ hdel => hdel, le_rfl⟩

theorem Carry.trans (h : Carry fs fs' debt held) (h' : Carry fs' fs'' debt' held')
    (hsub : held' ≤ held) : Carry fs fs'' debt' held' where
  inv := h'.inv
  refs := h'.refs
  dir d hd hdir := h'.dir d hd (h.dir d (mem_of_le hsub hd) hdir)
  deleted d hd hdel := h'.deleted d (hd.trans_le h.next) (h.deleted d hd hdel)
  next := h.next.trans h'.next

theorem Done.carry (h : Done fs fs' debt held) (hinv : Inv fs debt held) (hrefs : RefOk fs held) :
    Carry fs fs' debt held where
  inv := h.inv
  refs := hrefs.shift hinv h.keeps.inMnt h.keeps.sb h.keeps.mounted fun s hs => by
    rw [h.fsRef s hs]
  dir := h.keeps.dir
  deleted := h.keeps.deleted
  next := h.keeps.next

/-- A call that takes and gives references to super blocks as it does to dentries. -/
theorem Moved.carry {f : Nat → Int} (h : Moved fs fs' f debt held') (hinv : Inv fs debt held)
    (hrefs : RefOk fs held) (hf : ∀ s, f s + inFs fs' held s = fs.fsRef s + inFs fs' held' s) :
    Carry fs fs' debt held' := by
  have hframe := h.settled.frame
  refine ⟨h.inv, hrefs.shift hinv hframe.inMnt (fun t _ => congrFun hframe.sb t) hframe.mounted
    fun s _ => ?_, fun d hd hdir => hframe.dir hinv hdir (h.inv.counted.held d hd),
    fun d hd hdel => (hframe.deleted d hd).trans hdel, hframe.next⟩
  rw [h.fsRef]
  exact hf s

theorem ChdirResult.carry {cwd : Nat} {res : Fs β × Option Nat}
    (h : ChdirResult fs cwd debt held res) (hinv : Inv fs debt (cwd ::ₘ held))
    (hrefs : RefOk fs (cwd ::ₘ held)) :
    Carry fs res.1 debt (res.2.getD cwd ::ₘ held) ∧ ∀ d, res.2 = some d → res.1.Dir d := by
  cases h with
  | failed hsettled =>
    exact ⟨(hsettled.done hinv).carry hinv hrefs, fun d hd => by cases hd⟩
  | changed hmoved hgood hdir =>
    refine ⟨hmoved.carry hinv hrefs fun s => ?_, fun d hd => ?_⟩
    · have hin := hmoved.settled.frame.inMnt cwd (hinv.counted.lt cwd hinv.mem_dentries)
      rw [inFs_cons, inFs_cons, addRef_apply, addRef_apply]
      rw [hin]
      split_ifs <;> omega
    · cases hd
      exact ⟨hgood, hdir⟩

theorem OpenResult.carry {res : Fs β × Option Opened} (h : OpenResult fs debt held res)
    (hinv : Inv fs debt held) (hrefs : RefOk fs held) :
    Carry fs res.1 debt ((res.2.bind Opened.dentry).elim held fun d => d ::ₘ held) := by
  cases h with
  | failed hsettled => exact (hsettled.done hinv).carry hinv hrefs
  | opened hmoved hgood =>
    refine hmoved.carry hinv hrefs fun s => ?_
    rw [inFs_cons, addRef_apply]
    split_ifs <;> omega

theorem Inv.close_carry (hinv : Inv fs debt (d ::ₘ held)) (hrefs : RefOk fs (d ::ₘ held))
    (i : Option Nat) : Carry fs (fs.vfsClose o ⟨some d, i⟩) debt held := by
  have hmoved := hinv.vfsClose (o := o) i
  refine hmoved.carry hinv hrefs fun s => ?_
  have hin := hmoved.settled.frame.inMnt d (hinv.counted.lt d hinv.mem_dentries)
  rw [inFs_cons, addRef_apply]
  rw [hin]
  split_ifs <;> omega

/-- A mount point is in a mounted file system. -/
theorem Inv.place_mounted (hinv : Inv fs debt held) {m : Nat} (ht : t ∈ fs.mounted)
    (hm : (fs.sb t).mountpoint = some m) (hin : (fs.dentry m).inMnt = some s) : s ∈ fs.mounted := by
  obtain ⟨r, hmounted⟩ := hinv.shape.mountedAt ht hm
  obtain ⟨u, hu, hin'⟩ := hmounted.mountpointGood.2.2
  rw [hin, some_inj] at hin'
  exact hin' ▸ hu

section

variable (hinv : Inv fs debt held) (hrefs : RefOk fs held)
include hinv hrefs

/-- A file system has been mounted; it is not in use. -/
theorem Grown.refOk (h : Grown fs fs' held s t) :
    RefOk fs' held := by
  obtain ⟨m, hpoint, hmin⟩ := h.mountpoint
  have hne : ∀ u ∈ fs.mounted, u ≠ s := fun u hu heq => h.new (heq ▸ hu)
  -- what is mounted on `u` before, and now the new file system as well
  have hmounts : ∀ u, mountsOn fs' u = mountsOn fs u + if t = u then 1 else 0 := by
    intro u
    unfold mountsOn
    rw [holders_eq_erase _ (h.mounted ▸ mem_insert_self s _), h.mounted,
      erase_insert h.new, hpoint, bind_some, hmin,
      holders_congr fun v hv => mountsOn_place hinv h.inMnt hv (h.sb v hv)]
    simp only [some_inj]
  intro u hu
  rw [h.mounted, mem_insert] at hu
  rw [inFs_congr hinv h.inMnt, hmounts]
  rcases hu with rfl | hu
  · have hheld : inFs fs held u = 0 := countP_eq_zero.mpr h.fresh
    have hother : mountsOn fs u = 0 := by
      refine holders_eq_zero fun v hv hin => ?_
      obtain ⟨m', hm', hin'⟩ := bind_eq_some_iff.mp hin
      exact h.new (hinv.place_mounted hv hm' hin')
    rw [h.zero, hheld, hother, if_neg (fun heq => hne t h.parent heq), if_neg]
    · rfl
    · rintro rfl
      exact h.new hinv.shape.rootLive
  · rw [h.fsRef u hu, hrefs u hu, show (if u = t then (1 : Int) else 0) = if t = u then 1 else 0 by
      simp only [eq_comm]]
    split_ifs <;> omega

/-- A file system has been unmounted, and was not in use. -/
theorem Cut.refOk (h : Cut fs fs' held s t r) :
    RefOk fs' held := by
  obtain ⟨m, -, hpoint, hmin⟩ := h.mountpoint
  have hmounts : ∀ u, mountsOn fs u = mountsOn fs' u + if t = u then 1 else 0 := by
    intro u
    unfold mountsOn
    rw [holders_eq_erase _ h.live.1, h.mounted, hpoint, bind_some, hmin,
      holders_congr fun v hv =>
        mountsOn_place hinv h.inMnt (mem_of_mem_erase hv)
          (h.sb v (mem_of_mem_erase hv) (ne_of_mem_erase hv))]
    simp only [some_inj]
  intro u hu
  rw [h.mounted] at hu
  have hold := hrefs u (mem_of_mem_erase hu)
  rw [hmounts] at hold
  rw [inFs_congr hinv h.inMnt, h.fsRef, hold, show (if u = t then (1 : Int) else 0) =
    if t = u then 1 else 0 by simp only [eq_comm]]
  split_ifs <;> omega

/-- `getin_cwd` -/
theorem Inv.enter_carry (hd : fs.Good d) :
    Carry fs ((fs.dentryGet d).sbGet (fs.dentry d).inMnt) debt (d ::ₘ held) := by
  obtain ⟨hget, -⟩ := (Settled.refl hinv).get hd
  rw [Fs.sbGet_eq]
  have hin : ((fs.dentryGet d).dentry d).inMnt = (fs.dentry d).inMnt := Fs.same_dentryGet.inMnt d
  refine (Moved.set hget _).carry hinv hrefs fun s => ?_
  rw [inFs_cons, addRef_apply]
  rw [hin]
  have : (fs.dentryGet d).fsRef = fs.fsRef := rfl
  rw [this]
  split_ifs <;> omega

end

/-- The end of `free_task`. -/
theorem Inv.leave_carry (hinv : Inv fs debt (d ::ₘ held)) (hrefs : RefOk fs (d ::ₘ held)) :
    Carry fs ((fs.sbPut (fs.dentry d).inMnt).dentryPut o d) debt held := by
  rw [Fs.sbPut_eq]
  have hmoved := (Moved.set (Settled.refl hinv) (addRef fs.fsRef (-1) (fs.dentry d).inMnt)).put
    (o := o)
  have hin := hmoved.settled.frame.inMnt d (hinv.counted.lt d hinv.mem_dentries)
  refine hmoved.carry hinv hrefs fun s => ?_
  rw [inFs_cons, addRef_apply]
  rw [hin]
  split_ifs <;> omega

end Osx64.Vfs
