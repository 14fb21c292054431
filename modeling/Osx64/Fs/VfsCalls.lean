import Osx64.Fs.VfsWalk

/-!
# The calls keep the invariant

Each call is followed from the state it begins in: `Settled` says that the invariant holds
again with the given references and that old dentries have kept their file system and inode.
The references are a stack on top of those of files and current directories, in the order in
which the calls give them back.
-/

namespace Osx64.Vfs

open Vfs.Fs

variable {β : Type} {o : Backend β} {fs fs' fs'' : Fs β} {debt : Debt}
  {held : Multiset Nat} {d p start cwd : Nat} {name : Name} {path : Path}

/-! ## Following a call -/

structure Settled (fs fs' : Fs β) (debt : Debt) (held : Multiset Nat) : Prop where
  frame : Frame fs fs'
  inv : Inv fs' debt held

namespace Settled

theorem refl (h : Inv fs debt held) : Settled fs fs debt held := ⟨.refl fs, h⟩

theorem get (h : Settled fs fs' debt held) (hd : fs'.Good d) :
    Settled fs (fs'.dentryGet d) debt (d ::ₘ held) ∧ (fs'.dentryGet d).Good d := by
  have hget := h.inv.arrives_dentryGet hd
  exact ⟨⟨h.frame.trans hget.frame, hget.inv⟩, hget.good d rfl⟩

theorem put (h : Settled fs fs' debt (d ::ₘ held)) :
    Settled fs (fs'.dentryPut o d) debt held := by
  obtain ⟨hput, hsame⟩ := h.inv.dentryPut (o := o)
  exact ⟨h.frame.trans (.of_same hsame), hput⟩

section

variable (h : Settled fs fs' debt held)
include h

theorem backend (b : β) :
    Settled fs { fs' with backend := b } debt held := by
  have hsame : Same fs' { fs' with backend := b } :=
    ⟨fun _ => rfl, fun _ => rfl, rfl, rfl, rfl, rfl, rfl, rfl, rfl, rfl⟩
  exact ⟨h.frame.trans (.of_same hsame), h.inv.congr hsame rfl rfl rfl⟩

/-- A dentry that is held is still in the tree. -/
theorem good (hd : fs.Good d) (hheld : d ∈ held) : fs'.Good d :=
  h.frame.good hd (h.inv.counted.held d hheld)

/-- The outcome of a search, as a state that goes on. -/
theorem arrives {r : Fs β × Option Nat}
    (hr : Arrives fs' debt held r) :
    Settled fs r.1 debt (r.2.elim held fun d => d ::ₘ held) :=
  ⟨h.frame.trans hr.frame, hr.inv⟩

theorem skip (hskip : Skipped fs' fs'') :
    Settled fs fs'' debt held :=
  ⟨h.frame.trans hskip.frame, h.inv.skip hskip⟩

end

end Settled

theorem Inv.startOf (h : Inv fs debt held) (hcwd : fs.Good cwd) (path : Path) :
    fs.Good (fs.startOf cwd path) := by
  unfold Fs.startOf
  split
  · exact h.shape.rootGood
  · exact hcwd

/-- The beginning of most calls: a reference to the start, and a lookup. -/
theorem Inv.begin (h : Inv fs debt held) (hcwd : fs.Good cwd) (path : Path) :
    ∀ r, (fs.dentryGet (fs.startOf cwd path)).lookupLocked o (some (fs.startOf cwd path)) path =
        r →
      Settled fs r.1 debt (r.2.elim (fs.startOf cwd path ::ₘ held) fun d =>
        d ::ₘ fs.startOf cwd path ::ₘ held) ∧
      r.1.Good (fs.startOf cwd path) ∧
      ∀ d, r.2 = some d → r.1.Good d ∧ (r.1.dentry d).mountpoint = false := by
  rintro r rfl
  have hgood := h.startOf hcwd path
  obtain ⟨hstart, hgood'⟩ := (Settled.refl h).get hgood
  obtain ⟨harrives, hpoint⟩ := hstart.inv.lookupLocked (o := o)
    (some (fs.startOf cwd path)) (fun d hd => by cases hd; exact hgood') path
  have hsettled := hstart.arrives harrives
  refine ⟨hsettled, hsettled.good hgood ?_, fun d hd => ⟨harrives.good d hd, hpoint d hd⟩⟩
  generalize ((fs.dentryGet (fs.startOf cwd path)).lookupLocked o _ path).2 = found
  cases found with
  | none => exact Multiset.mem_cons_self _ _
  | some d => exact Multiset.mem_cons_of_mem (Multiset.mem_cons_self _ _)

/-! ## New dentries -/

section

attribute [local simp] dentrySetParent listAddTail setParent dentryGet setInMnt
  setInode dentryCreate

/-- A new file that the file system refuses. -/
theorem skipped_createIn (s : Option Nat) (b : β) : Skipped fs
    (({ (fs.dentryCreate name none).setInMnt fs.next s with backend := b }).dentryDelete o
      fs.next) := by
  refine skipped_dentryDelete (x := ((fs.dentryCreate name none).setInMnt fs.next s).dentry fs.next)
    rfl ?_ ?_ ?_ ?_ ⟨fun y hy => ?_, rfl, rfl, rfl, rfl, rfl, rfl, rfl, rfl, rfl, rfl, rfl⟩
  · simp
  · simp
  · simp
  · simp
  · simp [hy]

variable (name) in
/-- The new dentry of `sys_mkdir`. -/
theorem hung_mkdir (hp : p ≠ fs.next) (b : β) (new : NewInode) :
    Hung fs ((setInMnt (({ fs.dentryCreate name none with backend := b }).setInode fs.next
      (fs.inodeOf p).sb new) fs.next ((({ fs.dentryCreate name none with backend := b }).setInode
        fs.next (fs.inodeOf p).sb new).dentry p).inMnt).dentrySetParent p fs.next) p name new := by
  refine ⟨?_, ?_, fun y hy hyp => ?_, rfl, rfl, rfl, rfl, rfl, rfl, rfl, rfl, rfl, rfl, rfl⟩
  · simp [hp, Ne.symm hp]
  · simp [hp]
  · simp [hy, hyp]

variable (name) in
/-- The new dentry of `vfs_open`. -/
theorem hung_create (hp : p ≠ fs.next) (b : β) (new : NewInode) :
    Hung fs ((setInode { (fs.dentryCreate name none).setInMnt fs.next
      ((fs.dentryCreate name none).dentry p).inMnt with backend := b } fs.next
        (fs.inodeOf p).sb new).dentrySetParent p fs.next) p name new := by
  refine ⟨?_, ?_, fun y hy hyp => ?_, rfl, rfl, rfl, rfl, rfl, rfl, rfl, rfl, rfl, rfl, rfl⟩
  · simp [hp, Ne.symm hp]
    rfl
  · simp [hp]
  · simp [hy, hyp]

end

/-! ## `sys_mkdir`, `sys_truncate` and `sys_chdir` -/

theorem Inv.sysMkdir (h : Inv fs debt held) (hcwd : fs.Good cwd) (path : Path) (mode : Nat) :
    Settled fs (fs.sysMkdir o cwd path mode).1 debt held := by
  unfold Fs.sysMkdir
  split
  · exact .refl h
  dsimp only
  split
  · next fs₁ d hlookup =>
    exact ((h.begin hcwd path _ hlookup).1.put (o := o)).put
  · next fs₁ hlookup =>
    obtain ⟨hsettled, hstart, -⟩ := h.begin hcwd path _ hlookup
    split
    · exact hsettled.put
    · next dir name hsplit =>
      split
      · exact hsettled.put
      have harrives := hsettled.inv.lookupDir (o := o) hstart dir
      have hsettled' := hsettled.arrives harrives
      split
      · next fs₂ hdir =>
        rw [hdir] at hsettled'
        exact hsettled'.put
      · next fs₂ parent hdir =>
        rw [hdir] at hsettled' harrives
        have hparent := harrives.good parent rfl
        split
        · exact (hsettled'.put (o := o)).put
        split
        · next b hmkdir =>
          exact ((hsettled'.skip (skipped_create name b)).put (o := o)).put
        · next b new hmkdir =>
          have hhang := hsettled'.inv.hang hparent
            (hung_mkdir name (ne_next_of_good hparent) b new)
          exact (((hsettled'.arrives hhang).put (o := o)).put (o := o)).put

theorem Inv.sysTruncate (h : Inv fs debt held) (hcwd : fs.Good cwd) (path : Path)
    (length : Int) : Settled fs (fs.sysTruncate o cwd path length).1 debt held := by
  unfold Fs.sysTruncate
  split
  · exact .refl h
  dsimp only
  split
  · next fs₁ hlookup => exact (h.begin hcwd path _ hlookup).1.put
  · next fs₁ d hlookup =>
    obtain ⟨hsettled, -, -⟩ := h.begin hcwd path _ hlookup
    split
    · exact (hsettled.put (o := o)).put
    · exact ((hsettled.backend _).put (o := o)).put

/-! ## Calls that change `fs_ref` -/

theorem Inv.setFsRef (h : Inv fs debt held) (f : Nat → Int) :
    Inv { fs with fsRef := f } debt held where
  counted := { h.counted with cache := { h.counted.cache with } }
  shape := h.shape.agree ⟨fun _ => Iff.rfl, fun _ _ => rfl, fun _ _ => rfl, le_rfl, fun _ _ => rfl,
    le_rfl, fun _ => rfl, rfl, fun _ _ _ _ => rfl⟩
  bound := h.bound

/-- As `Settled`, but the counts of the super blocks are now `f`. -/
structure Moved (fs fs' : Fs β) (f : Nat → Int) (debt : Debt) (held : Multiset Nat) :
    Prop where
  settled : Settled fs { fs' with fsRef := fs.fsRef } debt held
  fsRef : fs'.fsRef = f

namespace Moved

variable {f : Nat → Int}

theorem inv (h : Moved fs fs' f debt held) : Inv fs' debt held :=
  h.settled.inv.setFsRef fs'.fsRef

theorem set (h : Settled fs fs' debt held) (f : Nat → Int) :
    Moved fs { fs' with fsRef := f } f debt held :=
  ⟨⟨{ h.frame with fsRef := rfl }, h.inv.setFsRef fs.fsRef⟩, rfl⟩

/-- Counts of dentries and inodes change afterwards. -/
theorem same {held' : Multiset Nat} (h : Moved fs fs' f debt held) (hsame : Same fs' fs'')
    (hinv : Inv fs'' debt held') : Moved fs fs'' f debt held' := by
  have hframe := h.settled.frame
  refine ⟨⟨⟨hsame.next ▸ hframe.next, hsame.nextInode ▸ hframe.nextInode, fun d hd => ?_,
    fun d hd => ?_, fun d hd => ?_, fun d hd => ?_, fun i hi => ?_, hsame.sb.trans hframe.sb,
    hsame.nextSb.trans hframe.nextSb, hsame.part.trans hframe.part,
    hsame.mountList.trans hframe.mountList, hsame.root.trans hframe.root, rfl⟩,
    hinv.setFsRef _⟩, hsame.fsRef.trans h.fsRef⟩
  · exact (hsame.deleted d).trans (hframe.deleted d hd)
  · exact (hsame.inMnt d).trans (hframe.inMnt d hd)
  · exact (congrArg Link.inode (hsame.link d)).trans (hframe.inode d hd)
  · exact (hsame.blockDev d).trans (hframe.blockDev d hd)
  · exact (hsame.attr i).trans (hframe.attr i hi)

theorem put (h : Moved fs fs' f debt (d ::ₘ held)) :
    Moved fs (fs'.dentryPut o d) f debt held := by
  obtain ⟨hput, hsame⟩ := h.inv.dentryPut (o := o)
  exact h.same hsame hput

end Moved

/-- The count with one reference more, or one less, to the super block. -/
def addRef (f : Nat → Int) (n : Int) : Option Nat → Nat → Int
  | none => f
  | some s => Function.update f s (f s + n)

theorem Fs.sbGet_eq (s : Option Nat) : fs.sbGet s = { fs with fsRef := addRef fs.fsRef 1 s } := by
  cases s <;> rfl

theorem Fs.sbPut_eq (s : Option Nat) :
    fs.sbPut s = { fs with fsRef := addRef fs.fsRef (-1) s } := by
  cases s <;> rfl

/-- The two outcomes of `sys_chdir`. -/
inductive ChdirResult (fs : Fs β) (cwd : Nat) (debt : Debt) (held : Multiset Nat) :
    Fs β × Option Nat → Prop
  | failed {fs' : Fs β} (settled : Settled fs fs' debt (cwd ::ₘ held)) :
      ChdirResult fs cwd debt held (fs', none)
  | changed {fs' : Fs β} {d : Nat}
      (moved : Moved fs fs' (addRef (addRef fs.fsRef 1 (fs'.dentry d).inMnt) (-1)
        (fs.dentry cwd).inMnt) debt (d ::ₘ held))
      (good : fs'.Good d) (dir : isDir (fs'.inodeOf d).mode = true) :
      ChdirResult fs cwd debt held (fs', some d)

theorem Inv.sysChdir (h : Inv fs debt (cwd ::ₘ held)) (hcwd : fs.Good cwd) (path : Path) :
    ChdirResult fs cwd debt held (fs.sysChdir o cwd path) := by
  obtain ⟨harrives, -⟩ := h.lookupLocked (o := o) (some cwd)
    (fun d hd => by cases hd; exact hcwd) path
  have hsettled := (Settled.refl h).arrives harrives
  unfold Fs.sysChdir
  split
  · next fs₁ hlookup =>
    rw [hlookup] at hsettled
    exact .failed hsettled
  · next fs₁ d hlookup =>
    rw [hlookup] at hsettled harrives
    have hd := harrives.good d rfl
    split
    · exact .failed hsettled.put
    · next hdir =>
      rw [sbGet_eq, sbPut_eq]
      generalize hf : addRef (addRef fs₁.fsRef 1 (fs₁.dentry d).inMnt) (-1)
        (fs₁.dentry cwd).inMnt = f
      have hmoved := Moved.set hsettled f
      have hgood : ({ fs₁ with fsRef := f }).Good d := hd
      obtain ⟨hput, hsame, hd'⟩ := Inv.put_second (o := o) hmoved.inv hgood
      refine .changed ?_ hd' ?_
      · have hin := hsettled.frame.inMnt cwd (h.counted.lt cwd h.mem_dentries)
        rw [hsame.inMnt, ← hin, ← hsettled.frame.fsRef, hf]
        exact hmoved.same hsame hput
      · rw [hsame.inodeOf]
        exact Bool.eq_true_of_not_eq_false hdir

/-! ## Open and close -/

/-- The two outcomes of `vfs_open`. -/
inductive OpenResult (fs : Fs β) (debt : Debt) (held : Multiset Nat) :
    Fs β × Option Opened → Prop
  | failed {fs' : Fs β} (settled : Settled fs fs' debt held) :
      OpenResult fs debt held (fs', none)
  | opened {fs' : Fs β} {d : Nat} {i : Option Nat}
      (moved : Moved fs fs' (addRef fs.fsRef 1 (fs'.dentry d).inMnt) debt (d ::ₘ held))
      (good : fs'.Good d) : OpenResult fs debt held (fs', some ⟨some d, i⟩)

theorem Settled.openFound (h : Settled fs fs' debt (d ::ₘ held)) (hd : fs'.Good d) :
    OpenResult fs debt held (fs'.openFound o d) := by
  unfold Fs.openFound
  split
  · exact .failed (h.backend _).put
  · next b hopen =>
    obtain ⟨i, -, hinode, -⟩ := (h.inv.shape.linked d hd).inode
    dsimp only
    rw [hinode, Option.elim_some, sbGet_eq]
    have hsame : Same fs' (inodeGet { fs' with backend := b } i) := by
      have hget : Same fs' (fs'.modifyInode i fun x => { x with refcount := x.refcount + 1 }) :=
        same_modifyInode rfl
      exact ⟨hget.link, hget.attr, rfl, rfl, rfl, rfl, rfl, rfl, rfl, rfl⟩
    have hget : Settled fs (inodeGet { fs' with backend := b } i) debt (d ::ₘ held) :=
      ⟨h.frame.trans (.of_same hsame), h.inv.congr hsame rfl rfl rfl⟩
    refine .opened ?_ hd
    rw [← hget.frame.fsRef]
    exact Moved.set hget _

theorem Settled.openCreate {mode : Nat} (h : Settled fs fs' debt (p ::ₘ held)) (hp : fs'.Good p) :
    OpenResult fs debt held (fs'.openCreate o p name mode) := by
  unfold Fs.openCreate
  split
  · exact .failed h.put
  split
  · exact .failed h.put
  dsimp only
  split
  · next b hcreate => exact .failed (h.skip (skipped_createIn _ b)).put
  · next b new hcreate =>
    have hhang := h.inv.hang hp (hung_create name (ne_next_of_good hp) b new)
    have hsettled := h.arrives hhang
    obtain ⟨hput, hsame, hgood⟩ := Inv.put_second (o := o) hsettled.inv (hhang.good _ rfl)
    have hnext : Settled fs _ debt _ := ⟨hsettled.frame.trans (.of_same hsame), hput⟩
    exact hnext.openFound hgood

theorem Inv.vfsOpen (h : Inv fs debt held) (hcwd : fs.Good cwd) (path : Path)
    (flags mode : Nat) : OpenResult fs debt held (fs.vfsOpen o cwd path flags mode) := by
  unfold Fs.vfsOpen
  split
  · exact .failed (.refl h)
  dsimp only
  split
  · next fs₁ d hlookup =>
    obtain ⟨hsettled, -, hfound⟩ := h.begin hcwd path _ hlookup
    split
    · exact .failed (hsettled.put (o := o)).put
    · obtain ⟨hput, hsame, hgood⟩ := Inv.put_second (o := o) hsettled.inv (hfound d rfl).1
      have hnext : Settled fs _ debt _ := ⟨hsettled.frame.trans (.of_same hsame), hput⟩
      exact hnext.openFound hgood
  · next fs₁ hlookup =>
    obtain ⟨hsettled, hstart, -⟩ := h.begin hcwd path _ hlookup
    split
    · exact .failed hsettled.put
    split
    · exact .failed hsettled.put
    · next dir name hsplit =>
      split
      · exact hsettled.openCreate hstart
      obtain ⟨harrives, -⟩ := hsettled.inv.lookupLocked (o := o)
        (some (fs.startOf cwd path)) (fun d hd => by cases hd; exact hstart) dir
      have hsettled' := hsettled.arrives harrives
      split
      · next fs₂ hdir =>
        rw [hdir] at hsettled'
        exact .failed hsettled'.put
      · next fs₂ parent hdir =>
        rw [hdir] at hsettled' harrives
        obtain ⟨hput, hsame, hgood⟩ :=
          Inv.put_second (o := o) hsettled'.inv (harrives.good parent rfl)
        have hnext : Settled fs _ debt _ := ⟨hsettled'.frame.trans (.of_same hsame), hput⟩
        exact hnext.openCreate hgood

/-- The last close of a file gives its references back. -/
theorem Inv.vfsClose (h : Inv fs debt (d ::ₘ held)) (i : Option Nat) :
    Moved fs (fs.vfsClose o ⟨some d, i⟩) (addRef fs.fsRef (-1) (fs.dentry d).inMnt) debt
      held := by
  unfold Fs.vfsClose
  dsimp only
  rw [sbPut_eq]
  have hput : Settled fs (i.elim fs fun i =>
      (Fs.inodePut o { fs with backend := o.releaseFile fs.backend (fs.inode i).toAttr } i))
      debt (d ::ₘ held) := by
    cases i with
    | none => exact .refl h
    | some i =>
      have hrelease := (Settled.refl h).backend (o.releaseFile fs.backend (fs.inode i).toAttr)
      exact ⟨hrelease.frame.trans (.of_same same_inodePut), hrelease.inv.inodePut i⟩
  have hclosed := hput.put (o := o)
  rw [hclosed.frame.fsRef]
  exact Moved.set hclosed _

end Osx64.Vfs
