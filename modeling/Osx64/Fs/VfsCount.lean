import Osx64.Fs.Vfs
import Osx64.Lib.Holders

/-!
# Reference counts of dentries

The count of a dentry is the number of pointers to it: the parent pointers of other dentries,
the pointers of super blocks and block devices, and the references in `held`, which are those
of open files, current directories and calls in progress.  `Counted` says so for a set `dom` of
dentries and a set `live` of super blocks.  `dentry_put` gives one reference up; it may free
the dentry and, going up the tree, other deleted dentries whose last reference that was.
-/

namespace Osx64.Vfs

open Finset Function Vfs.Fs

variable {β : Type} {o : Backend β}

/-! ## What a function leaves alone -/

/-- Only counts, the cache list and the state of the file systems differ. -/
structure Same (fs fs' : Fs β) : Prop where
  link : ∀ d, (fs'.dentry d).toLink = (fs.dentry d).toLink
  attr : ∀ i, (fs'.inode i).toAttr = (fs.inode i).toAttr
  next : fs'.next = fs.next
  nextInode : fs'.nextInode = fs.nextInode
  sb : fs'.sb = fs.sb
  nextSb : fs'.nextSb = fs.nextSb
  part : fs'.part = fs.part
  mountList : fs'.mountList = fs.mountList
  root : fs'.root = fs.root
  fsRef : fs'.fsRef = fs.fsRef

namespace Same

variable {fs fs' fs'' : Fs β}

theorem refl (fs : Fs β) : Same fs fs :=
  ⟨fun _ => rfl, fun _ => rfl, rfl, rfl, rfl, rfl, rfl, rfl, rfl, rfl⟩

theorem trans (h : Same fs fs') (h' : Same fs' fs'') : Same fs fs'' where
  link d := (h'.link d).trans (h.link d)
  attr i := (h'.attr i).trans (h.attr i)
  next := h'.next.trans h.next
  nextInode := h'.nextInode.trans h.nextInode
  sb := h'.sb.trans h.sb
  nextSb := h'.nextSb.trans h.nextSb
  part := h'.part.trans h.part
  mountList := h'.mountList.trans h.mountList
  root := h'.root.trans h.root
  fsRef := h'.fsRef.trans h.fsRef

/-- The cache list and what has been freed do not matter. -/
theorem aside (h : Same fs fs') {freed freedInodes list : List Nat} {num : Int} {b : β} :
    Same fs { fs' with
      freed := freed, freedInodes := freedInodes, cacheList := list, cacheNum := num,
      backend := b } :=
  ⟨h.link, h.attr, h.next, h.nextInode, h.sb, h.nextSb, h.part, h.mountList, h.root, h.fsRef⟩

section

variable (h : Same fs fs') (d : Nat)
include h d

theorem parent : (fs'.dentry d).parent = (fs.dentry d).parent :=
  congrArg Link.parent (h.link d)

theorem deleted : (fs'.dentry d).deleted = (fs.dentry d).deleted :=
  congrArg Link.deleted (h.link d)

theorem inMnt : (fs'.dentry d).inMnt = (fs.dentry d).inMnt :=
  congrArg Link.inMnt (h.link d)

theorem blockDev : (fs'.dentry d).blockDev = (fs.dentry d).blockDev :=
  congrArg Link.blockDev (h.link d)

theorem charDev : (fs'.dentry d).charDev = (fs.dentry d).charDev :=
  congrArg Link.charDev (h.link d)

end

end Same

namespace Fs

variable {fs : Fs β} {d x i : Nat}

@[simp]
theorem dentry_modify (f : Dentry → Dentry) :
    (fs.modify d f).dentry x = if x = d then f (fs.dentry d) else fs.dentry x :=
  update_apply ..

/-- A change of a count or of the cache flag. -/
theorem same_modify {f : Dentry → Dentry} (hf : (f (fs.dentry d)).toLink = (fs.dentry d).toLink) :
    Same fs (fs.modify d f) := by
  refine ⟨fun x => ?_, fun _ => rfl, rfl, rfl, rfl, rfl, rfl, rfl, rfl, rfl⟩
  rw [dentry_modify]
  split
  · next hx => rw [hx, hf]
  · rfl

theorem same_dentryGet : Same fs (fs.dentryGet d) := same_modify rfl

theorem same_modifyInode {f : Inode → Inode} (hf : (f (fs.inode i)).toAttr = (fs.inode i).toAttr) :
    Same fs (fs.modifyInode i f) := by
  refine ⟨fun _ => rfl, fun j => ?_, rfl, rfl, rfl, rfl, rfl, rfl, rfl, rfl⟩
  show (update fs.inode i (f (fs.inode i)) j).toAttr = _
  rw [update_apply]
  split
  · next hj => rw [hj, hf]
  · rfl

theorem same_inodePut : Same fs (fs.inodePut o i) := by
  unfold inodePut
  have h : Same fs (fs.modifyInode i fun x => { x with refcount := x.refcount - 1 }) :=
    same_modifyInode rfl
  dsimp only
  split
  · exact h.aside
  · exact h

@[simp]
theorem dentry_inodePut : (fs.inodePut o i).dentry = fs.dentry := by
  unfold inodePut
  dsimp only
  split <;> rfl

@[simp]
theorem freed_inodePut : (fs.inodePut o i).freed = fs.freed := by
  unfold inodePut
  dsimp only
  split <;> rfl

@[simp]
theorem cacheList_inodePut : (fs.inodePut o i).cacheList = fs.cacheList := by
  unfold inodePut
  dsimp only
  split <;> rfl

variable (fs d) in
/-- Besides the flag only the cache list changes. -/
theorem markDeleted_eq : ∃ num list, fs.markDeleted d =
    { fs.modify d fun x => { x with deleted := true } with
      cacheNum := num, cacheList := list } := by
  unfold markDeleted
  dsimp only
  split
  · exact ⟨_, _, rfl⟩
  · exact ⟨_, _, rfl⟩

theorem dentry_markDeleted :
    (fs.markDeleted d).dentry = (fs.modify d fun x => { x with deleted := true }).dentry := by
  obtain ⟨num, list, heq⟩ := markDeleted_eq fs d
  rw [heq]

variable (fs) in
/-- `dentry_free` only frees. -/
theorem dentryFree_spec : Same fs (fs.dentryFree o d) ∧
    (fs.dentryFree o d).dentry = fs.dentry ∧
    (fs.dentryFree o d).cacheList = fs.cacheList ∧
    (fs.dentryFree o d).freed = fs.freed ++ [d] := by
  unfold dentryFree
  cases (fs.dentry d).inode with
  | none =>
    exact ⟨(Same.refl fs).aside, rfl, rfl, rfl⟩
  | some i =>
    refine ⟨same_inodePut.aside, dentry_inodePut, cacheList_inodePut, ?_⟩
    exact congrArg (· ++ [d]) freed_inodePut

end Fs

/-! ## Counts -/

/-- The dentries that are not freed. -/
def Fs.dentries (fs : Fs β) : Finset Nat := (Finset.range fs.next).filter (· ∉ fs.freed)

/-- The pointers to a dentry: parent pointers, super blocks with it as mount point or root, and
super blocks of a device that is mounted. -/
def pointers (fs : Fs β) (dom live : Finset Nat) (d : Nat) : Nat :=
  holders dom (fun x => (fs.dentry x).parent) d +
    holders live (fun s => (fs.sb s).mountpoint) d +
    holders live (fun s => (fs.sb s).root) d +
    holders live (fun s => (fs.sb s).part.bind fun q => (fs.part q).fsDentry) d

/-- Where counts and references differ: `sys_umount` leaves a reference to the root of the file
system behind, and `vfs_mount` mounts a device without taking a reference to its node. -/
structure Debt where
  leaked : Finset Nat
  lent : Finset Nat

namespace Debt

instance : EmptyCollection Debt := ⟨⟨∅, ∅⟩⟩

/-- A root that is left behind. -/
def leave (debt : Debt) (r : Nat) : Debt := { debt with leaked := insert r debt.leaked }

/-- A device that is mounted without a reference to its node. -/
def lend (debt : Debt) (dev : Nat) : Debt := { debt with lent := insert dev debt.lent }

end Debt

/-- The references to a dentry that do not come from files, current directories and calls: the
pointers, two references to the root of the name space (one for `vfs_mgr.root`), one to a
device, which a mounted file system may have been lent, and one to a dentry that has lost the
super block it was the root of. -/
def refs (fs : Fs β) (dom live : Finset Nat) (debt : Debt) (d : Nat) : Nat :=
  pointers fs dom live d +
    (if d = fs.root then 2 else 0) +
    (if ((fs.dentry d).blockDev ∨ (fs.dentry d).charDev) ∧ d ∉ debt.lent then 1 else 0) +
    if d ∈ debt.leaked then 1 else 0

/-- The cache list holds the dentries with the flag that are not deleted, once each. -/
structure CacheOk (fs : Fs β) (dom : Finset Nat) : Prop where
  mem : ∀ d ∈ dom, d ∈ fs.cacheList ↔ (fs.dentry d).inCacheList ∧ (fs.dentry d).deleted = false
  allocated : ∀ d ∈ fs.cacheList, d ∈ dom
  nodup : fs.cacheList.Nodup
  zero : ∀ d ∈ dom, (fs.dentry d).refcount = 0 → d ∈ fs.cacheList

structure Counted (fs : Fs β) (dom live : Finset Nat) (debt : Debt) (held : Multiset Nat) :
    Prop where
  lt : ∀ d ∈ dom, d < fs.next
  count : ∀ d ∈ dom, (fs.dentry d).refcount = (refs fs dom live debt d + held.count d : Nat)
  pointed : ∀ d, pointers fs dom live d ≠ 0 → d ∈ dom
  held : ∀ d ∈ held, d ∈ dom
  leaked : ∀ d ∈ debt.leaked, d ∈ dom
  lent : ∀ d ∈ debt.lent, d < fs.next ∧ ((fs.dentry d).blockDev ∨ (fs.dentry d).charDev)
  log : fs.freed.Nodup
  freed : ∀ d ∈ fs.freed, d ∉ dom ∧ d < fs.next
  cache : CacheOk fs dom

/-- The effect of giving references up on the set of dentries. -/
structure Shrunk (fs fs' : Fs β) (dom dom' : Finset Nat) : Prop where
  same : Same fs fs'
  sub : dom' ⊆ dom
  kept : ∀ x ∈ dom, (fs.dentry x).deleted = false → x ∈ dom'
  lost : ∀ x ∈ dom, x ∉ dom' → x ∈ fs'.freed
  freed : ∀ x ∈ fs'.freed, x ∈ fs.freed ∨ x ∈ dom ∧ x ∉ dom'
  mono : ∀ x ∈ fs.freed, x ∈ fs'.freed

section

variable {fs fs' : Fs β} {dom : Finset Nat} {d : Nat}

/-- Nothing is freed. -/
theorem Same.shrunk (h : Same fs fs') (hfreed : fs'.freed = fs.freed) : Shrunk fs fs' dom dom :=
  ⟨h, Finset.Subset.refl dom, fun _ hx _ => hx, fun _ hx hnx => absurd hx hnx,
    fun _ hx => .inl (hfreed ▸ hx), fun _ hx => hfreed ▸ hx⟩

theorem CacheOk.congr (h : CacheOk fs dom) (hlist : fs'.cacheList = fs.cacheList)
    (hflag : ∀ x ∈ dom, (fs'.dentry x).inCacheList = (fs.dentry x).inCacheList)
    (hdeleted : ∀ x ∈ dom, (fs'.dentry x).deleted = (fs.dentry x).deleted)
    (hzero : ∀ x ∈ dom, (fs'.dentry x).refcount = 0 → x ∈ fs.cacheList) : CacheOk fs' dom where
  mem x hx := by
    rw [hlist, hflag x hx, hdeleted x hx]
    exact h.mem x hx
  allocated x hx := h.allocated x (hlist ▸ hx)
  nodup := hlist ▸ h.nodup
  zero x hx hx0 := hlist ▸ hzero x hx hx0

/-- A dentry with a reference joins that was never on the cache list. -/
theorem CacheOk.insert (h : CacheOk fs dom) (hd : d ∉ dom)
    (hflag : (fs.dentry d).inCacheList = false)
    (hcount : (fs.dentry d).refcount ≠ 0) : CacheOk fs (Insert.insert d dom) where
  mem := by
    refine (forall_mem_insert ..).mpr ⟨?_, h.mem⟩
    simpa [hflag] using fun hmem => hd (h.allocated d hmem)
  allocated x hx := mem_insert_of_mem (h.allocated x hx)
  nodup := h.nodup
  zero := (forall_mem_insert ..).mpr ⟨fun hzero => absurd hzero hcount, h.zero⟩

end

namespace Shrunk

variable {fs fs₁ fs₂ : Fs β} {dom dom' : Finset Nat} {d : Nat}

/-- A dentry out of the set is not freed. -/
theorem notMem_freed (h : Shrunk fs fs₁ (dom.erase d) dom') (hnew : d ∉ fs.freed) :
    d ∉ fs₁.freed := by
  intro hmem
  rcases h.freed d hmem with hmem | ⟨hmem, -⟩
  · exact hnew hmem
  · exact notMem_erase d dom hmem

/-- The dentry goes to the cache list as well. -/
theorem enqueue (h : Shrunk fs fs₁ dom dom') :
    Shrunk fs { fs₁.modify d (fun x => { x with inCacheList := true }) with
      cacheList := fs₁.cacheList ++ [d], cacheNum := fs₁.cacheNum + 1 } dom dom' := by
  have hsame := h.same.trans (same_modify rfl :
    Same fs₁ (fs₁.modify d fun x => { x with inCacheList := true }))
  exact { h with same := hsame.aside }

/-- A deleted dentry is freed behind the others. -/
theorem expired (h : Shrunk fs₁ fs₂ (dom.erase d) dom') (hsame : Same fs fs₁)
    (hfreed : fs₁.freed = fs.freed) (hd : d ∈ dom) (hdeleted : (fs.dentry d).deleted = true)
    (hd' : d ∉ dom') : Shrunk fs (fs₂.dentryFree o d) dom dom' := by
  obtain ⟨hfree, -, -, hlog⟩ := dentryFree_spec (o := o) (d := d) fs₂
  refine ⟨(hsame.trans h.same).trans hfree, h.sub.trans (erase_subset d dom),
    fun x hx hkeep => ?_, fun x hx hlost => ?_, fun x hx => ?_, fun x hx => ?_⟩
  · refine h.kept x (mem_erase.mpr ⟨?_, hx⟩) (hsame.deleted x ▸ hkeep)
    rintro rfl
    rw [hdeleted] at hkeep
    cases hkeep
  · rw [hlog, List.mem_append, List.mem_singleton]
    by_cases hxd : x = d
    · exact .inr hxd
    · exact .inl (h.lost x (mem_erase.mpr ⟨hxd, hx⟩) hlost)
  · rw [hlog, List.mem_append, List.mem_singleton] at hx
    rcases hx with hx | rfl
    · rcases h.freed x hx with hx | ⟨hx, hx'⟩
      · exact .inl (hfreed ▸ hx)
      · exact .inr ⟨mem_of_mem_erase hx, hx'⟩
    · exact .inr ⟨hd, hd'⟩
  · rw [hlog, List.mem_append]
    exact .inl (h.mono x (hfreed ▸ hx))

end Shrunk

theorem Fs.mem_dentries {fs : Fs β} {d : Nat} : d ∈ fs.dentries ↔ d < fs.next ∧ d ∉ fs.freed := by
  rw [dentries, mem_filter, mem_range]

theorem dentries_eq_of_lost {fs fs' : Fs β} {dom' : Finset Nat} (hnext : fs'.next = fs.next)
    (hsub : dom' ⊆ fs.dentries) (hlost : ∀ x ∈ fs.dentries, x ∉ dom' → x ∈ fs'.freed)
    (hfreed : ∀ x ∈ fs'.freed, x ∈ fs.freed ∨ x ∈ fs.dentries ∧ x ∉ dom')
    (hlog : ∀ x ∈ fs.freed, x ∈ fs'.freed) : dom' = fs'.dentries := by
  ext x
  rw [mem_dentries, hnext]
  constructor
  · intro hx
    obtain ⟨hlt, hold⟩ := mem_dentries.mp (hsub hx)
    refine ⟨hlt, fun hmem => ?_⟩
    rcases hfreed x hmem with hmem | ⟨-, hmem⟩
    · exact hold hmem
    · exact hmem hx
  · rintro ⟨hlt, hnew⟩
    by_contra hx
    have hmem : x ∈ fs.dentries := mem_dentries.mpr ⟨hlt, fun hmem => hnew (hlog x hmem)⟩
    exact hnew (hlost x hmem hx)

/-- What is left of all dentries is again all dentries. -/
theorem Shrunk.dentries_eq {fs fs' : Fs β} {dom' : Finset Nat}
    (h : Shrunk fs fs' fs.dentries dom') : dom' = fs'.dentries :=
  dentries_eq_of_lost h.same.next h.sub h.lost h.freed h.mono

section Refs

variable {fs fs' : Fs β} {dom live : Finset Nat} {debt : Debt} {d x : Nat}

theorem pointers_congr (h : Same fs fs') : pointers fs' dom live d = pointers fs dom live d := by
  unfold pointers
  rw [h.sb, h.part, funext h.parent]

theorem refs_congr (h : Same fs fs') : refs fs' dom live debt d = refs fs dom live debt d := by
  unfold refs
  rw [pointers_congr h, h.root, h.blockDev, h.charDev]

/-- A dentry leaves the set, and with it its pointer to its parent. -/
theorem pointers_erase (hd : d ∈ dom) (x : Nat) : pointers fs dom live x =
    pointers fs (dom.erase d) live x + if (fs.dentry d).parent = some x then 1 else 0 := by
  unfold pointers
  rw [holders_eq_erase _ hd]
  omega

theorem refs_erase (hd : d ∈ dom) (x : Nat) : refs fs dom live debt x =
    refs fs (dom.erase d) live debt x + if (fs.dentry d).parent = some x then 1 else 0 := by
  unfold refs
  rw [pointers_erase hd]
  omega

theorem notMem_leaked_of_refs (h : refs fs dom live debt d = 0) : d ∉ debt.leaked := by
  intro hmem
  rw [refs, if_pos hmem] at h
  omega

variable (live) in
theorem pointers_parent (hx : x ∈ dom) (hparent : (fs.dentry x).parent = some d) :
    pointers fs dom live d ≠ 0 := by
  have hpos := holders_pos (fun x => (fs.dentry x).parent) hx hparent
  unfold pointers
  omega

end Refs

namespace Counted

variable {fs fs' : Fs β} {dom live : Finset Nat} {debt : Debt} {held : Multiset Nat} {d p : Nat}

/-- Devices stay devices. -/
theorem lent_congr (h : Counted fs dom live debt held) (hnext : fs.next ≤ fs'.next)
    (hflags : ∀ d < fs.next, (fs'.dentry d).blockDev = (fs.dentry d).blockDev ∧
      (fs'.dentry d).charDev = (fs.dentry d).charDev) :
    ∀ d ∈ debt.lent, d < fs'.next ∧ ((fs'.dentry d).blockDev ∨ (fs'.dentry d).charDev) := by
  intro d hd
  obtain ⟨hlt, hdevice⟩ := h.lent d hd
  rw [(hflags d hlt).1, (hflags d hlt).2]
  exact ⟨hlt.trans_le hnext, hdevice⟩

theorem lent_same (h : Counted fs dom live debt held) (hsame : Same fs fs') :
    ∀ d ∈ debt.lent, d < fs'.next ∧ ((fs'.dentry d).blockDev ∨ (fs'.dentry d).charDev) :=
  h.lent_congr hsame.next.ge fun d _ => ⟨hsame.blockDev d, hsame.charDev d⟩

section

variable (h : Counted fs dom live debt held) (hnext : fs'.next = fs.next)
  (hsb : ∀ s ∈ live, fs'.sb s = fs.sb s)
  (hpart : ∀ q, (fs'.part q).fsDentry = (fs.part q).fsDentry) (hroot : fs'.root = fs.root)
include h hnext hsb hpart hroot

/-- The cache list apart, a state is counted like one with the same pointers and counts. -/
theorem recached (hdentry : ∀ d, (fs'.dentry d).parent = (fs.dentry d).parent ∧
      (fs'.dentry d).blockDev = (fs.dentry d).blockDev ∧
      (fs'.dentry d).charDev = (fs.dentry d).charDev ∧
      (fs'.dentry d).refcount = (fs.dentry d).refcount)
    (hfreed : fs'.freed = fs.freed) (hcache : CacheOk fs' dom) :
    Counted fs' dom live debt held := by
  have hpointers : ∀ d, pointers fs' dom live d = pointers fs dom live d := by
    intro d
    rw [pointers, pointers, funext fun x => (hdentry x).1]
    congr 1
    · congr 1
      · congr 1
        exact holders_congr fun s hs => by rw [hsb s hs]
      · exact holders_congr fun s hs => by rw [hsb s hs]
    · exact holders_congr fun s hs => by rw [hsb s hs, funext hpart]
  refine ⟨fun d hd => hnext ▸ h.lt d hd, fun d hd => ?_, fun d hd => h.pointed d (hpointers d ▸ hd),
    h.held, h.leaked, h.lent_congr hnext.ge fun d _ => ⟨(hdentry d).2.1, (hdentry d).2.2.1⟩,
    hfreed ▸ h.log, fun d hd => ?_, hcache⟩
  · obtain ⟨-, hblock, hchar, hcount⟩ := hdentry d
    rw [hcount, refs, hpointers, hroot, hblock, hchar]
    exact h.count d hd
  · rw [hnext]
    exact h.freed d (hfreed ▸ hd)

/-- A state with the same counts, parents and cache list. -/
theorem congr_parents (hdentry : ∀ d, (fs'.dentry d).parent = (fs.dentry d).parent ∧
      (fs'.dentry d).deleted = (fs.dentry d).deleted ∧
      (fs'.dentry d).blockDev = (fs.dentry d).blockDev ∧
      (fs'.dentry d).charDev = (fs.dentry d).charDev ∧
      (fs'.dentry d).refcount = (fs.dentry d).refcount ∧
      (fs'.dentry d).inCacheList = (fs.dentry d).inCacheList)
    (hfreed : fs'.freed = fs.freed) (hcache : fs'.cacheList = fs.cacheList) :
    Counted fs' dom live debt held := by
  refine h.recached hnext hsb hpart hroot (fun d => ?_) hfreed (h.cache.congr hcache
    (fun d _ => (hdentry d).2.2.2.2.2) (fun d _ => (hdentry d).2.1) fun d hd hzero => ?_)
  · obtain ⟨hparent, -, hblock, hchar, hcount, -⟩ := hdentry d
    exact ⟨hparent, hblock, hchar, hcount⟩
  · rw [(hdentry d).2.2.2.2.1] at hzero
    exact h.cache.zero d hd hzero

end

/-- `dentry_get` -/
theorem dentryGet (h : Counted fs dom live debt held) (hd : d ∈ dom) :
    Counted (fs.dentryGet d) dom live debt (d ::ₘ held) := by
  have hsame : Same fs (fs.dentryGet d) := same_dentryGet
  have hnonneg : 0 ≤ (fs.dentry d).refcount := by
    rw [h.count d hd]
    omega
  have hcount : ∀ x, ((fs.dentryGet d).dentry x).refcount =
      (fs.dentry x).refcount + if x = d then 1 else 0 := by
    intro x
    rw [Fs.dentryGet, dentry_modify]
    split
    · next hx => rw [hx]
    · rw [add_zero]
  have hflag : ∀ x, ((fs.dentryGet d).dentry x).inCacheList = (fs.dentry x).inCacheList := by
    intro x
    rw [Fs.dentryGet, dentry_modify]
    split
    · next hx => rw [hx]
    · rfl
  refine ⟨fun x hx => hsame.next ▸ h.lt x hx, fun x hx => ?_, fun x hx => ?_, fun x hx => ?_,
    h.leaked, h.lent_same hsame, h.log, h.freed,
      h.cache.congr rfl (fun x _ => hflag x) (fun x _ => hsame.deleted x)
      fun x hx hzero => ?_⟩
  · rw [hcount, refs_congr hsame, h.count x hx, Multiset.count_cons]
    split <;> push_cast <;> omega
  · exact h.pointed x (pointers_congr hsame ▸ hx)
  · rcases Multiset.mem_cons.mp hx with rfl | hx
    · exact hd
    · exact h.held x hx
  · rw [hcount] at hzero
    split at hzero
    · next hxd =>
      subst hxd
      omega
    · exact h.cache.zero x hx (by omega)

end Counted

/-! ## `dentry_put` -/

/-- The dentries that `dentry_put` can still bring down to 0. -/
def positive (fs : Fs β) (dom : Finset Nat) : Nat :=
  (dom.filter fun x => 0 < (fs.dentry x).refcount).card

namespace Counted

variable {fs fs' : Fs β} {dom live : Finset Nat} {debt : Debt} {held : Multiset Nat} {d p : Nat}

theorem refcount_pos (h : Counted fs dom live debt (d ::ₘ held)) :
    (fs.dentry d).refcount = (refs fs dom live debt d + held.count d : Nat) + 1 := by
  rw [h.count d (h.held d (Multiset.mem_cons_self d held)), Multiset.count_cons_self]
  omega

/-- The count goes down and the dentry stays. -/
theorem release (h : Counted fs dom live debt (d ::ₘ held)) (hsame : Same fs fs')
    (hcount : ∀ x, (fs'.dentry x).refcount = (fs.dentry x).refcount - if x = d then 1 else 0)
    (hfreed : fs'.freed = fs.freed) (hcache : CacheOk fs' dom) :
    Counted fs' dom live debt held where
  lt x hx := hsame.next ▸ h.lt x hx
  count x hx := by
    rw [hcount, refs_congr hsame, h.count x hx, Multiset.count_cons]
    split <;> push_cast <;> omega
  pointed x hx := h.pointed x (pointers_congr hsame ▸ hx)
  held x hx := h.held x (Multiset.mem_cons_of_mem hx)
  leaked := h.leaked
  lent := h.lent_same hsame
  log := hfreed ▸ h.log
  freed x hx := by
    rw [hsame.next]
    exact h.freed x (hfreed ▸ hx)
  cache := hcache

/-- A dentry that nobody points to leaves the set: without it, its reference to the parent is one
that is held. -/
theorem without {old : Multiset Nat} (h : Counted fs dom live debt old) (hsame : Same fs fs')
    (hd : d ∈ dom) (hrefs : refs fs dom live debt d = 0) (hnot : d ∉ held)
    (hheld : ∀ x, x ≠ d → held.count x = old.count x)
    (hcount : ∀ x, x ≠ d → (fs'.dentry x).refcount = (fs.dentry x).refcount)
    (hfreed : fs'.freed = fs.freed) (hcache : CacheOk fs' (dom.erase d)) :
    Counted fs' (dom.erase d) live debt
      ((fs.dentry d).parent.elim held fun p => p ::ₘ held) := by
  have hlone : pointers fs dom live d = 0 := by
    unfold refs at hrefs
    omega
  have hmem : ∀ x ∈ held, x ∈ dom.erase d := by
    intro x hx
    have hxd : x ≠ d := fun hxd => hnot (hxd ▸ hx)
    refine mem_erase.mpr ⟨hxd, h.held x ?_⟩
    rwa [← Multiset.count_pos, ← hheld x hxd, Multiset.count_pos]
  refine ⟨fun x hx => hsame.next ▸ h.lt x (mem_of_mem_erase hx), fun x hx => ?_,
    fun x hx => ?_, fun x hx => ?_, fun x hx => ?_, h.lent_same hsame, hfreed ▸ h.log,
    fun x hx => ?_, hcache⟩
  · have hxd : x ≠ d := ne_of_mem_erase hx
    rw [hcount x hxd, refs_congr hsame, h.count x (mem_of_mem_erase hx), refs_erase hd,
      ← hheld x hxd]
    cases hp : (fs.dentry d).parent with
    | none => simp
    | some p =>
      simp only [Option.elim_some, Multiset.count_cons, Option.some_inj, eq_comm (a := p)]
      omega
  · rw [pointers_congr hsame] at hx
    have hx' : pointers fs dom live x ≠ 0 := by
      rw [pointers_erase hd]
      omega
    refine mem_erase.mpr ⟨?_, h.pointed x hx'⟩
    rintro rfl
    exact hx' hlone
  · cases hp : (fs.dentry d).parent with
    | none =>
      rw [hp] at hx
      exact hmem x hx
    | some p =>
      rw [hp] at hx
      rcases Multiset.mem_cons.mp hx with rfl | hx
      · refine mem_erase.mpr ⟨?_, h.pointed x (pointers_parent _ hd hp)⟩
        rintro rfl
        exact pointers_parent _ hd hp hlone
      · exact hmem x hx
  · refine mem_erase.mpr ⟨?_, h.leaked x hx⟩
    rintro rfl
    exact notMem_leaked_of_refs hrefs hx
  · rw [hfreed] at hx
    rw [hsame.next]
    exact ⟨fun hmem => (h.freed x hx).1 (mem_of_mem_erase hmem), (h.freed x hx).2⟩

section

variable (h : Counted fs dom live debt (d ::ₘ held)) (hsame : Same fs fs')
  (hcount : ∀ x, (fs'.dentry x).refcount = (fs.dentry x).refcount - if x = d then 1 else 0)
  (hflag : ∀ x, (fs'.dentry x).inCacheList = (fs.dentry x).inCacheList)
include h hsame hcount hflag

/-- The last reference to a deleted dentry is given up. -/
theorem expire (hfreed : fs'.freed = fs.freed) (hcache : fs'.cacheList = fs.cacheList)
    (hlast : (fs.dentry d).refcount = 1) (hdeleted : (fs.dentry d).deleted = true) :
    Counted fs' (dom.erase d) live debt
      ((fs.dentry d).parent.elim held fun p => p ::ₘ held) := by
  have hd := h.held d (Multiset.mem_cons_self d held)
  have hzero : refs fs dom live debt d = 0 ∧ held.count d = 0 := by
    have := h.refcount_pos
    omega
  have hkeep : ∀ x, x ≠ d → (fs'.dentry x).refcount = (fs.dentry x).refcount := by
    intro x hxd
    rw [hcount, if_neg hxd, sub_zero]
  have hcached : d ∉ fs.cacheList := by
    intro hmem
    have := ((h.cache.mem d hd).mp hmem).2
    rw [hdeleted] at this
    cases this
  refine h.without hsame hd hzero.1 (Multiset.count_eq_zero.mp hzero.2)
    (fun x hxd => (Multiset.count_cons_of_ne hxd held).symm) hkeep hfreed
    ⟨fun x hx => ?_, fun x hx => ?_, hcache ▸ h.cache.nodup, fun x hx hx0 => ?_⟩
  · rw [hcache, hflag, hsame.deleted]
    exact h.cache.mem x (mem_of_mem_erase hx)
  · rw [hcache] at hx
    refine mem_erase.mpr ⟨?_, h.cache.allocated x hx⟩
    rintro rfl
    exact hcached hx
  · rw [hkeep x (ne_of_mem_erase hx)] at hx0
    rw [hcache]
    exact h.cache.zero x (mem_of_mem_erase hx) hx0

/-- The last reference to a dentry is given up, and it goes to the cache list. -/
theorem enqueue (hcacheList : fs'.cacheList = fs.cacheList) (hfreed : fs'.freed = fs.freed)
    (hdeleted : (fs.dentry d).deleted = false) (hnot : d ∉ fs.cacheList) :
    Counted { fs'.modify d (fun x => { x with inCacheList := true }) with
      cacheList := fs'.cacheList ++ [d], cacheNum := fs'.cacheNum + 1 } dom live debt held := by
  have hd := h.held d (Multiset.mem_cons_self d held)
  have hsame' : Same fs' (fs'.modify d fun x => { x with inCacheList := true }) :=
    same_modify rfl
  have htrans := hsame.trans hsame'
  refine h.release htrans.aside (fun x => ?_) hfreed
    ⟨fun x hx => ?_, fun x hx => ?_, ?_, fun x hx hzero => ?_⟩
  · show ((fs'.modify d fun x => { x with inCacheList := true }).dentry x).refcount = _
    rw [← hcount x, dentry_modify]
    split
    · next hx => rw [hx]
    · rfl
  · show x ∈ fs'.cacheList ++ [d] ↔
      ((fs'.modify d fun x => { x with inCacheList := true }).dentry x).inCacheList = true ∧
        ((fs'.modify d fun x => { x with inCacheList := true }).dentry x).deleted = false
    rw [htrans.deleted, List.mem_append, List.mem_singleton, hcacheList, h.cache.mem x hx,
      dentry_modify]
    by_cases hxd : x = d
    · subst hxd
      simp [hdeleted]
    · rw [if_neg hxd, hflag]
      simp [hxd]
  · have hx : x ∈ fs'.cacheList ++ [d] := hx
    rw [hcacheList, List.mem_append, List.mem_singleton] at hx
    rcases hx with hx | rfl
    · exact h.cache.allocated x hx
    · exact hd
  · show (fs'.cacheList ++ [d]).Nodup
    rw [hcacheList, ← List.concat_eq_append]
    exact .concat hnot h.cache.nodup
  · show x ∈ fs'.cacheList ++ [d]
    have hzero : ((fs'.modify d fun x => { x with inCacheList := true }).dentry x).refcount = 0 :=
      hzero
    rw [hcacheList, List.mem_append, List.mem_singleton]
    by_cases hxd : x = d
    · exact .inr hxd
    · rw [dentry_modify, if_neg hxd, hcount, if_neg hxd, sub_zero] at hzero
      exact .inl (h.cache.zero x hx hzero)

end

theorem positive_expire (hd : d ∈ dom) (hlast : (fs.dentry d).refcount = 1)
    (hcount : ∀ x, (fs'.dentry x).refcount = (fs.dentry x).refcount - if x = d then 1 else 0) :
    positive fs' (dom.erase d) + 1 = positive fs dom := by
  have heq : dom.filter (fun x => 0 < (fs.dentry x).refcount) =
      insert d ((dom.erase d).filter fun x => 0 < (fs'.dentry x).refcount) := by
    ext x
    rw [mem_insert, mem_filter, mem_filter, mem_erase, hcount]
    by_cases hx : x = d
    · subst hx
      simp [hd, hlast]
    · simp [hx]
  rw [positive, positive, heq, card_insert_of_notMem (by simp)]

/-- A dentry that does not count any more is freed. -/
theorem dentryFree (h : Counted fs dom live debt held) (hlt : d < fs.next) (hd : d ∉ dom)
    (hnew : d ∉ fs.freed) : Counted (fs.dentryFree o d) dom live debt held := by
  obtain ⟨hsame, hdentry, hcache, hfreed⟩ := dentryFree_spec (o := o) (d := d) fs
  refine ⟨fun x hx => hsame.next ▸ h.lt x hx, fun x hx => ?_, fun x hx => ?_, h.held,
    h.leaked, h.lent_same hsame, ?_, fun x hx => ?_,
      h.cache.congr hcache (fun x _ => by rw [hdentry])
      (fun x _ => by rw [hdentry]) fun x hx hzero => h.cache.zero x hx (hdentry ▸ hzero)⟩
  · rw [hdentry, refs_congr hsame]
    exact h.count x hx
  · exact h.pointed x (pointers_congr hsame ▸ hx)
  · rw [hfreed, ← List.concat_eq_append]
    exact .concat hnew h.log
  · rw [hfreed, List.mem_append, List.mem_singleton] at hx
    rw [hsame.next]
    rcases hx with hx | rfl
    · exact h.freed x hx
    · exact ⟨hd, hlt⟩

/-- `dentry_put` gives one reference up. -/
theorem putChain (n : Nat) : ∀ {fs : Fs β} {dom : Finset Nat} {held : Multiset Nat} {d : Nat},
    Counted fs dom live debt (d ::ₘ held) → positive fs dom ≤ n →
      ∃ dom', Counted (fs.putChain o (n + 1) d) dom' live debt held ∧
        Shrunk fs (fs.putChain o (n + 1) d) dom dom' := by
  induction n with
  | zero =>
    intro fs dom held d h hn
    have hd := h.held d (Multiset.mem_cons_self d held)
    have hpos : d ∈ dom.filter fun x => 0 < (fs.dentry x).refcount := by
      rw [mem_filter, h.refcount_pos]
      exact ⟨hd, by omega⟩
    exact absurd (card_pos.mpr ⟨d, hpos⟩) (by rw [positive] at hn; omega)
  | succ n ih =>
    intro fs dom held d h hn
    have hd := h.held d (Multiset.mem_cons_self d held)
    rw [Fs.putChain]
    generalize hfs₁ : fs.modify d (fun x => { x with refcount := x.refcount - 1 }) = fs₁
    have hsame : Same fs fs₁ := hfs₁ ▸ same_modify rfl
    have hcount : ∀ x, (fs₁.dentry x).refcount =
        (fs.dentry x).refcount - if x = d then 1 else 0 := by
      intro x
      rw [← hfs₁, dentry_modify]
      split
      · next hx => rw [hx]
      · rw [sub_zero]
    have hflag : ∀ x, (fs₁.dentry x).inCacheList = (fs.dentry x).inCacheList := by
      intro x
      rw [← hfs₁, dentry_modify]
      split
      · next hx => rw [hx]
      · rfl
    have hfreed : fs₁.freed = fs.freed := by rw [← hfs₁]; rfl
    have hcacheList : fs₁.cacheList = fs.cacheList := by rw [← hfs₁]; rfl
    have hstay : Shrunk fs fs₁ dom dom := hsame.shrunk hfreed
    -- the cache list is as before, if the dentry is on it or still referenced
    have hcacheOk : (fs₁.dentry d).refcount ≠ 0 ∨ d ∈ fs.cacheList → CacheOk fs₁ dom := by
      intro hcase
      refine h.cache.congr hcacheList (fun x _ => hflag x) (fun x _ => hsame.deleted x) ?_
      intro x hx hzero
      by_cases hxd : x = d
      · subst hxd
        exact hcase.resolve_left fun hne => hne hzero
      · rw [hcount, if_neg hxd, sub_zero] at hzero
        exact h.cache.zero x hx hzero
    split
    · next hne => exact ⟨dom, h.release hsame hcount hfreed (hcacheOk (.inl hne)), hstay⟩
    have hlast : (fs.dentry d).refcount = 1 := by
      have := hcount d
      rw [if_pos rfl] at this
      omega
    split
    · next hdeleted =>
      rw [hsame.deleted] at hdeleted
      have hexpire := h.expire hsame hcount hflag hfreed hcacheList hlast hdeleted
      rw [hsame.parent]
      have hlt : d < fs₁.next := hsame.next ▸ h.lt d hd
      have hnew : d ∉ fs₁.freed := fun hmem => (h.freed d (hfreed ▸ hmem)).1 hd
      -- the pointer to the parent goes first, then the dentry itself
      obtain ⟨fs₂, dom', hfs₂, hcounted, hshrunk⟩ : ∃ fs₂ dom',
          ((fs.dentry d).parent.elim fs₁ fun p => fs₁.putChain o (n + 1) p) = fs₂ ∧
            Counted fs₂ dom' live debt held ∧
          Shrunk fs₁ fs₂ (dom.erase d) dom' := by
        cases hp : (fs.dentry d).parent with
        | none =>
          rw [hp] at hexpire
          exact ⟨_, _, rfl, hexpire, Same.shrunk (.refl fs₁) rfl⟩
        | some p =>
          rw [hp] at hexpire
          have hless := positive_expire hd hlast hcount
          obtain ⟨dom', hcounted, hshrunk⟩ := ih hexpire (by omega)
          exact ⟨_, dom', rfl, hcounted, hshrunk⟩
      rw [hfs₂]
      have hd' : d ∉ dom' := fun hmem => notMem_erase d dom (hshrunk.sub hmem)
      refine ⟨dom', hcounted.dentryFree (hshrunk.same.next ▸ hlt)
        hd' (hshrunk.notMem_freed hnew), ?_⟩
      exact hshrunk.expired hsame hfreed hd hdeleted hd'
    · next hdeleted =>
      split
      · next hin =>
        have hmem : d ∈ fs.cacheList := by
          refine (h.cache.mem d hd).mpr ⟨hflag d ▸ hin, ?_⟩
          rw [← hsame.deleted]
          exact Bool.eq_false_iff.mpr hdeleted
        exact ⟨dom, h.release hsame hcount hfreed (hcacheOk (.inr hmem)), hstay⟩
      · next hin =>
        have hnot : d ∉ fs.cacheList := by
          intro hmem
          exact hin (hflag d ▸ ((h.cache.mem d hd).mp hmem).1)
        exact ⟨dom, h.enqueue hsame hcount hflag hcacheList hfreed
          (hsame.deleted d ▸ Bool.eq_false_iff.mpr hdeleted) hnot, hstay.enqueue⟩

theorem positive_le (h : Counted fs dom live debt held) : positive fs dom ≤ fs.next := by
  calc positive fs dom ≤ dom.card := card_filter_le ..
    _ ≤ (Finset.range fs.next).card :=
      card_le_card fun d hd => mem_range.mpr (h.lt d hd)
    _ = fs.next := card_range fs.next

theorem dentryPut (h : Counted fs dom live debt (d ::ₘ held)) :
    ∃ dom', Counted (fs.dentryPut o d) dom' live debt held ∧
      Shrunk fs (fs.dentryPut o d) dom dom' :=
  putChain fs.next h h.positive_le

/-- A dentry with a reference is marked; nothing else in `Counted` depends on the mark. -/
theorem markDeleted (h : Counted fs dom live debt (d ::ₘ held)) :
    Counted (fs.markDeleted d) dom live debt (d ::ₘ held) := by
  have hd := h.held d (Multiset.mem_cons_self d held)
  generalize hfs' : fs.markDeleted d = fs'
  have hdentry : ∀ x, fs'.dentry x =
      if x = d then { fs.dentry d with deleted := true } else fs.dentry x := by
    intro x
    rw [← hfs', dentry_markDeleted, dentry_modify]
  have hcacheList : fs'.cacheList = fs.cacheList.filter (· ≠ d) := by
    have hflag : ((fs.modify d fun x => { x with deleted := true }).dentry d).inCacheList =
        (fs.dentry d).inCacheList := by
      rw [dentry_modify, if_pos rfl]
    rw [← hfs', Fs.markDeleted, hflag]
    split
    · rfl
    · next hin =>
      refine (List.filter_eq_self.mpr fun x hx => ?_).symm
      refine decide_eq_true fun hxd => ?_
      subst hxd
      exact hin ((h.cache.mem x hd).mp hx).1
  have hrest : fs'.next = fs.next ∧ fs'.freed = fs.freed ∧ fs'.sb = fs.sb ∧ fs'.part = fs.part ∧
      fs'.root = fs.root := by
    rw [← hfs', Fs.markDeleted]
    split <;> exact ⟨rfl, rfl, rfl, rfl, rfl⟩
  obtain ⟨hnext, hfreed, hsb, hpart, hroot⟩ := hrest
  have hkept : ∀ x, (fs'.dentry x).parent = (fs.dentry x).parent ∧
      (fs'.dentry x).blockDev = (fs.dentry x).blockDev ∧
      (fs'.dentry x).charDev = (fs.dentry x).charDev ∧
      (fs'.dentry x).refcount = (fs.dentry x).refcount := by
    intro x
    rw [hdentry]
    split
    · next hx => rw [hx]; exact ⟨rfl, rfl, rfl, rfl⟩
    · exact ⟨rfl, rfl, rfl, rfl⟩
  refine h.recached hnext (fun s _ => by rw [hsb]) (fun q => by rw [hpart]) hroot hkept hfreed
    ⟨fun x hx => ?_, fun x hx => ?_, ?_, fun x hx hx0 => ?_⟩
  · rw [hcacheList, List.mem_filter, h.cache.mem x hx, hdentry]
    by_cases hxd : x = d
    · simp [hxd]
    · simp [hxd]
  · rw [hcacheList] at hx
    exact h.cache.allocated x (List.mem_of_mem_filter hx)
  · rw [hcacheList]
    exact h.cache.nodup.filter _
  · rw [(hkept x).2.2.2] at hx0
    have hxd : x ≠ d := by
      rintro rfl
      have := h.refcount_pos
      omega
    rw [hcacheList, List.mem_filter]
    exact ⟨h.cache.zero x hx hx0, decide_eq_true hxd⟩

end Counted

end Osx64.Vfs
