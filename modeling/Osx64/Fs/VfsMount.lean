import Osx64.Fs.VfsRename

/-!
# Mounting

A mount takes the reference to the mount point that the lookup has made, and `sys_mount` also
the one to the device: it takes another reference and gives one back.  `Grafted` describes the
state behind a mount that has been successful.
-/

namespace Osx64.Vfs

open Function Option Finset Multiset Nat Vfs.Fs

variable {β : Type} {o : Backend β} {fs fs' fs'' : Fs β} {debt : Debt}
  {held : Multiset Nat} {d m q dev cwd : Nat}

/-! ## A new tree -/

/-- There is a new super block with a root, mounted on `m`, for the device `q`. -/
structure Grafted (fs fs' : Fs β) (m q : Nat) : Prop where
  new : fs'.dentry fs.next = {
    name := [slash], inode := some fs.nextInode, parent := none, children := [],
    mountpoint := false, blockDev := false, charDev := false, deleted := false,
    mountedHere := none, inMnt := some fs.nextSb, refcount := 1, inCacheList := false }
  point : fs'.dentry m = { fs.dentry m with mountpoint := true, mountedHere := some fs.nextSb }
  other : ∀ y, y ≠ fs.next → y ≠ m → fs'.dentry y = fs.dentry y
  next : fs'.next = fs.next + 1
  nextInode : fs'.nextInode = fs.nextInode + 1
  attr : ∀ i < fs.nextInode, (fs'.inode i).toAttr = (fs.inode i).toAttr
  newSb : (fs'.inode fs.nextInode).sb = fs.nextSb
  sb : ∃ fsType, fs'.sb = update fs.sb fs.nextSb ⟨fsType, some fs.next, some m, some q⟩
  nextSb : fs'.nextSb = fs.nextSb + 1
  part : ∀ q, (fs'.part q).fsDentry = (fs.part q).fsDentry
  owner : (fs'.part q).mountedSb = some fs.nextSb
  otherPart : ∀ y, y ≠ q → fs'.part y = fs.part y
  mountList : fs'.mountList = fs.mountList ++ [fs.nextSb]
  fsRef : fs'.fsRef =
    addRef (update fs.fsRef fs.nextSb 0) 1 (some (fs.inodeOf m).sb)
  root : fs'.root = fs.root
  freed : fs'.freed = fs.freed
  cacheList : fs'.cacheList = fs.cacheList

namespace Grafted

variable {y : Nat}

section

variable (h : Grafted fs fs' m q)
include h

theorem mounted : fs'.mounted = insert fs.nextSb fs.mounted := by
  rw [Fs.mounted, Fs.mounted, h.mountList, List.toFinset_append, insert_comm]
  congr 1
  ext s
  simp

/-- The other dentries keep their pointers, but for the mount point. -/
theorem link (hy : y ≠ fs.next) : (fs'.dentry y).toLink =
    { (fs.dentry y).toLink with
      mountpoint := if y = m then true else (fs.dentry y).mountpoint
      mountedHere := if y = m then some fs.nextSb else (fs.dentry y).mountedHere } := by
  by_cases hym : y = m
  · subst hym
    rw [h.point, if_pos rfl, if_pos rfl]
  · rw [h.other y hy hym, if_neg hym, if_neg hym]

theorem refcount (hy : y ≠ fs.next) :
    (fs'.dentry y).refcount = (fs.dentry y).refcount ∧
      (fs'.dentry y).inCacheList = (fs.dentry y).inCacheList := by
  by_cases hym : y = m
  · subst hym
    rw [h.point]
    exact ⟨rfl, rfl⟩
  · rw [h.other y hy hym]
    exact ⟨rfl, rfl⟩

theorem sb_old {s : Nat} (hs : s ≠ fs.nextSb) : fs'.sb s = fs.sb s := by
  obtain ⟨fsType, hsb⟩ := h.sb
  rw [hsb, update_of_ne hs]

theorem sb_new :
    (fs'.sb fs.nextSb).root = some fs.next ∧ (fs'.sb fs.nextSb).mountpoint = some m ∧
      (fs'.sb fs.nextSb).part = some q := by
  obtain ⟨fsType, hsb⟩ := h.sb
  rw [hsb, update_self]
  exact ⟨rfl, rfl, rfl⟩

/-- The super block points to the mount point, to its root and to the device. -/
theorem pointers (hinv : Inv fs debt held) (hdev : (fs.part q).fsDentry = some dev) (y : Nat) :
    pointers fs' fs'.dentries fs'.mounted y = pointers fs fs.dentries fs.mounted y +
      (if y = m then 1 else 0) + (if y = fs.next then 1 else 0) + if y = dev then 1 else 0 := by
  have hfresh : fs.next ∉ fs.dentries := fun hmem => (Fs.mem_dentries.mp hmem).1.false
  have hdom := hinv.dentries_new h.next h.freed
  have hs : fs.nextSb ∉ fs.mounted := fun hmem => (hinv.shape.lt _ hmem).false
  have hsne : ∀ s ∈ fs.mounted, s ≠ fs.nextSb := fun s hmem heq => hs (heq ▸ hmem)
  obtain ⟨hroot, hpoint, hpart⟩ := h.sb_new
  have hparents : holders fs'.dentries (fun z => (fs'.dentry z).parent) y =
      holders fs.dentries (fun z => (fs.dentry z).parent) y := by
    rw [hdom, holders_eq_erase _ (mem_insert_self _ _), erase_insert hfresh, h.new,
      if_neg (by simp), add_zero]
    refine holders_congr fun z hz => ?_
    rw [h.link fun heq => hfresh (heq ▸ hz)]
  -- each pointer of super blocks counts one more place
  have hplace : ∀ f f' : Nat → Option Nat, (∀ s ∈ fs.mounted, f' s = f s) →
      holders fs'.mounted f' y =
        holders fs.mounted f y + if f' fs.nextSb = some y then 1 else 0 := by
    intro f f' hf
    rw [h.mounted, holders_eq_erase _ (mem_insert_self _ _), erase_insert hs,
      holders_congr hf]
  rw [Vfs.pointers, Vfs.pointers, hparents,
    hplace (fun s => (fs.sb s).mountpoint) (fun s => (fs'.sb s).mountpoint)
      fun s hs => by rw [h.sb_old (hsne s hs)],
    hplace (fun s => (fs.sb s).root) (fun s => (fs'.sb s).root)
      fun s hs => by rw [h.sb_old (hsne s hs)],
    hplace (fun s => (fs.sb s).part.bind fun q => (fs.part q).fsDentry)
      (fun s => (fs'.sb s).part.bind fun q => (fs'.part q).fsDentry)
      fun s hs => by rw [h.sb_old (hsne s hs), funext h.part],
    hroot, hpoint, hpart, bind_some, h.part, hdev]
  simp only [some_inj, eq_comm (b := y)]
  omega

end

end Grafted

theorem Inv.graft_counted (hinv : Inv fs debt (m ::ₘ dev ::ₘ held)) (h : Grafted fs fs' m q)
    (hdev : (fs.part q).fsDentry = some dev) :
    Counted fs' fs'.dentries fs'.mounted debt held := by
  have hcounted := hinv.counted
  have hfresh : fs.next ∉ fs.dentries := fun hmem => (Fs.mem_dentries.mp hmem).1.false
  have hdom := hinv.dentries_new h.next h.freed
  have hpointers := h.pointers hinv hdev
  have hm : m ∈ fs.dentries := hinv.mem_dentries
  have hdevmem : dev ∈ fs.dentries := hcounted.held dev (by simp)
  have hne : ∀ y ∈ fs.dentries, y ≠ fs.next := fun y hy heq => hfresh (heq ▸ hy)
  have hold : ∀ y ∈ fs'.dentries, y ≠ fs.next → y ∈ fs.dentries := fun y hy hyn =>
    (mem_insert.mp (hdom ▸ hy)).resolve_left hyn
  have hlent : ∀ y ∈ debt.lent, y < fs'.next ∧ ((fs'.dentry y).blockDev ∨ (fs'.dentry y).charDev) :=
    hcounted.lent_congr (by rw [h.next]; exact le_succ _) fun y hy => by
      rw [h.link hy.ne]
      exact ⟨rfl, rfl⟩
  refine ⟨fun y hy => ?_, fun y hy => ?_, fun y hy => ?_, fun y hy => ?_, fun y hy => ?_, hlent,
    h.freed ▸ hcounted.log, fun y hy => ?_, hdom ▸ .insert (hcounted.cache.congr h.cacheList
      (fun y hy => (h.refcount (hne y hy)).2) (fun y hy => by rw [h.link (hne y hy)])
      fun y hy hy0 => hcounted.cache.zero y hy ((h.refcount (hne y hy)).1 ▸ hy0)) hfresh
      (by rw [h.new]) (by rw [h.new]; exact one_ne_zero)⟩
  · exact (Fs.mem_dentries.mp hy).1
  · by_cases hyn : y = fs.next
    · subst hyn
      have hzero : Vfs.pointers fs fs.dentries fs.mounted fs.next = 0 := by
        by_contra hne
        exact hfresh (hcounted.pointed _ hne)
      have hnotheld : held.count fs.next = 0 := count_eq_zero.mpr fun hmem =>
        hfresh (hcounted.held _ (mem_cons_of_mem (mem_cons_of_mem hmem)))
      have hnotleaked : fs.next ∉ debt.leaked := fun hmem => hfresh (hcounted.leaked _ hmem)
      rw [refs, hpointers, hzero, h.new, h.root, if_neg (hne _ hinv.shape.rootGood.1).symm,
        if_neg hnotleaked, hnotheld, if_neg (hne m hm).symm, if_pos rfl,
          if_neg (hne dev hdevmem).symm]
      simp
    · have hcount := hcounted.count y (hold y hy hyn)
      rw [refs, count_cons, count_cons] at hcount
      rw [(h.refcount hyn).1, hcount, refs, hpointers, h.link hyn, h.root, if_neg hyn]
      push_cast
      omega
  · rw [hdom]
    rw [hpointers] at hy
    by_cases hyn : y = fs.next
    · exact hyn ▸ mem_insert_self _ _
    refine mem_insert_of_mem ?_
    by_cases hym : y = m
    · exact hym ▸ hm
    by_cases hyd : y = dev
    · exact hyd ▸ hdevmem
    rw [if_neg hym, if_neg hyn, if_neg hyd] at hy
    exact hcounted.pointed y hy
  · rw [hdom]
    exact mem_insert_of_mem (hcounted.held y (mem_cons_of_mem
      (mem_cons_of_mem hy)))
  · rw [hdom]
    exact mem_insert_of_mem (hcounted.leaked y hy)
  · obtain ⟨hy, hlt⟩ := hcounted.freed y (h.freed ▸ hy)
    rw [hdom, mem_insert, h.next]
    exact ⟨fun hmem => hmem.elim (fun heq => by omega) hy, lt_succ_of_lt hlt⟩

theorem Grafted.linked_new (h : Grafted fs fs' m q) :
    Linked fs' fs'.dentries fs'.mounted fs.next := by
  constructor <;> simp only [h.new, h.nextInode]
  · intro p hp
    cases hp
  · exact fun _ => .inr ⟨fs.nextSb, h.mounted ▸ mem_insert_self _ _, h.sb_new.1⟩
  · intro c hc
    cases hc
  · exact List.nodup_nil
  · refine ⟨fs.nextInode, lt_succ_self _, rfl, ?_⟩
    rw [h.newSb]
  · intro s hs
    cases hs
  · rfl
  · intro hb
    cases hb

section

variable (h : Grafted fs fs' m q) (hinv : Inv fs debt held)
include h hinv

theorem Grafted.good (hd : d ≠ fs.next) :
    fs'.Good d ↔ fs.Good d := by
  have hdom := hinv.dentries_new h.next h.freed
  unfold Fs.Good Good
  rw [hdom, h.mounted, h.link hd, mem_insert]
  constructor
  · rintro ⟨hmem, hdel, s, hs, hin⟩
    have hmem := hmem.resolve_left hd
    have hlt := hinv.bound d hmem s hin
    exact ⟨hmem, hdel, s, (mem_insert.mp hs).resolve_left hlt.ne, hin⟩
  · rintro ⟨hmem, hdel, s, hs, hin⟩
    exact ⟨.inr hmem, hdel, s, mem_insert_of_mem hs, hin⟩

theorem Grafted.good_new :
    fs'.Good fs.next := by
  have hdom := hinv.dentries_new h.next h.freed
  unfold Fs.Good Good
  rw [hdom, h.mounted, h.new]
  exact ⟨mem_insert_self _ _, rfl, fs.nextSb, mem_insert_self _ _, rfl⟩

theorem Grafted.inodeOf (hd : fs.Good d) :
    (fs'.inodeOf d).toAttr = (fs.inodeOf d).toAttr := by
  obtain ⟨i, hi, hinode, -⟩ := (hinv.shape.linked d hd).inode
  unfold Fs.inodeOf
  rw [h.link (ne_next_of_good hd), hinode]
  exact h.attr i hi

theorem Grafted.linked (hd : fs.Good d) : Linked fs' fs'.dentries fs'.mounted d := by
  have hlinked := hinv.shape.linked d hd
  have hsne : ∀ s ∈ fs.mounted, s ≠ fs.nextSb := fun s hs => (hinv.shape.lt s hs).ne
  have hmem : ∀ s ∈ fs.mounted, s ∈ fs'.mounted := fun s hs =>
    h.mounted ▸ mem_insert_of_mem hs
  have hold : ∀ {y}, fs.Good y → fs'.Good y := fun hy => (h.good hinv (ne_next_of_good hy)).mpr hy
  have hlink : ∀ {y}, fs.Good y → (fs'.dentry y).toLink = _ := fun hy => h.link (ne_next_of_good hy)
  obtain ⟨i, hi, hinode, hsb⟩ := hlinked.inode
  constructor <;> simp only [hlink hd, h.root, h.inodeOf hinv hd, h.part]
  · intro p hp
    obtain ⟨hp, hin, hmem⟩ := hlinked.parent p hp
    rw [hlink hp]
    exact ⟨hold hp, hin, hmem⟩
  · intro htop
    refine (hlinked.top htop).imp_right fun ⟨s, hs, htop⟩ => ⟨s, hmem s hs, ?_⟩
    rw [h.sb_old (hsne s hs), htop]
  · intro c hc
    obtain ⟨hc, hparent, hin⟩ := hlinked.children c hc
    rw [hlink hc]
    exact ⟨hold hc, hparent, hin⟩
  · exact hlinked.nodup
  · refine ⟨i, h.nextInode ▸ lt_succ_of_lt hi, hinode, ?_⟩
    rw [h.attr i hi]
    exact hsb
  · intro s hs
    split at hs
    · next hdm =>
      cases hs
      exact ⟨h.mounted ▸ mem_insert_self _ _, hdm ▸ h.sb_new.2.1⟩
    · obtain ⟨hs, hpoint⟩ := hlinked.mount s hs
      exact ⟨hmem s hs, (h.sb_old (hsne s hs)).symm ▸ hpoint⟩
  · split
    · rfl
    · exact hlinked.flag
  · exact hlinked.device

section

variable (hm : fs.Good m)
include hm

theorem Grafted.mounted_new (hbelow : (fs.dentry m).parent ≠ none)
    (hdir : isDir (fs.inodeOf m).mode = true) (hdev : (fs.part q).fsDentry ≠ none) :
    Mounted fs' fs'.dentries fs'.mounted fs.nextSb fs.next m := by
  obtain ⟨hroot, hpoint, hpart⟩ := h.sb_new
  refine ⟨hroot, h.good_new hinv, ?_, ?_, hpoint, (h.good hinv (ne_next_of_good hm)).mpr hm, ?_, ?_,
    ?_, fun heq => ?_, fun q' hq' => ?_, fun q' hq' => ?_⟩
  · rw [h.new]
  · rw [h.new]
  · rw [h.point]
  · rw [h.point]
    exact hbelow
  · rw [h.inodeOf hinv hm]
    exact hdir
  · -- the new super block is not the one of devfs
    have := hinv.shape.two
    rw [heq] at this
    exact absurd this (by decide)
  · rw [hpart, some_inj] at hq'
    rw [h.part, ← hq']
    exact hdev
  · rw [hpart, some_inj] at hq'
    rw [← hq']
    exact h.owner

theorem Grafted.mounted_old {s r m' : Nat} (hs : s ∈ fs.mounted)
    (hm' : Mounted fs fs.dentries fs.mounted s r m') (hpoint : (fs.dentry m).mountpoint = false)
    (hunused : (fs.part q).mountedSb = none) : Mounted fs' fs'.dentries fs'.mounted s r m' := by
  have hold : ∀ {y}, fs.Good y → fs'.Good y := fun hy => (h.good hinv (ne_next_of_good hy)).mpr hy
  have hlink : ∀ {y}, fs.Good y → (fs'.dentry y).toLink = _ := fun hy => h.link (ne_next_of_good hy)
  have hmne : m' ≠ m := by
    rintro rfl
    have hflag := (hinv.shape.linked m' hm).flag
    rw [hpoint, hm'.here] at hflag
    cases hflag
  refine hm'.carry (h.sb_old (hinv.shape.lt s hs).ne) h.root ⟨hold hm'.rootGood, ?_, ?_⟩
    ⟨hold hm'.mountpointGood, ?_, ?_, ?_⟩ fun q' hq' => ⟨h.part q', ?_⟩
  · rw [hlink hm'.rootGood]
  · rw [hlink hm'.rootGood]
  · rw [hlink hm'.mountpointGood]
    exact if_neg hmne
  · rw [hlink hm'.mountpointGood]
  · rw [h.inodeOf hinv hm'.mountpointGood]
  · have howner := hm'.owner q' hq'
    rw [h.otherPart q' fun heq => by rw [heq, hunused] at howner; cases howner]

theorem Inv.graft_shape (hpoint : (fs.dentry m).mountpoint = false)
    (hbelow : (fs.dentry m).parent ≠ none) (hdir : isDir (fs.inodeOf m).mode = true)
    (hdev : (fs.part q).fsDentry ≠ none) (hunused : (fs.part q).mountedSb = none) :
    Shape fs' fs'.dentries fs'.mounted := by
  have hshape := hinv.shape
  have hrootNew : fs.root ≠ fs.next := ne_next_of_good hshape.rootGood
  refine ⟨fun d hd => ?_, fun s hs hne => ?_, h.mounted ▸ mem_insert_of_mem hshape.rootLive, ?_,
    h.root ▸ (h.good hinv hrootNew).mpr hshape.rootGood, ?_, ?_, fun s hs => ?_, ?_⟩
  · by_cases hdn : d = fs.next
    · exact hdn ▸ h.linked_new
    · exact h.linked hinv ((h.good hinv hdn).mp hd)
  · rw [h.mounted, mem_insert] at hs
    rcases hs with rfl | hs
    · exact ⟨_, _, h.mounted_new hinv hm hbelow hdir hdev⟩
    · obtain ⟨r, m', hm'⟩ := hshape.mounted s hs hne
      exact ⟨r, m', h.mounted_old hinv hm hs hm' hpoint hunused⟩
  · rw [h.sb_old (hshape.lt _ hshape.rootLive).ne]
    exact hshape.rootNone
  · rw [h.root, h.link hrootNew]
    exact hshape.rootIn
  · rw [h.root, h.link hrootNew]
    exact hshape.rootTop
  · rw [h.nextSb]
    rw [h.mounted, mem_insert] at hs
    rcases hs with rfl | hs
    · exact lt_succ_self _
    · exact lt_succ_of_lt (hshape.lt s hs)
  · have := hshape.two
    rw [h.nextSb]
    omega

end

theorem Grafted.bound : fs'.Bound := by
  have hdom := hinv.dentries_new h.next h.freed
  intro d hd s hs
  rw [h.nextSb]
  by_cases hdn : d = fs.next
  · rw [hdn, h.new, some_inj] at hs
    omega
  · rw [hdom] at hd
    rw [h.link hdn] at hs
    exact lt_succ_of_lt (hinv.bound d ((mem_insert.mp hd).resolve_left hdn) s hs)

end

/-! ## `__vfs_mount_locked` -/

theorem Grafted.inodePut (h : Grafted fs fs' m q) (i : Nat) :
    Grafted fs (fs'.inodePut o i) m q := by
  have hsame : Same fs' (fs'.inodePut o i) := same_inodePut
  refine ⟨?_, ?_, fun y hy hym => ?_, hsame.next ▸ h.next, hsame.nextInode ▸ h.nextInode,
    fun j hj => (hsame.attr j).trans (h.attr j hj), ?_, hsame.sb ▸ h.sb, hsame.nextSb ▸ h.nextSb,
    hsame.part ▸ h.part, hsame.part ▸ h.owner, hsame.part ▸ h.otherPart,
      hsame.mountList ▸ h.mountList, hsame.fsRef ▸ h.fsRef, hsame.root ▸ h.root,
    ?_, ?_⟩
  · rw [dentry_inodePut, h.new]
  · rw [dentry_inodePut, h.point]
  · rw [dentry_inodePut, h.other y hy hym]
  · rw [hsame.attr]
    exact h.newSb
  · rw [freed_inodePut, h.freed]
  · rw [cacheList_inodePut, h.cacheList]

/-- The state with a new super block that is not mounted yet. -/
def Fs.withSb (fs : Fs β) (q : Nat) (fsType : Nat) : Fs β :=
  ({ fs with
    sb := update fs.sb fs.nextSb ⟨fsType, none, none, some q⟩
    fsRef := update fs.fsRef fs.nextSb 0
    nextSb := fs.nextSb + 1 }).modifyPart q fun x => { x with mountedSb := some fs.nextSb }

attribute [local simp] sbGet_eq setInMnt dentryCreate withSb modifySb modifyPart
  inodeGet modifyInode Fs.modify in
theorem grafted_mountRoot (hinv : Inv fs debt held) (hm : fs.Good m) (fsType : Nat) (b : β)
    (new : NewInode) :
    Grafted fs (mountRoot o { fs.withSb q fsType with backend := b } (some q) m fs.nextSb new)
      m q := by
  have hmn : m ≠ fs.next := ne_next_of_good hm
  obtain ⟨i, hi, hinode, -⟩ := (hinv.shape.linked m hm).inode
  refine Grafted.inodePut ?_ _
  refine ⟨?_, ?_, fun y hy hym => ?_, rfl, rfl, fun j hj => ?_, ?_, ⟨fsType, ?_⟩, rfl,
    fun q' => ?_, ?_, fun q' hq' => ?_, rfl, ?_, rfl, rfl, rfl⟩
  · simp [Ne.symm hmn]
  · simp [hmn]
  · simp [hy, hym]
  · simp [hj.ne]
  · simp
  · simp
  · simp [update_apply]
    grind
  · simp
  · simp [hq']
  · simp [Fs.inodeOf, hinode, hmn, hi.ne]

theorem Inv.withSb {q : Nat} (h : Inv fs debt held) (hunused : (fs.part q).mountedSb = none)
    (fsType : Nat) : Done fs (fs.withSb q fsType) debt held := by
  have hs : ∀ s ∈ fs.mounted, s ≠ fs.nextSb := fun s hmem => (h.shape.lt s hmem).ne
  have hsb : ∀ s ∈ fs.mounted, (fs.withSb q fsType).sb s = fs.sb s := fun s hmem =>
    update_of_ne (hs s hmem) _ _
  have hpart : ∀ q', ((fs.withSb q fsType).part q').fsDentry = (fs.part q').fsDentry := by
    intro q'
    show (update fs.part q _ q').fsDentry = _
    rw [update_apply]
    split
    · next heq => rw [heq]
    · rfl
  have howner : ∀ s ∈ fs.mounted, ∀ q', (fs.sb s).part = some q' →
      ((fs.withSb q fsType).part q').mountedSb = (fs.part q').mountedSb := by
    intro s hmem q' hq'
    have hmounted := h.shape.owner s hmem q' hq'
    have hne : q' ≠ q := by
      rintro rfl
      rw [hunused] at hmounted
      cases hmounted
    show (update fs.part q _ q').mountedSb = _
    rw [update_of_ne hne]
  have hinv : Inv (fs.withSb q fsType) debt held :=
    ⟨h.counted.congr_parents rfl hsb hpart rfl (fun _ => ⟨rfl, rfl, rfl, rfl, rfl, rfl⟩) rfl rfl,
      h.shape.agree ⟨fun _ => Iff.rfl, fun _ _ => rfl, fun _ _ => rfl, le_rfl, hsb, le_succ _,
        hpart, rfl, howner⟩, h.bound.congr subset_rfl (le_succ _) fun _ _ => rfl⟩
  exact ⟨hinv, ⟨le_rfl, fun _ _ => rfl, fun _ _ hdel => hdel, fun _ _ hdir => hdir, hsb, rfl⟩,
    fun s hmem => update_of_ne (hs s hmem) _ _⟩

theorem Done.backend (h : Done fs fs' debt held) (b : β) :
    Done fs { fs' with backend := b } debt held :=
  ⟨((Settled.refl h.inv).backend b).inv, { h.keeps with }, h.fsRef⟩

theorem Done.mountFailed (h : Done fs fs' debt (m ::ₘ held)) (s : Nat) :
    Done fs (fs'.mountFailed o m s) debt held := by
  unfold Fs.mountFailed
  split
  · exact (h.backend _).put
  · exact h.put

/-- A file system `s` has been mounted on a directory of `t`. -/
structure Grown (fs fs' : Fs β) (held : Multiset Nat) (s t : Nat) : Prop where
  next : fs.next ≤ fs'.next
  inMnt : ∀ d < fs.next, (fs'.dentry d).inMnt = (fs.dentry d).inMnt
  deleted : ∀ d < fs.next, (fs.dentry d).deleted = true → (fs'.dentry d).deleted = true
  dir : ∀ d ∈ held, fs.Dir d → fs'.Dir d
  sb : ∀ u ∈ fs.mounted, fs'.sb u = fs.sb u
  mounted : fs'.mounted = insert s fs.mounted
  new : s ∉ fs.mounted
  fresh : ∀ d ∈ held, (fs.dentry d).inMnt ≠ some s
  mountpoint : ∃ m, (fs'.sb s).mountpoint = some m ∧ (fs'.dentry m).inMnt = some t
  parent : t ∈ fs.mounted
  fsRef : ∀ u ∈ fs.mounted, fs'.fsRef u = fs.fsRef u + if u = t then 1 else 0
  zero : fs'.fsRef s = 0

/-- The outcomes of `sys_mount`, of `__vfs_mount_locked` with the device among the references that
are held, and of `vfs_mount`, which is lent one. -/
inductive MountResult (fs : Fs β) (debt debt' : Debt) (held held' : Multiset Nat) :
    Fs β × Bool → Prop
  | failed {fs' : Fs β} (done : Done fs fs' debt held) :
      MountResult fs debt debt' held held' (fs', false)
  | mounted {fs' : Fs β} {s t : Nat} (inv : Inv fs' debt' held') (grown : Grown fs fs' held' s t)
      (kept : ∀ d ∈ held, d ∈ fs'.dentries) : MountResult fs debt debt' held held' (fs', true)

theorem Grafted.grown {held₀ held' : Multiset Nat} (h : Grafted fs' fs'' m q)
    (hsettled : Settled fs fs' debt held') (hinv : Inv fs debt held₀) (hsub₀ : held ≤ held₀)
    (hsub : held ≤ held') (hm : fs'.Good m) :
    Grown fs fs'' held fs'.nextSb (fs'.inodeOf m).sb := by
  have hframe := hsettled.frame
  have hne : ∀ d < fs.next, d ≠ fs'.next := fun d hd => by have := hframe.next; omega
  have hin := hsettled.inv.inMnt_eq hm
  have htlive : (fs'.inodeOf m).sb ∈ fs'.mounted := by
    obtain ⟨s, hs, hins⟩ := hm.2.2
    rw [hin, some_inj] at hins
    exact hins ▸ hs
  have hlt := hsettled.inv.shape.lt
  refine ⟨?_, fun d hd => ?_, fun d hd hdel => ?_, fun d hd hdir => ?_, fun u hu => ?_, ?_, ?_,
    fun d hd hin' => ?_, ⟨m, h.sb_new.2.1, ?_⟩, hframe.mounted ▸ htlive, fun u hu => ?_, ?_⟩
  · rw [h.next]
    exact le_succ_of_le hframe.next
  · rw [h.link (hne d hd)]
    exact hframe.inMnt d hd
  · rw [h.link (hne d hd)]
    exact (hframe.deleted d hd).trans hdel
  · have hdir' := hframe.dir hinv hdir (hsettled.inv.counted.held d (mem_of_le hsub hd))
    refine ⟨(h.good hsettled.inv (ne_next_of_good hdir'.1)).mpr hdir'.1, ?_⟩
    rw [h.inodeOf hsettled.inv hdir'.1]
    exact hdir'.2
  · rw [h.sb_old (hlt u (hframe.mounted ▸ hu)).ne, hframe.sb]
  · rw [h.mounted, hframe.mounted]
  · rw [← hframe.mounted]
    exact fun hmem => (hlt _ hmem).false
  · have hd := hinv.counted.held d (mem_of_le hsub₀ hd)
    have := hinv.bound d hd _ hin'
    rw [hframe.nextSb] at this
    exact this.false
  · rw [h.point]
    exact hin
  · have hu' : u ≠ fs'.nextSb := (hlt u (hframe.mounted ▸ hu)).ne
    rw [h.fsRef, ← hframe.fsRef]
    simp only [addRef, update_apply, if_neg hu']
    split
    · next heq => rw [if_neg (heq ▸ hu'), heq]
    · rw [add_zero]
  · rw [h.fsRef]
    simp only [addRef, update_apply]
    rw [if_neg (hlt _ htlive).ne', if_pos trivial]

/-- An empty directory that is not the root of a mounted file system is below another one, as
devfs is mounted below the root of the name space. -/
theorem Inv.parent_ne_none (h : Inv fs debt held) (hdevfs : devfsSb ∈ fs.mounted) (hm : fs.Good m)
    (hempty : (fs.dentry m).children = [])
    (hroot : ∀ s, (fs.dentry m).inMnt = some s → (fs.sb s).root ≠ some m) :
    (fs.dentry m).parent ≠ none := by
  intro htop
  rcases (h.shape.linked m hm).top htop with heq | ⟨s, hs, heq⟩
  · obtain ⟨r, m', hm'⟩ := h.shape.mounted devfsSb hdevfs (by decide)
    have hchild := ((h.shape.linked m' hm'.mountpointGood).parent _ (hm'.devfs rfl)).2.2
    rw [← heq, hempty] at hchild
    cases hchild
  · by_cases hne : s = rootSb
    · rw [hne, h.shape.rootNone.1] at heq
      cases heq
    · obtain ⟨r, m', hm'⟩ := h.shape.mounted s hs hne
      obtain rfl : r = m := some_inj.mp (hm'.root.symm.trans heq)
      exact hroot s hm'.rootIn heq

theorem Inv.vfsMountLocked (h : Inv fs debt (dev ::ₘ held))
    (hdev : (fs.part q).fsDentry = some dev) (hdevfs : devfsSb ∈ fs.mounted) (path : Path)
    (fstype : Nat) :
    MountResult fs debt debt (dev ::ₘ held) held (fs.vfsMountLocked o (some q) path fstype) := by
  obtain ⟨harrives, hpoint⟩ := h.lookupLocked (o := o) none
    (fun d hd => by cases hd) path
  have hsettled := (Settled.refl h).arrives harrives
  unfold Fs.vfsMountLocked
  split
  · next fs₁ hlookup =>
    rw [hlookup] at hsettled
    exact .failed (hsettled.done h)
  · next fs₁ m hlookup =>
    rw [hlookup] at hsettled harrives hpoint
    rw [elim_some] at hsettled
    have hm := harrives.good m rfl
    have hpoint := hpoint m rfl
    dsimp only at hm hpoint ⊢
    have hfailed : ∀ b, (b, false) = (fs₁.dentryPut o m, false) →
        MountResult fs debt debt (dev ::ₘ held) held (b, false) := by
      rintro b hb
      cases hb
      exact .failed (hsettled.put.done h)
    split
    · exact hfailed _ rfl
    split
    · exact hfailed _ rfl
    next hdir =>
    split
    · exact hfailed _ rfl
    next hroot =>
    split
    · exact hfailed _ rfl
    next hempty =>
    split
    · exact hfailed _ rfl
    next hbusy =>
    have hunused : (fs₁.part q).mountedSb = none := by simpa using hbusy
    have hnode : (fs₁.part q).fsDentry = some dev := hsettled.frame.part ▸ hdev
    have hbelow := hsettled.inv.parent_ne_none (hsettled.frame.mounted ▸ hdevfs) hm
      (Decidable.not_not.mp hempty) fun s hin heq => by
        rw [hin] at hroot
        exact hroot (decide_eq_true heq)
    have hwith : Done fs₁ (fs₁.withSb q (fs₁.part q).partType) debt (m ::ₘ dev ::ₘ held) :=
      hsettled.inv.withSb hunused _
    have hfail : ∀ b, Done fs
        (Fs.mountFailed o { fs₁.withSb q (fs₁.part q).partType with backend := b }
          m fs₁.nextSb) debt
        (dev ::ₘ held) := fun b =>
      hsettled.done_trans h (le_cons_self _ _) ((hwith.backend b).mountFailed _)
    split
    · exact .failed (hfail _)
    generalize o.readRootInode _ _ _ = found
    obtain ⟨b, new⟩ := found
    cases new with
    | none => exact .failed (hfail b)
    | some new =>
      have hgraft := grafted_mountRoot (o := o) (q := q) hsettled.inv hm (fs₁.part q).partType b new
      have hinv' : Inv _ debt held := ⟨hsettled.inv.graft_counted hgraft hnode,
        hsettled.inv.graft_shape hgraft hm hpoint hbelow (Bool.eq_true_of_not_eq_false hdir)
          (by rw [hnode]; exact some_ne_none _) hunused, hgraft.bound hsettled.inv⟩
      have hdom := hsettled.inv.dentries_new hgraft.next hgraft.freed
      refine .mounted hinv' (hgraft.grown hsettled h (le_cons_self _ _)
        ((le_cons_self _ _).trans (le_cons_self _ _)) hm) fun d hd => ?_
      have hmem := hsettled.inv.counted.held d (mem_cons_of_mem hd)
      exact hdom.ge (mem_insert_of_mem hmem)

/-- Lookups before the mount, and a change of counts behind it. -/
theorem Grown.wrap {s t : Nat} {fs₁ fs₂ : Fs β} {held' : Multiset Nat} (h : Grown fs₁ fs₂ held s t)
    (hsettled : Settled fs fs₁ debt held') (hinv : Inv fs debt held) (hsub : held ≤ held')
    (hsame : Same fs₂ fs') (hinv₂ : Inv fs₂ debt held) (hinv' : Inv fs' debt held) :
    Grown fs fs' held s t := by
  have hframe := hsettled.frame
  have hmounted := hframe.mounted
  refine ⟨?_, fun d hd => ?_, fun d hd hdel => ?_, fun d hd hdir => ?_, fun u hu => ?_, ?_, ?_,
    fun d hd hin => ?_, ?_, hmounted ▸ h.parent, fun u hu => ?_, ?_⟩
  · rw [hsame.next]
    exact hframe.next.trans h.next
  · rw [hsame.inMnt, h.inMnt d (hd.trans_le hframe.next), hframe.inMnt d hd]
  · rw [hsame.deleted]
    exact h.deleted d (hd.trans_le hframe.next) ((hframe.deleted d hd).trans hdel)
  · have hdir₁ := hframe.dir hinv hdir (hsettled.inv.counted.held d (mem_of_le hsub hd))
    exact (Frame.of_same hsame).dir hinv₂ (h.dir d hd hdir₁) (hinv'.counted.held d hd)
  · rw [hsame.sb, h.sb u (hmounted ▸ hu), hframe.sb]
  · rw [hsame.mounted, h.mounted, hmounted]
  · exact hmounted ▸ h.new
  · rw [← hframe.inMnt d (Fs.mem_dentries.mp (hinv.counted.held d hd)).1] at hin
    exact h.fresh d hd hin
  · obtain ⟨m, hm, hin⟩ := h.mountpoint
    exact ⟨m, hsame.sb ▸ hm, (hsame.inMnt m).trans hin⟩
  · rw [hsame.fsRef, h.fsRef u (hmounted ▸ hu), hframe.fsRef]
  · rw [hsame.fsRef, h.zero]

theorem Inv.sysMount (h : Inv fs debt held) (hcwd : fs.Good cwd) (devPath toPath : Path) :
    MountResult fs debt debt held held (fs.sysMount o cwd devPath toPath) := by
  obtain ⟨harrives, -⟩ := h.lookupLocked (o := o) (some cwd)
    (fun d hd => by cases hd; exact hcwd) devPath
  have hsettled := (Settled.refl h).arrives harrives
  unfold Fs.sysMount
  split
  · next fs₁ hlookup =>
    rw [hlookup] at hsettled
    exact .failed (hsettled.done h)
  · next fs₁ dev hlookup =>
    rw [hlookup] at hsettled harrives
    rw [elim_some] at hsettled
    have hdev := harrives.good dev rfl
    dsimp only at hsettled hdev ⊢
    split
    · exact .failed (hsettled.put.done h)
    next hblock =>
    split
    · exact .failed (hsettled.put.done h)
    split
    · exact .failed (hsettled.put.done h)
    obtain ⟨hin, hnode⟩ := (hsettled.inv.shape.linked dev hdev).device
      (Bool.eq_true_of_not_eq_false hblock)
    have hdevfs : devfsSb ∈ fs₁.mounted := by
      obtain ⟨s, hs, hins⟩ := hdev.2.2
      rw [hin, some_inj] at hins
      exact hins ▸ hs
    have hresult := hsettled.inv.vfsMountLocked (o := o) hnode hdevfs toPath 0
    generalize fs₁.vfsMountLocked o (some (fs₁.inodeOf dev).priv) toPath 0 = r at hresult
    cases hresult with
    | failed hdone =>
      exact .failed (hsettled.done_trans h (le_cons_self _ _) hdone.put)
    | mounted hinv hgrown hkept =>
      have hget := hinv.dentryGet (hkept dev (mem_cons_self _ _))
      obtain ⟨hput, hsame⟩ := hget.dentryPut (o := o)
      exact .mounted hput (hgrown.wrap hsettled h (le_cons_self _ _)
        (same_dentryGet.trans hsame) hinv hput) hput.counted.held

/-! ## `vfs_mount` -/

section Lend

variable {dom live : Finset Nat}

theorem refs_lend (hdevice : (fs.dentry d).blockDev ∨ (fs.dentry d).charDev) (hnew : d ∉ debt.lent)
    (y : Nat) : refs fs dom live (debt.lend d) y + (if y = d then 1 else 0) =
      refs fs dom live debt y := by
  unfold refs
  by_cases hy : y = d
  · subst hy
    have hlent : y ∈ (debt.lend y).lent := Finset.mem_insert_self _ _
    have hleaked : (debt.lend y).leaked = debt.leaked := rfl
    simp only [hlent, hnew, hdevice, hleaked, not_true, not_false_iff, and_true, and_false, if_true,
      if_false]
    omega
  · have hlent : y ∈ (debt.lend d).lent ↔ y ∈ debt.lent := by simp [Debt.lend, hy]
    rw [if_neg hy, add_zero, if_congr (and_congr_right' (not_congr hlent)) rfl rfl]
    rfl

/-- The reference of a device to its own node is used for something else. -/
theorem Counted.lend (h : Counted fs dom live debt held) (hd : d ∈ dom)
    (hdevice : (fs.dentry d).blockDev ∨ (fs.dentry d).charDev) (hnew : d ∉ debt.lent) :
    Counted fs dom live (debt.lend d) (d ::ₘ held) := by
  refine { h with count := fun y hy => ?_, held := fun y hy => ?_, lent := fun y hy => ?_ }
  · rw [h.count y hy, ← refs_lend hdevice hnew, count_cons]
    omega
  · rcases mem_cons.mp hy with rfl | hy
    · exact hd
    · exact h.held y hy
  · rcases Finset.mem_insert.mp hy with rfl | hy
    · exact ⟨h.lt y hd, hdevice⟩
    · exact h.lent y hy

theorem Counted.unlend (h : Counted fs dom live (debt.lend d) (d ::ₘ held)) (hnew : d ∉ debt.lent) :
    Counted fs dom live debt held := by
  have hdevice := (h.lent d (Finset.mem_insert_self _ _)).2
  refine { h with
    count := fun y hy => ?_
    held := fun y hy => h.held y (mem_cons_of_mem hy)
    lent := fun y hy => h.lent y (Finset.mem_insert_of_mem hy) }
  rw [h.count y hy, ← refs_lend hdevice hnew y, count_cons]
  omega

end Lend

/-- A device that is mounted without a reference to its node keeps the one that it has. -/
theorem Inv.vfsMount (h : Inv fs debt held) (hdev : (fs.part q).fsDentry = some dev)
    (hmem : dev ∈ fs.dentries) (hblock : (fs.dentry dev).blockDev = true) (hnew : dev ∉ debt.lent)
    (hdevfs : devfsSb ∈ fs.mounted) (path : Path) (fstype : Nat) :
    MountResult fs debt (debt.lend dev) held held (fs.vfsMount o (some q) path fstype) := by
  have hlent : Inv fs (debt.lend dev) (dev ::ₘ held) :=
    ⟨h.counted.lend hmem (.inl hblock) hnew, h.shape, h.bound⟩
  have hresult := hlent.vfsMountLocked (o := o) hdev hdevfs path fstype
  unfold Fs.vfsMount
  generalize fs.vfsMountLocked o (some q) path fstype = r at hresult
  cases hresult with
  | failed hdone =>
    obtain ⟨hinv, hkeeps, hfsRef⟩ := hdone
    exact .failed ⟨⟨hinv.counted.unlend hnew, hinv.shape, hinv.bound⟩,
      { hkeeps with dir := fun d hd => hkeeps.dir d (mem_cons_of_mem hd) }, hfsRef⟩
  | mounted hinv hgrown hkept =>
    exact .mounted hinv hgrown fun d hd => hkept d (mem_cons_of_mem hd)

/-! ## Devices -/

/-- A device gets its dentry once, while devfs is mounted. -/
structure CanRegister (fs : Fs β) (root priv : Nat) (block : Bool) : Prop where
  mounted : devfsSb ∈ fs.mounted
  root : (fs.sb devfsSb).root = some root
  new : block = true → (fs.part priv).fsDentry = none

theorem Attached.done {p : Nat} {x : Dentry} (h : Attached fs fs' p x) (hinv : Inv fs debt held)
    (hinv' : Inv fs' debt held) (hfsRef : fs'.fsRef = fs.fsRef) : Done fs fs' debt held := by
  refine ⟨hinv', ⟨by rw [h.next]; exact le_succ _, fun d hd => ?_, fun d hd hdel => ?_,
    fun d hd hdir => ?_, fun s _ => congrFun h.sb s, h.mounted⟩, fun s _ => congrFun hfsRef s⟩
  · rw [h.link hd.ne]
  · rw [h.link hd.ne]
    exact hdel
  · have hne := ne_next_of_good hdir.1
    obtain ⟨i, hi, hinode, -⟩ := (hinv.shape.linked d hdir.1).inode
    refine ⟨(h.good_old hinv hne).mpr hdir.1, ?_⟩
    rw [h.inodeOf hne hi hinode]
    exact hdir.2

attribute [local simp] deviceNode dentrySetParent listAddTail setParent dentryGet
  Fs.modify setInMnt dentryCreate inodeGet modifyInode in
theorem attached_addDevice {root priv : Nat} (name : Name) (mode : Nat) {block : Bool}
    (hroot : root ≠ fs.next) (hin : (fs.dentry root).inMnt = some devfsSb)
    (hnew : block = true → (fs.part priv).fsDentry = none) :
    let x : Dentry := {
      name := name, inode := some fs.nextInode, parent := some root, children := [],
      mountpoint := false, blockDev := block, charDev := !block, deleted := false,
      mountedHere := none, inMnt := some devfsSb, refcount := 1, inCacheList := false }
    Attached fs (fs.addDevice devfsSb root name mode priv block) root x ∧
      NewBelow fs (fs.addDevice devfsSb root name mode priv block) root x := by
  intro x
  have hfields : ∀ fs', fs' = fs.addDevice devfsSb root name mode priv block →
      fs'.dentry = (fs.deviceNode devfsSb root name mode priv block).dentry ∧
      fs'.inode = (fs.deviceNode devfsSb root name mode priv block).inode ∧
      fs'.next = fs.next + 1 ∧ fs'.nextInode = fs.nextInode + 1 ∧ fs'.sb = fs.sb ∧
      fs'.nextSb = fs.nextSb ∧ fs'.mountList = fs.mountList ∧ fs'.root = fs.root ∧
      fs'.freed = fs.freed ∧ fs'.cacheList = fs.cacheList := by
    rintro fs' rfl
    cases block <;> exact ⟨rfl, rfl, rfl, rfl, rfl, rfl, rfl, rfl, rfl, rfl⟩
  obtain ⟨hdentry, hinode, hnext, hnextInode, hsb, hnextSb, hmountList, hroot', hfreed, hcache⟩ :=
    hfields _ rfl
  have hold : ∀ i < fs.nextInode,
      (fs.deviceNode devfsSb root name mode priv block).inode i = fs.inode i := by
    intro i hi
    simp [hi.ne]
  have hattr : ((fs.deviceNode devfsSb root name mode priv block).inode fs.nextInode).toAttr =
      ⟨mode, devfsSb, priv⟩ := by
    simp
  refine ⟨⟨?_, ?_, fun y hy hyr => ?_, hnext, hnextInode, fun i hi => ?_, ?_, hsb,
    hnextSb, hmountList,
    hroot', hfreed, hcache, fun q hq => ?_⟩, ⟨rfl, rfl, rfl, rfl, rfl, rfl, hin.symm, rfl, rfl,
      fun hb => ⟨rfl, ?_⟩⟩⟩
  · rw [hdentry]
    simp [x, hroot.symm]
  · rw [hdentry]
    simp [hroot]
  · rw [hdentry]
    simp [hy, hyr]
  · rw [hinode, hold i hi]
  · rw [hinode, hattr]
    exact hin
  · -- only the entry of a device that had none has changed
    cases block with
    | false => rfl
    | true =>
      have hne : q ≠ priv := by
        rintro rfl
        exact hq (hnew rfl)
      exact update_of_ne hne _ _
  · rw [hinode, hattr]
    have hblock : block = true := hb
    subst hblock
    show (update fs.part priv _ priv).fsDentry = _
    rw [update_self]

theorem Inv.devfsRegister {root priv : Nat} {block : Bool} (h : Inv fs debt held)
    (hcan : CanRegister fs root priv block) (name : Name) (mode : Nat) :
    Done fs (fs.devfsRegister o devfsSb root name mode priv block).1 debt held := by
  obtain ⟨r, m, hm⟩ := h.shape.mounted devfsSb hcan.mounted (by decide)
  obtain rfl : r = root := some_inj.mp (hm.root.symm.trans hcan.root)
  obtain ⟨harrives, -⟩ := h.lookupLocked (o := o) (some r)
    (fun d hd => by cases hd; exact hm.rootGood) name
  have hsettled := (Settled.refl h).arrives harrives
  unfold Fs.devfsRegister
  split
  · next fs₁ d hlookup =>
    rw [hlookup] at hsettled
    exact hsettled.put.done h
  · next fs₁ hlookup =>
    rw [hlookup] at hsettled
    dsimp only [elim_none] at hsettled ⊢
    -- the root is that of the file system, which has not been freed
    have hframe := hsettled.frame
    obtain ⟨r', m', hm'⟩ := hsettled.inv.shape.mounted devfsSb
      (hframe.mounted.symm ▸ hcan.mounted) (by decide)
    obtain rfl : r' = r := by
      have hroot := hm'.root
      rw [hframe.sb] at hroot
      exact some_inj.mp (hroot.symm.trans hm.root)
    have hr := hm'.rootGood
    have hrn : r' ≠ fs₁.next := ne_next_of_good hr
    have hin : (fs₁.dentry r').inMnt = some devfsSb := hm'.rootIn
    have hnew : block = true → (fs₁.part priv).fsDentry = none := by
      rw [hframe.part]
      exact hcan.new
    obtain ⟨hattached, hbelow⟩ := attached_addDevice name mode hrn hin hnew
    have hinv' : Inv _ debt held := hsettled.inv.attach hr hattached hbelow fun y => by
      cases block <;> simp
    refine hsettled.done_trans h le_rfl (hattached.done hsettled.inv hinv' ?_)
    cases block <;> rfl

end Osx64.Vfs
