import Osx64.Fs.VfsCount

/-!
# The tree of dentries

A dentry is in the tree of a mounted file system if it is not freed, not deleted and has a
mounted super block.  `Linked` says what its pointers look like then, `Mounted` does so for a
super block, and `Shape` collects both.  Together with the counts this is the invariant `Inv`
of the name space, for the references that files, current directories and the call in progress
hold.  The file ends with the two ways a new dentry is made: it is hung into the tree, or it is
given up again.
-/

namespace Osx64.Vfs

open Finset Multiset Option Nat Vfs.Fs

variable {β : Type} {o : Backend β}

/-- The super block of the root ramfs. -/
def rootSb : Nat := 0

/-- The super block of devfs, the second one that is made. -/
def devfsSb : Nat := 1

/-- The super blocks in use: `mount_list`, which the root is not in, and the root. -/
def Fs.mounted (fs : Fs β) : Finset Nat := insert rootSb fs.mountList.toFinset

/-- The dentry is in the tree. -/
def Good (fs : Fs β) (dom live : Finset Nat) (d : Nat) : Prop :=
  d ∈ dom ∧ (fs.dentry d).deleted = false ∧ ∃ s ∈ live, (fs.dentry d).inMnt = some s

structure Linked (fs : Fs β) (dom live : Finset Nat) (d : Nat) : Prop where
  parent : ∀ p, (fs.dentry d).parent = some p → Good fs dom live p ∧
    (fs.dentry p).inMnt = (fs.dentry d).inMnt ∧ d ∈ (fs.dentry p).children
  top : (fs.dentry d).parent = none → d = fs.root ∨ ∃ s ∈ live, (fs.sb s).root = some d
  children : ∀ c ∈ (fs.dentry d).children, Good fs dom live c ∧ (fs.dentry c).parent = some d ∧
    (fs.dentry c).inMnt = (fs.dentry d).inMnt
  nodup : (fs.dentry d).children.Nodup
  inode : ∃ i < fs.nextInode, (fs.dentry d).inode = some i ∧
    (fs.dentry d).inMnt = some (fs.inode i).sb
  mount : ∀ s, (fs.dentry d).mountedHere = some s → s ∈ live ∧ (fs.sb s).mountpoint = some d
  flag : (fs.dentry d).mountpoint = (fs.dentry d).mountedHere.isSome
  device : (fs.dentry d).blockDev = true → (fs.dentry d).inMnt = some devfsSb ∧
    (fs.part (fs.inodeOf d).priv).fsDentry = some d

/-- A mounted file system has a root, and a mount point that is a directory in the tree but not
the root of a file system.  Devfs is mounted below the root of the name space. -/
structure Mounted (fs : Fs β) (dom live : Finset Nat) (s r m : Nat) : Prop where
  root : (fs.sb s).root = some r
  rootGood : Good fs dom live r
  rootIn : (fs.dentry r).inMnt = some s
  rootTop : (fs.dentry r).parent = none
  mountpoint : (fs.sb s).mountpoint = some m
  mountpointGood : Good fs dom live m
  here : (fs.dentry m).mountedHere = some s
  below : (fs.dentry m).parent ≠ none
  isDir : isDir (fs.inodeOf m).mode = true
  devfs : s = devfsSb → (fs.dentry m).parent = some fs.root
  registered : ∀ q, (fs.sb s).part = some q → (fs.part q).fsDentry ≠ none
  owner : ∀ q, (fs.sb s).part = some q → (fs.part q).mountedSb = some s

structure Shape (fs : Fs β) (dom live : Finset Nat) : Prop where
  linked : ∀ d, Good fs dom live d → Linked fs dom live d
  mounted : ∀ s ∈ live, s ≠ rootSb → ∃ r m, Mounted fs dom live s r m
  rootLive : rootSb ∈ live
  rootNone : (fs.sb rootSb).root = none ∧ (fs.sb rootSb).mountpoint = none ∧
    (fs.sb rootSb).part = none
  rootGood : Good fs dom live fs.root
  rootIn : (fs.dentry fs.root).inMnt = some rootSb
  rootTop : (fs.dentry fs.root).parent = none
  lt : ∀ s ∈ live, s < fs.nextSb
  two : 2 ≤ fs.nextSb

/-- No dentry names a super block that is still to be made. -/
def Fs.Bound (fs : Fs β) : Prop :=
  ∀ d ∈ fs.dentries, ∀ s, (fs.dentry d).inMnt = some s → s < fs.nextSb

/-- The invariant of the name space. -/
structure Inv (fs : Fs β) (debt : Debt) (held : Multiset Nat) : Prop where
  counted : Counted fs fs.dentries fs.mounted debt held
  shape : Shape fs fs.dentries fs.mounted
  bound : fs.Bound

/-- The dentry is in the tree, with all dentries and super blocks. -/
abbrev Fs.Good (fs : Fs β) (d : Nat) : Prop := Vfs.Good fs fs.dentries fs.mounted d

/-! ## Functions that only change counts -/

section Shrink

variable {fs fs' : Fs β} {dom dom' live : Finset Nat} {d : Nat}

theorem Same.inodeOf (h : Same fs fs') (d : Nat) :
    (fs'.inodeOf d).toAttr = (fs.inodeOf d).toAttr := by
  unfold Fs.inodeOf
  rw [h.link d]
  cases (fs.dentry d).inode with
  | none => rfl
  | some i => exact h.attr i

/-- The same dentries are in the tree, with the same pointers; others may have changed. -/
structure Agree (fs fs' : Fs β) (dom dom' live : Finset Nat) : Prop where
  good : ∀ x, Good fs' dom' live x ↔ Good fs dom live x
  link : ∀ x, Good fs dom live x → (fs'.dentry x).toLink = (fs.dentry x).toLink
  attr : ∀ i < fs.nextInode, (fs'.inode i).toAttr = (fs.inode i).toAttr
  nextInode : fs.nextInode ≤ fs'.nextInode
  sb : ∀ s ∈ live, fs'.sb s = fs.sb s
  nextSb : fs.nextSb ≤ fs'.nextSb
  part : ∀ q, (fs'.part q).fsDentry = (fs.part q).fsDentry
  root : fs'.root = fs.root
  owner : ∀ s ∈ live, ∀ q, (fs.sb s).part = some q →
    (fs'.part q).mountedSb = (fs.part q).mountedSb

section

variable (hsub : dom' ⊆ dom) (hkept : ∀ x ∈ dom, (fs.dentry x).deleted = false → x ∈ dom')
include hsub hkept

/-- Deleted dentries may be gone. -/
theorem good_iff_of_link
    (hlink : ∀ x ∈ dom, (fs'.dentry x).toLink = (fs.dentry x).toLink) (d : Nat) :
    Good fs' dom' live d ↔ Good fs dom live d := by
  unfold Good
  constructor
  · rintro ⟨hd, hrest⟩
    rw [hlink d (hsub hd)] at hrest
    exact ⟨hsub hd, hrest⟩
  · rintro ⟨hd, hrest⟩
    rw [hlink d hd]
    exact ⟨hkept d hd hrest.1, hrest⟩

theorem Same.agree (h : Same fs fs') : Agree fs fs' dom dom' live :=
  ⟨good_iff_of_link hsub hkept fun x _ => h.link x, fun x _ => h.link x, fun i _ => h.attr i,
    h.nextInode.ge, fun s _ => congrFun h.sb s, h.nextSb.ge, fun q => by rw [h.part], h.root,
    fun _ _ q _ => by rw [h.part]⟩

end

theorem Shrunk.agree (h : Shrunk fs fs' dom dom') : Agree fs fs' dom dom' live :=
  h.same.agree h.sub h.kept

theorem Agree.inodeOf (h : Agree fs fs' dom dom' live) (hd : Good fs dom live d) {i : Nat}
    (hi : i < fs.nextInode) (hinode : (fs.dentry d).inode = some i) :
    (fs'.inodeOf d).toAttr = (fs.inodeOf d).toAttr := by
  unfold Fs.inodeOf
  rw [h.link d hd, hinode]
  exact h.attr i hi

/-- The super block that has a mount point is not the one of the root. -/
theorem Shape.ne_rootSb {s m : Nat} (h : Shape fs dom live)
    (hm : (fs.sb s).mountpoint = some m) : s ≠ rootSb := by
  rintro rfl
  rw [h.rootNone.2.1] at hm
  cases hm

theorem Shape.mountedAt {s m : Nat} (h : Shape fs dom live) (hs : s ∈ live)
    (hm : (fs.sb s).mountpoint = some m) : ∃ r, Mounted fs dom live s r m := by
  obtain ⟨r, m', hmounted⟩ := h.mounted s hs (h.ne_rootSb hm)
  obtain rfl : m' = m := Option.some_inj.mp (hmounted.mountpoint.symm.trans hm)
  exact ⟨r, hmounted⟩

/-- A mounted file system stays mounted if nothing happens to its root and its mount point. -/
theorem Mounted.carry {live' : Finset Nat} {s r m : Nat} (h : Mounted fs dom live s r m)
    (hsb : fs'.sb s = fs.sb s) (hroot : fs'.root = fs.root)
    (hr : Good fs' dom' live' r ∧ (fs'.dentry r).inMnt = (fs.dentry r).inMnt ∧
      (fs'.dentry r).parent = (fs.dentry r).parent)
    (hm : Good fs' dom' live' m ∧ (fs'.dentry m).mountedHere = (fs.dentry m).mountedHere ∧
      (fs'.dentry m).parent = (fs.dentry m).parent ∧ (fs'.inodeOf m).mode = (fs.inodeOf m).mode)
    (hpart : ∀ q, (fs.sb s).part = some q → (fs'.part q).fsDentry = (fs.part q).fsDentry ∧
      (fs'.part q).mountedSb = (fs.part q).mountedSb) : Mounted fs' dom' live' s r m where
  root := hsb ▸ h.root
  rootGood := hr.1
  rootIn := hr.2.1.trans h.rootIn
  rootTop := hr.2.2.trans h.rootTop
  mountpoint := hsb ▸ h.mountpoint
  mountpointGood := hm.1
  here := hm.2.1.trans h.here
  below := hm.2.2.1 ▸ h.below
  isDir := hm.2.2.2 ▸ h.isDir
  devfs hs := hroot ▸ hm.2.2.1.trans (h.devfs hs)
  registered q hq := (hpart q (hsb ▸ hq)).1 ▸ h.registered q (hsb ▸ hq)
  owner q hq := (hpart q (hsb ▸ hq)).2.trans (h.owner q (hsb ▸ hq))

theorem Shape.agree (hshape : Shape fs dom live) (h : Agree fs fs' dom dom' live) :
    Shape fs' dom' live where
  linked d hd := by
    have hd := (h.good d).mp hd
    have hlinked := hshape.linked d hd
    have hlink := h.link d hd
    obtain ⟨i, hi, hinode, hsb⟩ := hlinked.inode
    constructor <;> simp only [h.good, hlink, h.root, h.part, h.inodeOf hd hi hinode]
    · intro p hp
      have hparent := hlinked.parent p hp
      rw [h.link p hparent.1]
      exact hparent
    · intro hp
      refine (hlinked.top hp).imp_right fun ⟨s, hs, hroot⟩ => ⟨s, hs, ?_⟩
      rw [h.sb s hs, hroot]
    · intro c hc
      have hchild := hlinked.children c hc
      rw [h.link c hchild.1]
      exact hchild
    · exact hlinked.nodup
    · refine ⟨i, hi.trans_le h.nextInode, hinode, ?_⟩
      rw [h.attr i hi, hsb]
    · intro s hs
      obtain ⟨hs, hpoint⟩ := hlinked.mount s hs
      exact ⟨hs, (h.sb s hs).symm ▸ hpoint⟩
    · exact hlinked.flag
    · exact hlinked.device
  mounted s hs hne := by
    obtain ⟨r, m, hm⟩ := hshape.mounted s hs hne
    have hr := h.link r hm.rootGood
    have hlink := h.link m hm.mountpointGood
    obtain ⟨i, hi, hinode, -⟩ := (hshape.linked m hm.mountpointGood).inode
    refine ⟨r, m, hm.carry (h.sb s hs) h.root ⟨(h.good r).mpr hm.rootGood, ?_, ?_⟩
      ⟨(h.good m).mpr hm.mountpointGood, ?_, ?_, ?_⟩ fun q hq => ⟨h.part q, h.owner s hs q hq⟩⟩
    · rw [hr]
    · rw [hr]
    · rw [hlink]
    · rw [hlink]
    · rw [h.inodeOf hm.mountpointGood hi hinode]
  rootLive := hshape.rootLive
  rootNone := (h.sb rootSb hshape.rootLive).symm ▸ hshape.rootNone
  rootGood := (h.good _).mpr (h.root ▸ hshape.rootGood)
  rootIn := by rw [h.root, h.link _ hshape.rootGood, hshape.rootIn]
  rootTop := by rw [h.root, h.link _ hshape.rootGood, hshape.rootTop]
  lt s hs := (hshape.lt s hs).trans_le h.nextSb
  two := hshape.two.trans h.nextSb

theorem Shape.shrink (hshape : Shape fs dom live) (h : Shrunk fs fs' dom dom') :
    Shape fs' dom' live := hshape.agree h.agree

theorem Same.mounted (h : Same fs fs') : fs'.mounted = fs.mounted := by
  rw [Fs.mounted, Fs.mounted, h.mountList]

theorem Fs.Bound.congr (h : fs.Bound) (hsub : fs'.dentries ⊆ fs.dentries)
    (hnextSb : fs.nextSb ≤ fs'.nextSb)
    (hinMnt : ∀ d ∈ fs.dentries, (fs'.dentry d).inMnt = (fs.dentry d).inMnt) : fs'.Bound := by
  intro d hd s hs
  rw [hinMnt d (hsub hd)] at hs
  exact (h d (hsub hd) s hs).trans_le hnextSb

theorem Shrunk.bound (h : Shrunk fs fs' fs.dentries dom') (hbound : fs.Bound) : fs'.Bound :=
  hbound.congr (h.dentries_eq ▸ h.sub) h.same.nextSb.ge fun d _ => h.same.inMnt d

end Shrink

namespace Inv

variable {fs fs' : Fs β} {debt : Debt} {held : Multiset Nat} {d : Nat}

theorem mem_dentries (h : Inv fs debt (d ::ₘ held)) : d ∈ fs.dentries :=
  h.counted.held d (mem_cons_self d held)

theorem dentryGet (h : Inv fs debt held) (hd : d ∈ fs.dentries) :
    Inv (fs.dentryGet d) debt (d ::ₘ held) := by
  have hshrunk : Shrunk fs (fs.dentryGet d) fs.dentries fs.dentries :=
    Same.shrunk same_dentryGet rfl
  exact ⟨h.counted.dentryGet hd, h.shape.shrink hshrunk, hshrunk.bound h.bound⟩

theorem dentryPut (h : Inv fs debt (d ::ₘ held)) :
    Inv (fs.dentryPut o d) debt held ∧ Same fs (fs.dentryPut o d) := by
  obtain ⟨dom', hcounted, hshrunk⟩ := h.counted.dentryPut (o := o)
  have hshape := h.shape.shrink hshrunk
  rw [hshrunk.dentries_eq, ← hshrunk.same.mounted] at hcounted hshape
  exact ⟨⟨hcounted, hshape, hshrunk.bound h.bound⟩, hshrunk.same⟩

/-- A change of the state of the file systems and of inode counts. -/
theorem congr (h : Inv fs debt held) (hsame : Same fs fs') (hdentry : fs'.dentry = fs.dentry)
    (hfreed : fs'.freed = fs.freed) (hcache : fs'.cacheList = fs.cacheList) :
    Inv fs' debt held := by
  have hshrunk : Shrunk fs fs' fs.dentries fs.dentries := hsame.shrunk hfreed
  have hcounted := h.counted.congr_parents hsame.next (fun s _ => congrFun hsame.sb s)
    (fun q => by rw [hsame.part]) hsame.root
    (fun d => by rw [hdentry]; exact ⟨rfl, rfl, rfl, rfl, rfl, rfl⟩) hfreed hcache
  have hshape := h.shape.shrink hshrunk
  rw [hshrunk.dentries_eq, ← hsame.mounted] at hcounted hshape
  exact ⟨hcounted, hshape, hshrunk.bound h.bound⟩

theorem inodePut (h : Inv fs debt held) (i : Nat) : Inv (fs.inodePut o i) debt held :=
  h.congr same_inodePut dentry_inodePut freed_inodePut cacheList_inodePut

end Inv

/-! ## Frames -/

/-- What a lookup leaves alone: it adds dentries and inodes, and the others keep their file
system and inode. -/
structure Frame (fs fs' : Fs β) : Prop where
  next : fs.next ≤ fs'.next
  nextInode : fs.nextInode ≤ fs'.nextInode
  deleted : ∀ d < fs.next, (fs'.dentry d).deleted = (fs.dentry d).deleted
  inMnt : ∀ d < fs.next, (fs'.dentry d).inMnt = (fs.dentry d).inMnt
  inode : ∀ d < fs.next, (fs'.dentry d).inode = (fs.dentry d).inode
  blockDev : ∀ d < fs.next, (fs'.dentry d).blockDev = (fs.dentry d).blockDev
  attr : ∀ i < fs.nextInode, (fs'.inode i).toAttr = (fs.inode i).toAttr
  sb : fs'.sb = fs.sb
  nextSb : fs'.nextSb = fs.nextSb
  part : fs'.part = fs.part
  mountList : fs'.mountList = fs.mountList
  root : fs'.root = fs.root
  fsRef : fs'.fsRef = fs.fsRef

namespace Frame

variable {fs fs' fs'' : Fs β} {d : Nat}

theorem refl (fs : Fs β) : Frame fs fs :=
  ⟨le_rfl, le_rfl, fun _ _ => rfl, fun _ _ => rfl, fun _ _ => rfl, fun _ _ => rfl, fun _ _ => rfl,
    rfl, rfl, rfl, rfl, rfl, rfl⟩

theorem trans (h : Frame fs fs') (h' : Frame fs' fs'') : Frame fs fs'' where
  next := h.next.trans h'.next
  nextInode := h.nextInode.trans h'.nextInode
  deleted d hd := (h'.deleted d (hd.trans_le h.next)).trans (h.deleted d hd)
  inMnt d hd := (h'.inMnt d (hd.trans_le h.next)).trans (h.inMnt d hd)
  inode d hd := (h'.inode d (hd.trans_le h.next)).trans (h.inode d hd)
  blockDev d hd := (h'.blockDev d (hd.trans_le h.next)).trans (h.blockDev d hd)
  attr i hi := (h'.attr i (hi.trans_le h.nextInode)).trans (h.attr i hi)
  sb := h'.sb.trans h.sb
  nextSb := h'.nextSb.trans h.nextSb
  part := h'.part.trans h.part
  mountList := h'.mountList.trans h.mountList
  root := h'.root.trans h.root
  fsRef := h'.fsRef.trans h.fsRef

theorem of_same (h : Same fs fs') : Frame fs fs' where
  next := h.next.ge
  nextInode := h.nextInode.ge
  deleted d _ := h.deleted d
  inMnt d _ := h.inMnt d
  inode d _ := congrArg Link.inode (h.link d)
  blockDev d _ := h.blockDev d
  attr i _ := h.attr i
  sb := h.sb
  nextSb := h.nextSb
  part := h.part
  mountList := h.mountList
  root := h.root
  fsRef := h.fsRef

theorem mounted (h : Frame fs fs') : fs'.mounted = fs.mounted := by
  rw [Fs.mounted, Fs.mounted, h.mountList]

/-- A dentry that is held stays in the tree. -/
theorem good (h : Frame fs fs') (hd : fs.Good d) (hd' : d ∈ fs'.dentries) : fs'.Good d := by
  have hlt := (Fs.mem_dentries.mp hd.1).1
  refine ⟨hd', ?_, ?_⟩
  · rw [h.deleted d hlt]
    exact hd.2.1
  · rw [h.inMnt d hlt, h.mounted]
    exact hd.2.2

end Frame

/-! ## New dentries -/

/-- A new dentry that is hung below `p` at once. -/
structure Attached (fs fs' : Fs β) (p : Nat) (x : Dentry) : Prop where
  new : fs'.dentry fs.next = x
  parent : fs'.dentry p = { fs.dentry p with
    refcount := (fs.dentry p).refcount + 1, children := (fs.dentry p).children ++ [fs.next] }
  other : ∀ y, y ≠ fs.next → y ≠ p → fs'.dentry y = fs.dentry y
  next : fs'.next = fs.next + 1
  nextInode : fs'.nextInode = fs.nextInode + 1
  attr : ∀ i < fs.nextInode, (fs'.inode i).toAttr = (fs.inode i).toAttr
  newSb : (fs.dentry p).inMnt = some (fs'.inode fs.nextInode).sb
  sb : fs'.sb = fs.sb
  nextSb : fs'.nextSb = fs.nextSb
  mountList : fs'.mountList = fs.mountList
  root : fs'.root = fs.root
  freed : fs'.freed = fs.freed
  cacheList : fs'.cacheList = fs.cacheList
  part : ∀ q, (fs.part q).fsDentry ≠ none → fs'.part q = fs.part q

/-- The new dentry itself. -/
structure NewBelow (fs fs' : Fs β) (p : Nat) (x : Dentry) : Prop where
  parent : x.parent = some p
  children : x.children = []
  inode : x.inode = some fs.nextInode
  mountpoint : x.mountpoint = false
  mountedHere : x.mountedHere = none
  deleted : x.deleted = false
  inMnt : x.inMnt = (fs.dentry p).inMnt
  refcount : x.refcount = 1
  inCacheList : x.inCacheList = false
  device : x.blockDev = true → x.inMnt = some devfsSb ∧
    (fs'.part (fs'.inode fs.nextInode).priv).fsDentry = some fs.next

section Attach

variable {fs fs' : Fs β} {debt : Debt} {held held' : Multiset Nat} {p y : Nat} {x : Dentry}

/-- There is one more dentry. -/
theorem Inv.dentries_new (hinv : Inv fs debt held) (hnext : fs'.next = fs.next + 1)
    (hfreed : fs'.freed = fs.freed) : fs'.dentries = insert fs.next fs.dentries := by
  ext y
  rw [mem_insert, Fs.mem_dentries, Fs.mem_dentries, hnext, hfreed]
  constructor
  · rintro ⟨hlt, hy⟩
    rcases Nat.lt_succ_iff_lt_or_eq.mp hlt with hlt | rfl
    · exact .inr ⟨hlt, hy⟩
    · exact .inl rfl
  · rintro (rfl | ⟨hlt, hy⟩)
    · exact ⟨lt_succ_self _, fun hmem => (hinv.counted.freed _ hmem).2.false⟩
    · exact ⟨lt_succ_of_lt hlt, hy⟩

section

variable (h : Attached fs fs' p x) (hy : y ≠ fs.next)
include h hy

/-- The other dentries keep their pointers, but for the list of children. -/
theorem Attached.link : (fs'.dentry y).toLink =
    { (fs.dentry y).toLink with
      children := (fs.dentry y).children ++ if y = p then [fs.next] else [] } := by
  by_cases hyp : y = p
  · subst hyp
    rw [h.parent, if_pos rfl]
  · rw [h.other y hy hyp, if_neg hyp, List.append_nil]

theorem Attached.refcount :
    (fs'.dentry y).refcount = (fs.dentry y).refcount + if y = p then 1 else 0 := by
  by_cases hyp : y = p
  · subst hyp
    rw [h.parent, if_pos rfl]
  · rw [h.other y hy hyp, if_neg hyp, add_zero]

theorem Attached.inCacheList :
    (fs'.dentry y).inCacheList = (fs.dentry y).inCacheList := by
  by_cases hyp : y = p
  · subst hyp
    rw [h.parent]
  · rw [h.other y hy hyp]

end

theorem Shape.registered (h : Shape fs fs.dentries fs.mounted) :
    ∀ s ∈ fs.mounted, ∀ q, (fs.sb s).part = some q → (fs.part q).fsDentry ≠ none := by
  intro s hs q hq
  by_cases hne : s = rootSb
  · rw [hne, h.rootNone.2.2] at hq
    cases hq
  · obtain ⟨r, m, hm⟩ := h.mounted s hs hne
    exact hm.registered q hq

/-- The device of a mounted file system knows it, so it is the device of no other one. -/
theorem Shape.owner (h : Shape fs fs.dentries fs.mounted) :
    ∀ s ∈ fs.mounted, ∀ q, (fs.sb s).part = some q → (fs.part q).mountedSb = some s := by
  intro s hs q hq
  by_cases hne : s = rootSb
  · rw [hne, h.rootNone.2.2] at hq
    cases hq
  · obtain ⟨r, m, hm⟩ := h.mounted s hs hne
    exact hm.owner q hq

theorem Attached.pointers (h : Attached fs fs' p x) (hx : NewBelow fs fs' p x)
    (hinv : Inv fs debt held) (y : Nat) : pointers fs' fs'.dentries fs.mounted y =
      pointers fs fs.dentries fs.mounted y + if y = p then 1 else 0 := by
  have hfresh : fs.next ∉ fs.dentries := fun hmem => (Fs.mem_dentries.mp hmem).1.false
  have hdom := hinv.dentries_new h.next h.freed
  have hparents : holders fs'.dentries (fun z => (fs'.dentry z).parent) y =
      holders fs.dentries (fun z => (fs.dentry z).parent) y + if y = p then 1 else 0 := by
    rw [hdom, holders_eq_erase _ (mem_insert_self _ _), erase_insert hfresh, h.new,
      hx.parent]
    congr 1
    · refine holders_congr fun z hz => ?_
      have hz' : z ≠ fs.next := fun heq => hfresh (heq ▸ hz)
      rw [h.link hz']
    · simp only [some_inj, eq_comm]
  have hparts : holders fs.mounted (fun s => (fs.sb s).part.bind fun q => (fs'.part q).fsDentry) y =
      holders fs.mounted (fun s => (fs.sb s).part.bind fun q => (fs.part q).fsDentry) y := by
    refine holders_congr fun s hs => ?_
    cases hq : (fs.sb s).part with
    | none => rfl
    | some q =>
      simp only [bind_some]
      rw [h.part q (hinv.shape.registered s hs q hq)]
  rw [Vfs.pointers, Vfs.pointers, hparents, h.sb, hparts]
  omega

/-- The counts are right behind a new dentry, whether it is held or is a device. -/
theorem Inv.attach_counted (hinv : Inv fs debt held) (hp : fs.Good p) (h : Attached fs fs' p x)
    (hx : NewBelow fs fs' p x)
    (hheld : ∀ y, held'.count y + (if y = fs.next ∧ (x.blockDev ∨ x.charDev) then 1 else 0) =
      held.count y + if y = fs.next then 1 else 0) :
    Counted fs' fs'.dentries fs.mounted debt held' := by
  have hfresh : fs.next ∉ fs.dentries := fun hmem => (Fs.mem_dentries.mp hmem).1.false
  have hdom := hinv.dentries_new h.next h.freed
  have hpointers := h.pointers hx hinv
  have hne : ∀ y ∈ fs.dentries, y ≠ fs.next := fun y hy heq => hfresh (heq ▸ hy)
  have hpnext := hne p hp.1
  have hrootnext := hne _ hinv.shape.rootGood.1
  have hold : ∀ y, y ≠ fs.next → held'.count y = held.count y := by
    intro y hy
    have := hheld y
    rw [if_neg fun hboth => hy hboth.1, if_neg hy] at this
    exact this
  -- nothing points to the new dentry
  have hzero : Vfs.pointers fs' fs'.dentries fs.mounted fs.next = 0 ∧ held.count fs.next = 0 := by
    refine ⟨?_, count_eq_zero.mpr fun hmem => hfresh (hinv.counted.held _ hmem)⟩
    rw [hpointers, if_neg (Ne.symm hpnext), add_zero]
    by_contra hne
    exact hfresh (hinv.counted.pointed _ hne)
  have hlent : ∀ y ∈ debt.lent, y < fs'.next ∧ ((fs'.dentry y).blockDev ∨ (fs'.dentry y).charDev) :=
    hinv.counted.lent_congr (by rw [h.next]; exact le_succ _) fun y hy => by
      rw [h.link hy.ne]
      exact ⟨rfl, rfl⟩
  rw [hdom]
  refine ⟨fun y hy => ?_, fun y hy => ?_, fun y hy => ?_, fun y hy => ?_, fun y hy => ?_, hlent,
    h.freed ▸ hinv.counted.log, fun y hy => ?_, .insert (hinv.counted.cache.congr h.cacheList
      (fun y hy => h.inCacheList (hne y hy)) (fun y hy => by rw [h.link (hne y hy)])
      fun y hy hy0 => ?_) hfresh ?_ ?_⟩
  · rw [h.next]
    rcases mem_insert.mp hy with rfl | hy
    · exact lt_succ_self _
    · exact lt_succ_of_lt (hinv.counted.lt y hy)
  · rw [← hdom]
    by_cases hyn : y = fs.next
    · have hcount := hheld y
      have hleaked : fs.next ∉ debt.leaked := fun hmem => hfresh (hinv.counted.leaked _ hmem)
      have hlent : fs.next ∉ debt.lent := fun hmem => (hinv.counted.lent _ hmem).1.false
      subst hyn
      rw [refs, hzero.1, h.new, hx.refcount, h.root, if_neg (Ne.symm hrootnext), if_neg hleaked]
      rw [hzero.2, if_pos rfl] at hcount
      split at hcount <;> simp_all
    · have hy := (mem_insert.mp hy).resolve_left hyn
      rw [refs, hpointers, h.refcount hyn, h.root, h.link hyn, hold y hyn, hinv.counted.count y hy,
        refs]
      by_cases hyp : y = p
      · rw [if_pos hyp, if_pos hyp]
        push_cast
        omega
      · rw [if_neg hyp, if_neg hyp]
        push_cast
        omega
  · rw [← hdom, hpointers] at hy
    by_cases hyp : y = p
    · exact hyp ▸ mem_insert_of_mem hp.1
    · rw [if_neg hyp, add_zero] at hy
      exact mem_insert_of_mem (hinv.counted.pointed y hy)
  · by_cases hyn : y = fs.next
    · exact hyn ▸ mem_insert_self _ _
    · refine mem_insert_of_mem (hinv.counted.held y ?_)
      rw [← count_pos, ← hold y hyn, count_pos]
      exact hy
  · exact mem_insert_of_mem (hinv.counted.leaked y hy)
  · obtain ⟨hy, hlt⟩ := hinv.counted.freed y (h.freed ▸ hy)
    rw [mem_insert, h.next]
    exact ⟨fun hmem => hmem.elim (fun heq => by omega) hy, lt_succ_of_lt hlt⟩
  · have hnonneg := hinv.counted.count y hy
    rw [h.refcount (hne y hy)] at hy0
    refine hinv.counted.cache.zero y hy ?_
    split at hy0 <;> omega
  · rw [h.new, hx.inCacheList]
  · rw [h.new, hx.refcount]
    decide

theorem Attached.mounted (h : Attached fs fs' p x) : fs'.mounted = fs.mounted := by
  rw [Fs.mounted, Fs.mounted, h.mountList]

theorem Attached.good_old (h : Attached fs fs' p x) (hinv : Inv fs debt held)
    (hy : y ≠ fs.next) : fs'.Good y ↔ fs.Good y := by
  have hdom := hinv.dentries_new h.next h.freed
  unfold Fs.Good Good
  rw [hdom, h.mounted, h.link hy, mem_insert]
  exact and_congr_left fun _ => ⟨fun hmem => hmem.resolve_left hy, .inr⟩

theorem Attached.good_new (h : Attached fs fs' p x) (hx : NewBelow fs fs' p x)
    (hinv : Inv fs debt held) (hp : fs.Good p) : fs'.Good fs.next := by
  have hdom := hinv.dentries_new h.next h.freed
  refine ⟨hdom ▸ mem_insert_self _ _, ?_, ?_⟩
  · rw [h.new, hx.deleted]
  · rw [h.new, hx.inMnt, h.mounted]
    exact hp.2.2

theorem Attached.inodeOf (h : Attached fs fs' p x) (hy : y ≠ fs.next) {i : Nat}
    (hi : i < fs.nextInode) (hinode : (fs.dentry y).inode = some i) :
    (fs'.inodeOf y).toAttr = (fs.inodeOf y).toAttr := by
  unfold Fs.inodeOf
  rw [h.link hy, hinode]
  exact h.attr i hi

theorem ne_next_of_good (hy : fs.Good y) : y ≠ fs.next := by
  rintro rfl
  exact (Fs.mem_dentries.mp hy.1).1.false

section

variable (hinv : Inv fs debt held) (hp : fs.Good p) (h : Attached fs fs' p x)
  (hx : NewBelow fs fs' p x)
include hinv hp h hx

/-- The tree behind a new dentry. -/
theorem Inv.attach_shape : Shape fs' fs'.dentries fs'.mounted := by
  have hold : ∀ {y}, fs.Good y → fs'.Good y := fun hy =>
    (h.good_old hinv (ne_next_of_good hy)).mpr hy
  have hlink : ∀ {y}, fs.Good y → (fs'.dentry y).toLink = _ := fun hy =>
    h.link (ne_next_of_good hy)
  refine ⟨fun d hd => ?_, fun s hs hne => ?_, h.mounted ▸ hinv.shape.rootLive,
    h.sb ▸ hinv.shape.rootNone, h.root ▸ hold hinv.shape.rootGood, ?_, ?_, fun s hs => ?_,
    h.nextSb ▸ hinv.shape.two⟩
  · by_cases hdn : d = fs.next
    · -- the new dentry
      subst hdn
      have hinode : fs'.inodeOf fs.next = fs'.inode fs.nextInode := by
        rw [Fs.inodeOf, h.new, hx.inode]
        rfl
      constructor <;> simp only [h.new, hinode, h.nextInode, hx.parent, hx.children, hx.inode,
        hx.mountedHere, hx.mountpoint]
      · intro q hq
        cases hq
        refine ⟨hold hp, ?_, ?_⟩
        · rw [hlink hp, hx.inMnt]
        · rw [hlink hp, if_pos rfl]
          exact List.mem_append_right _ (List.mem_singleton_self _)
      · intro htop
        cases htop
      · intro c hc
        cases hc
      · exact List.nodup_nil
      · exact ⟨fs.nextInode, lt_succ_self _, rfl, hx.inMnt.trans h.newSb⟩
      · intro s hs
        cases hs
      · rfl
      · exact hx.device
    · -- the others
      have hd := (h.good_old hinv hdn).mp hd
      have hlinked := hinv.shape.linked d hd
      obtain ⟨i, hi, hinode, hsb⟩ := hlinked.inode
      constructor <;> simp only [h.link hdn, h.sb, h.root]
      · intro q hq
        obtain ⟨hq, hin, hmem⟩ := hlinked.parent q hq
        refine ⟨hold hq, ?_, ?_⟩
        · rw [hlink hq]
          exact hin
        · rw [hlink hq]
          exact List.mem_append_left _ hmem
      · rw [h.mounted]
        exact hlinked.top
      · intro c hc
        rcases List.mem_append.mp hc with hc | hc
        · obtain ⟨hc, hparent, hin⟩ := hlinked.children c hc
          rw [hlink hc]
          exact ⟨hold hc, hparent, hin⟩
        · split at hc
          · next hdp =>
            rw [List.mem_singleton] at hc
            subst hc hdp
            rw [h.new]
            exact ⟨h.good_new hx hinv hp, hx.parent, hx.inMnt⟩
          · cases hc
      · refine List.nodup_append.mpr ⟨hlinked.nodup, ?_, fun a ha b hb hab => ?_⟩
        · split
          · exact List.nodup_singleton _
          · exact List.nodup_nil
        · split at hb
          · rw [List.mem_singleton] at hb
            exact ne_next_of_good (hlinked.children a ha).1 (hab.trans hb)
          · cases hb
      · refine ⟨i, h.nextInode ▸ lt_succ_of_lt hi, hinode, ?_⟩
        rw [h.attr i hi]
        exact hsb
      · rw [h.mounted]
        exact hlinked.mount
      · exact hlinked.flag
      · intro hb
        obtain ⟨hin, hdev⟩ := hlinked.device hb
        rw [h.inodeOf hdn hi hinode, h.part _ (by rw [hdev]; exact some_ne_none d)]
        exact ⟨hin, hdev⟩
  · rw [h.mounted] at hs
    obtain ⟨r, m, hm⟩ := hinv.shape.mounted s hs hne
    obtain ⟨i, hi, hinode, -⟩ := (hinv.shape.linked m hm.mountpointGood).inode
    refine ⟨r, m, hm.carry (congrFun h.sb s) h.root ⟨hold hm.rootGood, ?_, ?_⟩
      ⟨hold hm.mountpointGood, ?_, ?_, ?_⟩ fun q hq => ?_⟩
    · rw [hlink hm.rootGood]
    · rw [hlink hm.rootGood]
    · rw [hlink hm.mountpointGood]
    · rw [hlink hm.mountpointGood]
    · rw [h.inodeOf (ne_next_of_good hm.mountpointGood) hi hinode]
    · rw [h.part q (hm.registered q hq)]
      exact ⟨rfl, rfl⟩
  · rw [h.root, hlink hinv.shape.rootGood]
    exact hinv.shape.rootIn
  · rw [h.root, hlink hinv.shape.rootGood]
    exact hinv.shape.rootTop
  · rw [h.nextSb]
    exact hinv.shape.lt s (h.mounted ▸ hs)

theorem Attached.bound : fs'.Bound := by
  intro d hd s hs
  rw [hinv.dentries_new h.next h.freed] at hd
  rw [h.nextSb]
  by_cases hdn : d = fs.next
  · rw [hdn, h.new, hx.inMnt] at hs
    exact hinv.bound p hp.1 s hs
  · rw [h.link hdn] at hs
    exact hinv.bound d ((mem_insert.mp hd).resolve_left hdn) s hs

/-- A new dentry is hung into the tree. -/
theorem Inv.attach
    (hheld : ∀ y, held'.count y + (if y = fs.next ∧ (x.blockDev ∨ x.charDev) then 1 else 0) =
      held.count y + if y = fs.next then 1 else 0) : Inv fs' debt held' :=
  ⟨h.mounted ▸ hinv.attach_counted hp h hx hheld, hinv.attach_shape hp h hx,
    h.bound hinv hp hx⟩

end

end Attach

/-- A new dentry that is given up at once. -/
structure Skipped (fs fs' : Fs β) : Prop where
  other : ∀ y, y ≠ fs.next → fs'.dentry y = fs.dentry y
  next : fs'.next = fs.next + 1
  freed : fs'.freed = fs.freed ++ [fs.next]
  inode : fs'.inode = fs.inode
  nextInode : fs'.nextInode = fs.nextInode
  sb : fs'.sb = fs.sb
  nextSb : fs'.nextSb = fs.nextSb
  part : fs'.part = fs.part
  mountList : fs'.mountList = fs.mountList
  root : fs'.root = fs.root
  cacheList : fs'.cacheList = fs.cacheList
  fsRef : fs'.fsRef = fs.fsRef

section Skip

variable {fs fs' : Fs β} {debt : Debt} {held : Multiset Nat} {d : Nat}

theorem Skipped.dentries (h : Skipped fs fs') : fs'.dentries = fs.dentries := by
  ext y
  rw [Fs.mem_dentries, Fs.mem_dentries, h.next, h.freed, List.mem_append, List.mem_singleton]
  constructor
  · rintro ⟨hlt, hfreed⟩
    exact ⟨by omega, fun hmem => hfreed (.inl hmem)⟩
  · rintro ⟨hlt, hfreed⟩
    exact ⟨by omega, fun hmem => hmem.elim hfreed (by omega)⟩

theorem Skipped.frame (h : Skipped fs fs') : Frame fs fs' where
  next := by rw [h.next]; exact le_succ _
  nextInode := h.nextInode.ge
  deleted d hd := by rw [h.other d hd.ne]
  inMnt d hd := by rw [h.other d hd.ne]
  inode d hd := by rw [h.other d hd.ne]
  blockDev d hd := by rw [h.other d hd.ne]
  attr i _ := by rw [h.inode]
  sb := h.sb
  nextSb := h.nextSb
  part := h.part
  mountList := h.mountList
  root := h.root
  fsRef := h.fsRef

theorem Inv.skip (hinv : Inv fs debt held) (h : Skipped fs fs') : Inv fs' debt held := by
  have hdom := h.dentries
  have hmounted : fs'.mounted = fs.mounted := by rw [Fs.mounted, Fs.mounted, h.mountList]
  have hdentry : ∀ y ∈ fs.dentries, fs'.dentry y = fs.dentry y := fun y hy =>
    h.other y (Fs.mem_dentries.mp hy).1.ne
  have hpointers : ∀ y, pointers fs' fs.dentries fs.mounted y =
      pointers fs fs.dentries fs.mounted y := by
    intro y
    rw [pointers, pointers, h.sb, h.part,
      holders_congr fun z hz => congrArg (fun x : Dentry => x.parent) (hdentry z hz)]
  have hlent : ∀ y ∈ debt.lent, y < fs'.next ∧ ((fs'.dentry y).blockDev ∨ (fs'.dentry y).charDev) :=
    hinv.counted.lent_congr (by rw [h.next]; exact le_succ _) fun y hy => by
      rw [h.other y hy.ne]
      exact ⟨rfl, rfl⟩
  refine ⟨hdom ▸ hmounted ▸ ⟨fun y hy => ?_, fun y hy => ?_, fun y hy => ?_, hinv.counted.held,
    hinv.counted.leaked, hlent, ?_, fun y hy => ?_, hinv.counted.cache.congr h.cacheList
      (fun y hy => by rw [hdentry y hy]) (fun y hy => by rw [hdentry y hy]) fun y hy hy0 =>
        hinv.counted.cache.zero y hy (hdentry y hy ▸ hy0)⟩,
    hdom ▸ hmounted ▸ hinv.shape.agree ⟨good_iff_of_link (Finset.Subset.refl _)
      (fun x hx _ => hx) fun x hx => by rw [hdentry x hx], fun x hx => by rw [hdentry x hx.1],
      fun i _ => by rw [h.inode], h.nextInode.ge, fun s _ => congrFun h.sb s, h.nextSb.ge,
      fun q => by rw [h.part], h.root, fun _ _ q _ => by rw [h.part]⟩,
    hinv.bound.congr hdom.le h.nextSb.ge fun y hy => by rw [hdentry y hy]⟩
  · rw [h.next]
    exact lt_succ_of_lt (hinv.counted.lt y hy)
  · rw [refs, hpointers, hdentry y hy, h.root]
    exact hinv.counted.count y hy
  · exact hinv.counted.pointed y (hpointers y ▸ hy)
  · rw [h.freed, ← List.concat_eq_append]
    exact .concat (fun hmem => (hinv.counted.freed _ hmem).2.false) hinv.counted.log
  · rw [h.freed, List.mem_append, List.mem_singleton] at hy
    rw [h.next]
    rcases hy with hy | rfl
    · exact ⟨(hinv.counted.freed y hy).1, lt_succ_of_lt (hinv.counted.freed y hy).2⟩
    · exact ⟨fun hmem => (Fs.mem_dentries.mp hmem).1.false, lt_succ_self _⟩

/-- A dentry that is not linked yet is deleted, which frees it. -/
theorem skipped_dentryDelete {fs₁ : Fs β} {x : Dentry} (hnew : fs₁.dentry fs.next = x)
    (hrefcount : x.refcount = 1) (hparent : x.parent = none) (hinode : x.inode = none)
    (hflag : x.inCacheList = false) (h : Skipped fs { fs₁ with freed := fs₁.freed ++ [fs.next] }) :
    Skipped fs (fs₁.dentryDelete o fs.next) := by
  have hmark : fs₁.markDeleted fs.next = fs₁.modify fs.next fun x =>
      { x with deleted := true } := by
    unfold markDeleted
    dsimp only
    rw [dentry_modify, if_pos rfl, hnew, hflag, if_neg Bool.false_ne_true]
  have hdelete : fs₁.dentryDelete o fs.next =
      { (fs₁.modify fs.next fun x => { x with deleted := true }).modify fs.next
          (fun x => { x with refcount := x.refcount - 1 }) with
        freed := fs₁.freed ++ [fs.next] } := by
    rw [Fs.dentryDelete, hmark, Fs.dentryPut, Fs.putChain]
    simp [hnew, hrefcount, hparent, hinode, Fs.dentryFree]
    rfl
  rw [hdelete]
  refine ⟨fun y hy => ?_, h.next, h.freed, h.inode, h.nextInode, h.sb, h.nextSb, h.part,
    h.mountList, h.root, h.cacheList, h.fsRef⟩
  show ((fs₁.modify fs.next fun x => { x with deleted := true }).modify fs.next
    fun x => { x with refcount := x.refcount - 1 }).dentry y = _
  rw [dentry_modify, if_neg hy, dentry_modify, if_neg hy]
  exact h.other y hy

/-- A new dentry that the file system finds nothing for. -/
theorem skipped_create (name : Name) (b : β) : Skipped fs
    (({ fs.dentryCreate name none with backend := b }).dentryDelete o fs.next) :=
  skipped_dentryDelete (Function.update_self ..) rfl rfl rfl rfl
    ⟨fun _ hy => Function.update_of_ne hy _ _, rfl, rfl, rfl, rfl, rfl, rfl, rfl, rfl, rfl, rfl,
      rfl⟩

end Skip

end Osx64.Vfs
