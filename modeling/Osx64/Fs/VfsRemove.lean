import Osx64.Fs.VfsCalls

/-!
# Removing dentries

`sys_rmdir` and `sys_unlink` take a dentry out of the list of its parent some steps before they
mark it as deleted.  In between the tree is the one without it (`Loose`).  The same goes for
the task that frees dentries of the cache list.
-/

namespace Osx64.Vfs

open Finset Option List Vfs.Fs

variable {β : Type} {o : Backend β} {fs fs' fs'' : Fs β} {debt : Debt}
  {held : Multiset Nat} {d e p start cwd : Nat} {path : Path}

/-! ## Between calls -/

/-- A directory of the tree. -/
def Fs.Dir (fs : Fs β) (d : Nat) : Prop := fs.Good d ∧ isDir (fs.inodeOf d).mode = true

/-- What a call leaves alone for the files and processes that hold dentries. -/
structure Keeps (fs fs' : Fs β) (held : Multiset Nat) : Prop where
  next : fs.next ≤ fs'.next
  inMnt : ∀ d < fs.next, (fs'.dentry d).inMnt = (fs.dentry d).inMnt
  deleted : ∀ d < fs.next, (fs.dentry d).deleted = true → (fs'.dentry d).deleted = true
  dir : ∀ d ∈ held, fs.Dir d → fs'.Dir d
  sb : ∀ s ∈ fs.mounted, fs'.sb s = fs.sb s
  mounted : fs'.mounted = fs.mounted

theorem Frame.inodeOf (h : Frame fs fs') (hinv : Inv fs debt held) (hd : fs.Good d) :
    (fs'.inodeOf d).toAttr = (fs.inodeOf d).toAttr := by
  obtain ⟨i, hi, hinode, -⟩ := (hinv.shape.linked d hd).inode
  unfold Fs.inodeOf
  rw [h.inode d (Fs.mem_dentries.mp hd.1).1, hinode]
  exact h.attr i hi

theorem Frame.dir (h : Frame fs fs') (hinv : Inv fs debt held) (hd : fs.Dir d)
    (hd' : d ∈ fs'.dentries) : fs'.Dir d := by
  refine ⟨h.good hd.1 hd', ?_⟩
  rw [h.inodeOf hinv hd.1]
  exact hd.2

/-- The outcome of a call that does not change `fs_ref` of a mounted file system. -/
structure Done (fs fs' : Fs β) (debt : Debt) (held : Multiset Nat) : Prop where
  inv : Inv fs' debt held
  keeps : Keeps fs fs' held
  fsRef : ∀ s ∈ fs.mounted, fs'.fsRef s = fs.fsRef s

theorem Settled.done (h : Settled fs fs' debt held) (hinv : Inv fs debt held) :
    Done fs fs' debt held where
  inv := h.inv
  keeps := ⟨h.frame.next, h.frame.inMnt, fun d hd => (h.frame.deleted d hd).symm ▸ id,
    fun d hd hdir => h.frame.dir hinv hdir (h.inv.counted.held d hd),
    fun s _ => congrFun h.frame.sb s, h.frame.mounted⟩
  fsRef s _ := congrFun h.frame.fsRef s

/-! ## A dentry out of the tree -/

structure Loose (fs : Fs β) (d : Nat) (debt : Debt) (held : Multiset Nat) : Prop where
  counted : Counted fs fs.dentries fs.mounted debt held
  shape : Shape fs (fs.dentries.erase d) fs.mounted
  bound : fs.Bound

theorem Loose.dentryPut (h : Loose fs d debt (e ::ₘ held)) :
    Loose (fs.dentryPut o e) d debt held ∧ Same fs (fs.dentryPut o e) := by
  obtain ⟨dom', hcounted, hshrunk⟩ := h.counted.dentryPut (o := o)
  have hshape : Shape (fs.dentryPut o e) (dom'.erase d) fs.mounted := by
    refine h.shape.agree (hshrunk.same.agree (erase_subset_erase d hshrunk.sub)
      fun x hx hkeep => ?_)
    obtain ⟨hne, hx⟩ := mem_erase.mp hx
    exact mem_erase.mpr ⟨hne, hshrunk.kept x hx hkeep⟩
  rw [hshrunk.dentries_eq, ← hshrunk.same.mounted] at hcounted hshape
  exact ⟨⟨hcounted, hshape, hshrunk.bound h.bound⟩, hshrunk.same⟩

/-- A leaf is taken out of the list of its parent. -/
theorem Inv.listDel (h : Inv fs debt held) (hd : fs.Good d) (hp : (fs.dentry d).parent = some p)
    (hleaf : (fs.dentry d).children = []) (hpoint : (fs.dentry d).mountpoint = false) :
    Loose (fs.listDel p d) d debt held := by
  have hlink : ∀ x, ((fs.listDel p d).dentry x).toLink = { (fs.dentry x).toLink with
      children := if x = p then (fs.dentry x).children.filter (· ≠ d) else
        (fs.dentry x).children } := by
    intro x
    rw [Fs.listDel, dentry_modify]
    by_cases hx : x = p
    · rw [if_pos hx, if_pos hx, hx]
    · rw [if_neg hx, if_neg hx]
  have hgood : ∀ x, Good (fs.listDel p d) ((fs.listDel p d).dentries.erase d)
      (fs.listDel p d).mounted x ↔ fs.Good x ∧ x ≠ d := by
    intro x
    unfold Fs.Good Good
    rw [hlink, mem_erase]
    exact ⟨fun ⟨⟨hne, hx⟩, hrest⟩ => ⟨⟨hx, hrest⟩, hne⟩, fun ⟨⟨hx, hrest⟩, hne⟩ =>
      ⟨⟨hne, hx⟩, hrest⟩⟩
  have hroot : fs.root ≠ d := by
    rintro rfl
    rw [h.shape.rootTop] at hp
    cases hp
  have hinodeOf : ∀ x, (fs.listDel p d).inodeOf x = fs.inodeOf x := by
    intro x
    unfold Fs.inodeOf
    rw [hlink]
    rfl
  -- children other than the dentry stay where they are
  have hkeep : ∀ x c, c ∈ (fs.dentry x).children → c ≠ d →
      c ∈ if x = p then (fs.dentry x).children.filter (· ≠ d) else (fs.dentry x).children := by
    intro x c hc hne
    split
    · exact mem_filter.mpr ⟨hc, decide_eq_true hne⟩
    · exact hc
  refine ⟨h.counted.congr_parents rfl (fun _ _ => rfl) (fun _ => rfl) rfl (fun x => ?_) rfl rfl,
    ⟨fun x hx => ?_, fun s hs hne => ?_, h.shape.rootLive, h.shape.rootNone,
      (hgood _).mpr ⟨h.shape.rootGood, hroot⟩, ?_, ?_, h.shape.lt, h.shape.two⟩,
    h.bound.congr subset_rfl le_rfl fun x _ => by rw [hlink]⟩
  · rw [Fs.listDel, dentry_modify]
    split
    · next hx =>
      rw [hx]
      exact ⟨rfl, rfl, rfl, rfl, rfl, rfl⟩
    · exact ⟨rfl, rfl, rfl, rfl, rfl, rfl⟩
  · obtain ⟨hold, hxd⟩ := (hgood x).mp hx
    have hlinked := h.shape.linked x hold
    constructor <;> simp only [hgood, hlink, hinodeOf]
    · intro q hq
      obtain ⟨hq', hin, hmem⟩ := hlinked.parent q hq
      refine ⟨⟨hq', ?_⟩, hin, hkeep q x hmem hxd⟩
      rintro rfl
      rw [hleaf] at hmem
      cases hmem
    · exact hlinked.top
    · intro c hc
      have hc' : c ∈ (fs.dentry x).children ∧ (x = p → c ≠ d) := by
        split at hc
        · exact ⟨mem_of_mem_filter hc, fun _ => by simpa using (mem_filter.mp hc).2⟩
        · next hxp => exact ⟨hc, fun heq => absurd heq hxp⟩
      obtain ⟨hchild, hparent, hin⟩ := hlinked.children c hc'.1
      refine ⟨⟨hchild, ?_⟩, hparent, hin⟩
      rintro rfl
      exact hc'.2 (some_inj.mp (hparent.symm.trans hp)) rfl
    · split
      · exact hlinked.nodup.filter _
      · exact hlinked.nodup
    · exact hlinked.inode
    · exact hlinked.mount
    · exact hlinked.flag
    · exact hlinked.device
  · obtain ⟨r, m, hm⟩ := h.shape.mounted s hs hne
    refine ⟨r, m, hm.carry rfl rfl ⟨(hgood r).mpr ⟨hm.rootGood, ?_⟩, ?_, ?_⟩
      ⟨(hgood m).mpr ⟨hm.mountpointGood, ?_⟩, ?_, ?_, ?_⟩ fun _ _ => ⟨rfl, rfl⟩⟩
    · rintro rfl
      rw [hm.rootTop] at hp
      cases hp
    · rw [hlink]
    · rw [hlink]
    · rintro rfl
      have hflag := (h.shape.linked m hm.mountpointGood).flag
      rw [hpoint, hm.here] at hflag
      cases hflag
    · rw [hlink]
    · rw [hlink]
    · rw [hinodeOf]
  · show ((fs.listDel p d).dentry fs.root).inMnt = _
    rw [hlink]
    exact h.shape.rootIn
  · show ((fs.listDel p d).dentry fs.root).parent = _
    rw [hlink]
    exact h.shape.rootTop

/-- The mark makes the tree without the dentry the whole tree. -/
theorem Loose.markDeleted (h : Loose fs d debt (d ::ₘ held)) :
    Inv (fs.markDeleted d) debt (d ::ₘ held) := by
  have hcounted := h.counted.markDeleted
  obtain ⟨num, list, heq⟩ := fs.markDeleted_eq d
  rw [heq] at hcounted ⊢
  refine ⟨hcounted, h.shape.agree ⟨fun x => ?_, fun x hx => ?_, fun _ _ => rfl, le_rfl,
    fun _ _ => rfl,
    le_rfl, fun _ => rfl, rfl, fun _ _ _ _ => rfl⟩, h.bound.congr le_rfl le_rfl fun x _ => ?_⟩
  · unfold Good
    change x ∈ fs.dentries ∧ _ ↔ _
    rw [mem_erase]
    by_cases hxd : x = d
    · simp [hxd]
    · simp [hxd]
  · simp [ne_of_mem_erase hx.1]
  · dsimp only
    rw [dentry_modify]
    split
    · next hx => rw [hx]
    · rfl

/-- What is left of all dentries but one, when that one is freed. -/
theorem Shrunk.dentries_dentryFree {dom' : Finset Nat}
    (h : Shrunk fs fs' (fs.dentries.erase d) dom') (hd : d ∈ fs.dentries) :
    (fs'.dentryFree o d).dentries = dom' := by
  obtain ⟨hsame, -, -, hlog⟩ := dentryFree_spec (o := o) (d := d) fs'
  obtain ⟨hlt, hfreed⟩ := Fs.mem_dentries.mp hd
  ext x
  rw [Fs.mem_dentries, hsame.next, h.same.next, hlog, mem_append, List.mem_singleton, not_or]
  constructor
  · rintro ⟨hxlt, hx, hxd⟩
    by_contra hnot
    have hmem : x ∈ fs.dentries := Fs.mem_dentries.mpr ⟨hxlt, fun hmem => hx (h.mono x hmem)⟩
    exact hx (h.lost x (mem_erase.mpr ⟨hxd, hmem⟩) hnot)
  · intro hx
    obtain ⟨hxd, hmem⟩ := mem_erase.mp (h.sub hx)
    obtain ⟨hxlt, hxfreed⟩ := Fs.mem_dentries.mp hmem
    refine ⟨hxlt, fun hlost => ?_, hxd⟩
    rcases h.freed x hlost with hlost | ⟨-, hlost⟩
    · exact hxfreed hlost
    · exact hlost hx

theorem Keeps.of_links (hinv : Inv fs' debt held) (hnext : fs'.next = fs.next)
    (hlink : ∀ x, (fs'.dentry x).inMnt = (fs.dentry x).inMnt ∧
      (fs'.dentry x).inode = (fs.dentry x).inode)
    (hattr : ∀ i, (fs'.inode i).toAttr = (fs.inode i).toAttr)
    (hmono : ∀ x, (fs.dentry x).deleted = true → (fs'.dentry x).deleted = true)
    (hdeleted : ∀ x ∈ held, fs.Dir x → (fs'.dentry x).deleted = (fs.dentry x).deleted)
    (hsb : fs'.sb = fs.sb) (hmountList : fs'.mountList = fs.mountList) : Keeps fs fs' held := by
  have hmounted : fs'.mounted = fs.mounted := by rw [Fs.mounted, Fs.mounted, hmountList]
  refine ⟨hnext.ge, fun x _ => (hlink x).1, fun x _ => hmono x,
    fun x hx hdir => ⟨⟨hinv.counted.held x hx, ?_, ?_⟩, ?_⟩, fun s _ => congrFun hsb s, hmounted⟩
  · rw [hdeleted x hx hdir]
    exact hdir.1.2.1
  · rw [(hlink x).1, hmounted]
    exact hdir.1.2.2
  · have hinode : (fs'.inodeOf x).toAttr = (fs.inodeOf x).toAttr := by
      unfold Fs.inodeOf
      rw [(hlink x).2]
      cases (fs.dentry x).inode with
      | none => rfl
      | some i => exact hattr i
    rw [hinode]
    exact hdir.2

theorem Fs.link_listDel (x : Nat) :
    ((fs.listDel p d).dentry x).inMnt = (fs.dentry x).inMnt ∧
      ((fs.listDel p d).dentry x).deleted = (fs.dentry x).deleted ∧
      ((fs.listDel p d).dentry x).inode = (fs.dentry x).inode := by
  rw [Fs.listDel, dentry_modify]
  split
  · next hx =>
    rw [hx]
    exact ⟨rfl, rfl, rfl⟩
  · exact ⟨rfl, rfl, rfl⟩

/-! ## `sys_rmdir` and `sys_unlink` -/

/-- The end of `sys_rmdir` and `sys_unlink`. -/
theorem Inv.removeFrom (h : Inv fs debt (p ::ₘ start ::ₘ d ::ₘ held)) (hd : fs.Good d)
    (hp : (fs.dentry d).parent = some p) (hleaf : (fs.dentry d).children = [])
    (hpoint : (fs.dentry d).mountpoint = false) (hdir : ∀ x ∈ held, fs.Dir x → x ≠ d) :
    Done fs (fs.removeFrom o p d start) debt held := by
  unfold Fs.removeFrom
  have hloose := h.listDel hd hp hleaf hpoint
  obtain ⟨hloose₁, hsame₁⟩ := hloose.dentryPut (o := o)
  obtain ⟨hloose₂, hsame₂⟩ := hloose₁.dentryPut (o := o)
  dsimp only
  generalize ((fs.listDel p d).dentryPut o p).dentryPut o start = fs₂ at hloose₂ hsame₂ ⊢
  -- the link count of the inode
  obtain ⟨fs₃, hfs₃, hloose₃, hsame₃⟩ : ∃ fs₃, ((fs₂.dentry d).inode.elim fs₂ fun i =>
      fs₂.modifyInode i fun x => { x with linkCount := x.linkCount - 1 }) = fs₃ ∧
      Loose fs₃ d debt (d ::ₘ held) ∧ Same fs₂ fs₃ := by
    cases (fs₂.dentry d).inode with
    | none => exact ⟨_, rfl, hloose₂, .refl fs₂⟩
    | some i =>
      have hsame : Same fs₂ (fs₂.modifyInode i fun x => { x with linkCount := x.linkCount - 1 }) :=
        same_modifyInode rfl
      refine ⟨_, rfl, ⟨?_, ?_, hloose₂.bound⟩, hsame⟩
      · exact hloose₂.counted.congr_parents rfl (fun _ _ => rfl) (fun _ => rfl) rfl
          (fun _ => ⟨rfl, rfl, rfl, rfl, rfl, rfl⟩) rfl rfl
      · exact hloose₂.shape.agree ⟨fun _ => Iff.rfl, fun _ _ => rfl, fun j _ => hsame.attr j,
          le_rfl, fun _ _ => rfl, le_rfl, fun _ => rfl, rfl, fun _ _ _ _ => rfl⟩
  rw [hfs₃, dentryDelete]
  obtain ⟨hinv, hsame₄⟩ := hloose₃.markDeleted.dentryPut (o := o)
  have hsame : Same (fs.listDel p d) fs₃ := (hsame₁.trans hsame₂).trans hsame₃
  have hmark : ∀ x, ((fs₃.markDeleted d).dentry x).toLink =
      { (fs₃.dentry x).toLink with deleted := (fs₃.dentry x).deleted || decide (x = d) } := by
    intro x
    rw [dentry_markDeleted, dentry_modify]
    by_cases hx : x = d
    · simp [hx]
    · simp [hx]
  have hfields : (fs₃.markDeleted d).inode = fs₃.inode ∧ (fs₃.markDeleted d).sb = fs₃.sb ∧
      (fs₃.markDeleted d).next = fs₃.next ∧ (fs₃.markDeleted d).mountList = fs₃.mountList ∧
      (fs₃.markDeleted d).fsRef = fs₃.fsRef := by
    unfold markDeleted
    dsimp only
    split <;> exact ⟨rfl, rfl, rfl, rfl, rfl⟩
  refine ⟨hinv, .of_links hinv ?_ (fun x => ?_) (fun i => ?_) (fun x hx => ?_)
    (fun x hx hxdir => ?_) ?_ ?_, fun s _ => ?_⟩
  · rw [hsame₄.next, hfields.2.2.1, hsame.next]
    rfl
  · rw [hsame₄.link, hmark, hsame.link]
    exact ⟨(link_listDel x).1, (link_listDel x).2.2⟩
  · rw [hsame₄.attr, hfields.1]
    exact hsame.attr i
  · rw [hsame₄.link, hmark, hsame.link]
    simp only [(link_listDel x).2.1, hx, Bool.true_or]
  · rw [hsame₄.link, hmark, hsame.link]
    simp only [(link_listDel x).2.1, hdir x hx hxdir, decide_false, Bool.or_false]
  · rw [hsame₄.sb, hfields.2.1, hsame.sb]
    rfl
  · rw [hsame₄.mountList, hfields.2.2.2.1, hsame.mountList]
    rfl
  · rw [hsame₄.fsRef, hfields.2.2.2.2, hsame.fsRef]
    rfl

/-- A call that settles in between goes on to its end. -/
theorem Settled.done_trans {held' : Multiset Nat} (h : Settled fs fs' debt held')
    (hinv : Inv fs debt held) (hsub : held ≤ held') (hdone : Done fs' fs'' debt held) :
    Done fs fs'' debt held where
  inv := hdone.inv
  keeps := by
    have hheld : ∀ x ∈ held, x ∈ fs'.dentries := fun x hx =>
      h.inv.counted.held x (Multiset.mem_of_le hsub hx)
    refine ⟨h.frame.next.trans hdone.keeps.next, fun x hx => ?_, fun x hx hdel => ?_,
      fun x hx hdir => ?_, fun s hs => ?_, ?_⟩
    · rw [hdone.keeps.inMnt x (hx.trans_le h.frame.next)]
      exact h.frame.inMnt x hx
    · refine hdone.keeps.deleted x (hx.trans_le h.frame.next) ?_
      rw [h.frame.deleted x hx]
      exact hdel
    · exact hdone.keeps.dir x hx (h.frame.dir hinv hdir (hheld x hx))
    · rw [hdone.keeps.sb s (h.frame.mounted ▸ hs), h.frame.sb]
    · rw [hdone.keeps.mounted, h.frame.mounted]
  fsRef s hs := by rw [hdone.fsRef s (h.frame.mounted ▸ hs), h.frame.fsRef]

/-- The only reference to a directory that may be removed is the one of the call. -/
theorem Counted.notMem_of_refcount_one {dom live : Finset Nat}
    (h : Counted fs dom live debt (d ::ₘ held)) (hone : (fs.dentry d).refcount = 1) : d ∉ held := by
  have hcount := h.refcount_pos
  exact Multiset.count_eq_zero.mp (by omega)

/-- The two ways on from a dentry whose parent has been taken: the references are given back, or the
dentry is removed. -/
theorem Settled.removeFrom (hsettled : Settled fs fs' debt (d ::ₘ start ::ₘ held))
    (h : Inv fs debt held) (hd : fs'.Good d) (hparent : (fs'.dentry d).parent = some p)
    (hpoint : (fs'.dentry d).mountpoint = false) (b : β) :
    Done fs ((({ fs'.dentryGet p with backend := b }.dentryPut o p).dentryPut o d).dentryPut
      o start)
      debt held ∧
    ((fs'.dentry d).children = [] →
      (∀ x ∈ held, ({ fs'.dentryGet p with backend := b } : Fs β).Dir x → x ≠ d) →
      Done fs ({ fs'.dentryGet p with backend := b }.removeFrom o p d start) debt held) := by
  obtain ⟨hgood, -, -⟩ := (hsettled.inv.shape.linked d hd).parent p hparent
  obtain ⟨hget, -⟩ := hsettled.get hgood
  refine ⟨((((hget.backend b).put (o := o)).put (o := o)).put).done h, fun hleaf hdir => ?_⟩
  have hsame : Same fs' (fs'.dentryGet p) := same_dentryGet
  have hnext := hget.backend b
  rw [Multiset.cons_swap d] at hnext
  refine hnext.done_trans h ?_ (hnext.inv.removeFrom ?_ ?_ ?_ ?_ hdir)
  · exact ((Multiset.le_cons_self _ _).trans (Multiset.le_cons_self _ _)).trans
      (Multiset.le_cons_self _ _)
  · exact (Frame.of_same hsame).good hd hd.1
  · exact (hsame.parent d).trans hparent
  · exact (congrArg Link.children (hsame.link d)).trans hleaf
  · exact (congrArg Link.mountpoint (hsame.link d)).trans hpoint

theorem Inv.sysRmdir (h : Inv fs debt held) (hcwd : fs.Good cwd) (path : Path) :
    Done fs (fs.sysRmdir o cwd path).1 debt held := by
  unfold Fs.sysRmdir
  split
  · exact (Settled.refl h).done h
  dsimp only
  split
  · next fs₁ hlookup => exact (h.begin hcwd path _ hlookup).1.put.done h
  · next fs₁ d hlookup =>
    obtain ⟨hsettled, hstart, hfound⟩ := h.begin hcwd path _ hlookup
    obtain ⟨hd, hpoint⟩ := hfound d rfl
    rw [elim_some] at hsettled
    split
    · exact ((hsettled.put (o := o)).put).done h
    split
    · exact ((hsettled.put (o := o)).put).done h
    · next parent hparent =>
      have hways := hsettled.removeFrom (o := o) h hd hparent hpoint
      split
      · exact (hways _).1
      · next hbusy =>
        split
        · next b hrmdir => exact (hways b).1
        · next b hrmdir =>
          simp only [Bool.or_eq_true, Bool.not_eq_true', not_or, Bool.not_eq_false,
            List.isEmpty_iff, bne_iff_ne, ne_eq, Decidable.not_not, Bool.not_eq_true] at hbusy
          obtain ⟨⟨hleaf, -⟩, hone⟩ := hbusy
          have hsame : Same fs₁ (fs₁.dentryGet parent) := same_dentryGet
          refine (hways b).2 ((congrArg Link.children (hsame.link d)).symm.trans hleaf) ?_
          rintro x hx - rfl
          obtain ⟨hgood, -, -⟩ := (hsettled.inv.shape.linked x hd).parent parent hparent
          have hcounted := (hsettled.get hgood).1.inv.counted
          rw [Multiset.cons_swap _ x] at hcounted
          refine hcounted.notMem_of_refcount_one hone ?_
          exact Multiset.mem_cons_of_mem (Multiset.mem_cons_of_mem hx)

/-- `sys_unlink` takes the dentry from the list of its parent without a look at the dentries
below it, which even a file can have. -/
def Fs.UnlinksLeaf (o : Backend β) (fs : Fs β) (cwd : Nat) (path : Path) : Prop :=
  ∀ fs' d, (fs.dentryGet (fs.startOf cwd path)).lookupLocked o (some (fs.startOf cwd path)) path =
    (fs', some d) → isDir (fs'.inodeOf d).mode = false → (fs'.dentry d).children = []

theorem Inv.sysUnlink (h : Inv fs debt held) (hcwd : fs.Good cwd) (path : Path)
    (hleaf : fs.UnlinksLeaf o cwd path) :
    Done fs (fs.sysUnlink o cwd path).1 debt held := by
  unfold Fs.sysUnlink
  split
  · exact (Settled.refl h).done h
  dsimp only
  split
  · next fs₁ hlookup => exact (h.begin hcwd path _ hlookup).1.put.done h
  · next fs₁ d hlookup =>
    obtain ⟨hsettled, hstart, hfound⟩ := h.begin hcwd path _ hlookup
    obtain ⟨hd, hpoint⟩ := hfound d rfl
    rw [elim_some] at hsettled
    split
    · exact ((hsettled.put (o := o)).put).done h
    next hdir =>
    split
    · exact ((hsettled.put (o := o)).put).done h
    · next parent hparent =>
      have hways := hsettled.removeFrom (o := o) h hd hparent hpoint
      split
      · next b hunlink => exact (hways b).1
      · next b hunlink =>
        refine (hways b).2 (hleaf fs₁ d hlookup (Bool.eq_false_iff.mpr hdir)) ?_
        rintro x - hxdir rfl
        have hsame : Same fs₁ (fs₁.dentryGet parent) := same_dentryGet
        have hmode := congrArg Attr.mode (hsame.inodeOf x)
        exact hdir (hmode ▸ hxdir.2)

/-! ## `dentry_cache_task` -/

/-- A dentry without references leaves the cache list; its pointer to the parent is now one that
is held. -/
theorem Counted.forget {dom live : Finset Nat} (h : Counted fs dom live debt held) (hd : d ∈ dom)
    (hzero : (fs.dentry d).refcount = 0) :
    Counted { fs with cacheList := fs.cacheList.filter (· ≠ d) } (dom.erase d) live debt
      ((fs.dentry d).parent.elim held fun p => p ::ₘ held) := by
  have hnone : refs fs dom live debt d = 0 ∧ held.count d = 0 := by
    have := h.count d hd
    omega
  refine h.without ⟨fun _ => rfl, fun _ => rfl, rfl, rfl, rfl, rfl, rfl, rfl, rfl, rfl⟩ hd hnone.1
    (Multiset.count_eq_zero.mp hnone.2) (fun _ _ => rfl) (fun _ _ => rfl) rfl
    ⟨fun x hx => ?_, fun x hx => ?_, h.cache.nodup.filter _, fun x hx hx0 => ?_⟩
  · obtain ⟨hxd, hx⟩ := mem_erase.mp hx
    rw [mem_filter, h.cache.mem x hx]
    exact ⟨fun hmem => hmem.1, fun hmem => ⟨hmem, decide_eq_true hxd⟩⟩
  · obtain ⟨hx, hxd⟩ := mem_filter.mp hx
    exact mem_erase.mpr ⟨of_decide_eq_true hxd, h.cache.allocated x hx⟩
  · obtain ⟨hxd, hx⟩ := mem_erase.mp hx
    exact mem_filter.mpr ⟨h.cache.zero x hx hx0, decide_eq_true hxd⟩

section

variable (h : Inv fs debt held)
include h

/-- The dentry goes to the end of the cache list. -/
theorem Inv.requeue (hd : d ∈ fs.cacheList) :
    Inv { fs with cacheList := fs.cacheList.filter (· ≠ d) ++ [d] } debt held := by
  have hmem : ∀ x, x ∈ fs.cacheList.filter (· ≠ d) ++ [d] ↔ x ∈ fs.cacheList := by
    intro x
    rw [mem_append, mem_filter, List.mem_singleton]
    by_cases hxd : x = d
    · simp [hxd, hd]
    · simp [hxd]
  have hcache := h.counted.cache
  refine ⟨{ h.counted with
      cache := ⟨fun x hx => (hmem x).trans (hcache.mem x hx),
        fun x hx => hcache.allocated x ((hmem x).mp hx), ?_,
        fun x hx hx0 => (hmem x).mpr (hcache.zero x hx hx0)⟩ },
    h.shape.agree ⟨fun _ => Iff.rfl, fun _ _ => rfl, fun _ _ => rfl, le_rfl, fun _ _ => rfl, le_rfl,
      fun _ => rfl, rfl, fun _ _ _ _ => rfl⟩, h.bound⟩
  rw [← concat_eq_append]
  exact .concat (fun hx => of_decide_eq_true (mem_filter.mp hx).2 rfl) (hcache.nodup.filter _)

/-- Nothing hangs below a dentry without references. -/
theorem Inv.children_of_zero (hd : fs.Good d)
    (hzero : (fs.dentry d).refcount = 0) : (fs.dentry d).children = [] := by
  refine eq_nil_iff_forall_not_mem.mpr fun c hc => ?_
  obtain ⟨hgood, hparent, -⟩ := (h.shape.linked d hd).children c hc
  have hpos := pointers_parent fs.mounted hgood.1 hparent
  have hcount := h.counted.count d hd.1
  unfold refs at hcount
  omega

/-- The tree without a dentry that has no references, when its parent has been told. -/
theorem Inv.forget_shape (hd : d ∈ fs.dentries) (hzero : (fs.dentry d).refcount = 0) :
    Shape ((fs.dentry d).parent.elim fs fun p => fs.listDel p d) (fs.dentries.erase d)
      fs.mounted := by
  have hrefs : refs fs fs.dentries fs.mounted debt d = 0 := by
    have := h.counted.count d hd
    omega
  by_cases hgood : fs.Good d
  · -- a dentry without a parent is the root of a file system, so there is a pointer to it
    have hlinked := h.shape.linked d hgood
    cases hparent : (fs.dentry d).parent with
    | none =>
      rcases hlinked.top hparent with hroot | ⟨s, hs, hroot⟩
      · rw [refs, if_pos hroot] at hrefs
        omega
      · have hpos := holders_pos (fun s => (fs.sb s).root) hs hroot
        unfold refs pointers at hrefs
        omega
    | some p =>
      refine (h.listDel hgood hparent (h.children_of_zero hgood hzero) ?_).shape
      rw [hlinked.flag]
      cases hhere : (fs.dentry d).mountedHere with
      | none => rfl
      | some s =>
        obtain ⟨hs, hpoint⟩ := hlinked.mount s hhere
        have hpos := holders_pos (fun s => (fs.sb s).mountpoint) hs hpoint
        unfold refs pointers at hrefs
        omega
  · -- a dentry that is not in the tree is in no list of children
    have hlink : ∀ x, fs.Good x →
        (((fs.dentry d).parent.elim fs fun p => fs.listDel p d).dentry x).toLink =
          (fs.dentry x).toLink := by
      intro x hx
      cases (fs.dentry d).parent with
      | none => rfl
      | some p =>
        rw [elim_some, Fs.listDel, dentry_modify]
        split
        · next hxp =>
          subst hxp
          have hnot : (fs.dentry x).children.filter (· ≠ d) = (fs.dentry x).children := by
            refine filter_eq_self.mpr fun c hc => decide_eq_true ?_
            rintro rfl
            exact hgood ((h.shape.linked x hx).children c hc).1
          rw [hnot]
        · rfl
    have hfields : ∀ x, (((fs.dentry d).parent.elim fs fun p => fs.listDel p d).dentry x).inMnt =
        (fs.dentry x).inMnt ∧ (((fs.dentry d).parent.elim fs fun p =>
          fs.listDel p d).dentry x).deleted =
        (fs.dentry x).deleted := by
      intro x
      cases (fs.dentry d).parent with
      | none => exact ⟨rfl, rfl⟩
      | some p => exact ⟨(link_listDel x).1, (link_listDel x).2.1⟩
    refine h.shape.agree ⟨fun x => ?_, hlink, fun i _ => ?_, ?_, fun s _ => ?_, ?_, fun q => ?_, ?_,
      fun _ _ q _ => ?_⟩
    · unfold Good
      rw [(hfields x).1, (hfields x).2, mem_erase]
      refine ⟨fun hx => ⟨hx.1.2, hx.2⟩, fun hx => ⟨⟨?_, hx.1⟩, hx.2⟩⟩
      rintro rfl
      exact hgood hx
    all_goals cases (fs.dentry d).parent <;> rfl

/-- A round of `dentry_cache_task`. -/
theorem Inv.evict (hd : d ∈ fs.cacheList) : Done fs (fs.evict o d) debt held := by
  have hdom := h.counted.cache.allocated d hd
  unfold Fs.evict
  dsimp only
  split
  · next hzero =>
    have hforget := h.counted.forget hdom hzero
    have hshape := h.forget_shape hdom hzero
    -- the list of the parent and its count
    obtain ⟨fs₁, fs₂, dom', hfs₂, hcounted, hshrunk, hlinks⟩ : ∃ fs₁ fs₂ dom',
        ((fs.dentry d).parent.elim { fs with cacheList := fs.cacheList.filter (· ≠ d) } fun p =>
          (({ fs with cacheList := fs.cacheList.filter (· ≠ d) }).listDel p d).dentryPut o p) =
            fs₂ ∧ Counted fs₂ dom' fs.mounted debt held ∧
          Shrunk fs₁ fs₂ (fs.dentries.erase d) dom' ∧
          fs₁ = { (fs.dentry d).parent.elim fs fun p => fs.listDel p d with
            cacheList := fs.cacheList.filter (· ≠ d) } := by
      cases hp : (fs.dentry d).parent with
      | none =>
        rw [hp] at hforget
        exact ⟨_, _, _, rfl, hforget, Same.shrunk (.refl _) rfl, rfl⟩
      | some p =>
        rw [hp] at hforget
        have hdel : Counted (({ fs with cacheList := fs.cacheList.filter (· ≠ d) }).listDel p d)
            (fs.dentries.erase d) fs.mounted debt (p ::ₘ held) := by
          refine hforget.congr_parents rfl (fun _ _ => rfl) (fun _ => rfl) rfl (fun x => ?_) rfl rfl
          rw [Fs.listDel, dentry_modify]
          split
          · next hx =>
            rw [hx]
            exact ⟨rfl, rfl, rfl, rfl, rfl, rfl⟩
          · exact ⟨rfl, rfl, rfl, rfl, rfl, rfl⟩
        obtain ⟨dom', hcounted, hshrunk⟩ := hdel.dentryPut (o := o)
        exact ⟨_, _, dom', rfl, hcounted, hshrunk, rfl⟩
    rw [hfs₂]
    have hfields : fs₁.next = fs.next ∧ fs₁.freed = fs.freed ∧ fs₁.mountList = fs.mountList ∧
        fs₁.sb = fs.sb ∧ fs₁.nextSb = fs.nextSb ∧ fs₁.fsRef = fs.fsRef ∧ fs₁.inode = fs.inode := by
      subst hlinks
      cases (fs.dentry d).parent <;> exact ⟨rfl, rfl, rfl, rfl, rfl, rfl, rfl⟩
    have hlink : ∀ x, (fs₁.dentry x).inMnt = (fs.dentry x).inMnt ∧
        (fs₁.dentry x).deleted = (fs.dentry x).deleted ∧
        (fs₁.dentry x).inode = (fs.dentry x).inode := by
      intro x
      subst hlinks
      cases (fs.dentry d).parent with
      | none => exact ⟨rfl, rfl, rfl⟩
      | some p => exact link_listDel x
    obtain ⟨hnext, hfreed, hmountList, hsb, hnextSb, hfsRef, hinode⟩ := hfields
    have hdentries : fs₁.dentries = fs.dentries := by
      rw [dentries, dentries, hnext, hfreed]
    rw [← hdentries] at hshrunk hdom
    generalize hfs₃ : ({ fs₂ with cacheNum := fs₂.cacheNum - 1 } : Fs β) = fs₃
    have hcounted₃ : Counted fs₃ dom' fs.mounted debt held := hfs₃ ▸
      hcounted.congr_parents rfl (fun _ _ => rfl) (fun _ => rfl) rfl
        (fun _ => ⟨rfl, rfl, rfl, rfl, rfl, rfl⟩) rfl rfl
    have hshrunk₃ : Shrunk fs₁ fs₃ (fs₁.dentries.erase d) dom' := by
      subst hfs₃
      exact { hshrunk with same := hshrunk.same.aside }
    obtain ⟨hfree, hdentry, -, -⟩ := dentryFree_spec (o := o) (d := d) fs₃
    have hall := hshrunk₃.same.trans hfree
    have hd' : d ∉ dom' := fun hmem => notMem_erase d _ (hshrunk.sub hmem)
    have hnew := hshrunk₃.notMem_freed (Fs.mem_dentries.mp hdom).2
    have hlt : d < fs₃.next := hshrunk₃.same.next ▸ (Fs.mem_dentries.mp hdom).1
    have hmounted : (fs₃.dentryFree o d).mounted = fs.mounted := by
      rw [Fs.mounted, Fs.mounted, hall.mountList, hmountList]
    have hinv : Inv (fs₃.dentryFree o d) debt held := by
      refine ⟨?_, ?_, ?_⟩
      · rw [hshrunk₃.dentries_dentryFree hdom, hmounted]
        exact hcounted₃.dentryFree hlt hd' hnew
      · rw [hshrunk₃.dentries_dentryFree hdom, hmounted]
        have hshape₁ : Shape fs₁ (fs₁.dentries.erase d) fs.mounted := by
          rw [hdentries, hlinks]
          exact hshape.agree ⟨fun _ => Iff.rfl, fun _ _ => rfl, fun _ _ => rfl, le_rfl,
            fun _ _ => rfl, le_rfl, fun _ => rfl, rfl, fun _ _ _ _ => rfl⟩
        refine (hshape₁.shrink hshrunk₃).agree ⟨fun x => ?_, fun x _ => hfree.link x,
          fun i _ => hfree.attr i, hfree.nextInode.ge, fun s _ => congrFun hfree.sb s,
          hfree.nextSb.ge, fun q => by rw [hfree.part], hfree.root, fun _ _ q _ => by
            rw [hfree.part]⟩
        unfold Good
        rw [hdentry]
      · refine h.bound.congr ?_ ?_ fun x _ => ?_
        · rw [hshrunk₃.dentries_dentryFree hdom]
          exact hshrunk.sub.trans ((erase_subset _ _).trans hdentries.le)
        · rw [hall.nextSb, hnextSb]
        · rw [hall.inMnt]
          exact (hlink x).1
    have hdeleted : ∀ x, ((fs₃.dentryFree o d).dentry x).deleted = (fs.dentry x).deleted := by
      intro x
      rw [hall.link]
      exact (hlink x).2.1
    refine ⟨hinv, .of_links hinv ?_ (fun x => ?_) (fun i => ?_) (fun x hx => ?_)
      (fun x _ _ => hdeleted x) ?_ ?_, fun s _ => ?_⟩
    · rw [hall.next, hnext]
    · rw [hall.link]
      exact ⟨(hlink x).1, (hlink x).2.2⟩
    · rw [hall.attr, hinode]
    · rw [hdeleted, hx]
    · rw [hall.sb, hsb]
    · rw [hall.mountList, hmountList]
    · rw [hall.fsRef, hfsRef]
  · have hinv := h.requeue hd
    exact ⟨hinv, .of_links hinv rfl (fun _ => ⟨rfl, rfl⟩) (fun _ => rfl) (fun _ hx => hx)
      (fun _ _ _ => rfl) rfl rfl, fun _ _ => rfl⟩

theorem Inv.dentryCacheTask : Done fs (fs.dentryCacheTask o) debt held := by
  unfold Fs.dentryCacheTask
  split
  · exact (Settled.refl h).done h
  · cases hhead : fs.cacheList.head? with
    | none => exact (Settled.refl h).done h
    | some d => exact h.evict (mem_of_mem_head? hhead)

end

end Osx64.Vfs
