import Osx64.Fs.VfsShape

/-!
# Path resolution keeps the invariant

Every step of `__vfs_lookup_locked` takes a reference to the next dentry and gives the one to
the current dentry back.  So a lookup that fails leaves the references as they were, and one
that succeeds adds a reference to its result, which is a dentry of the tree that no file system
is mounted on.
-/

namespace Osx64.Vfs

open Vfs.Fs

variable {β : Type} {o : Backend β} {fs fs' : Fs β} {debt : Debt} {held : Multiset Nat}
  {d current : Nat} {name : Name}

/-- The outcome of a function that looks for a dentry. -/
structure Arrives (fs : Fs β) (debt : Debt) (held : Multiset Nat)
    (r : Fs β × Option Nat) : Prop where
  frame : Frame fs r.1
  inv : Inv r.1 debt (r.2.elim held fun d => d ::ₘ held)
  good : ∀ d, r.2 = some d → r.1.Good d

/-- One more reference. -/
theorem Inv.arrives_dentryGet (h : Inv fs debt held) (hd : fs.Good d) :
    Arrives fs debt held (fs.dentryGet d, some d) := by
  have hframe : Frame fs (fs.dentryGet d) := .of_same same_dentryGet
  have hinv := h.dentryGet hd.1
  refine ⟨hframe, hinv, fun e he => ?_⟩
  cases he
  exact hframe.good hd hinv.mem_dentries

/-- The root of a mounted file system is not a mount point itself. -/
theorem Inv.mountpoint_of_top (h : Inv fs debt held) (hd : fs.Good d)
    (htop : (fs.dentry d).parent = none) : (fs.dentry d).mountpoint = false := by
  have hlinked := h.shape.linked d hd
  rw [hlinked.flag]
  cases hhere : (fs.dentry d).mountedHere with
  | none => rfl
  | some s =>
    obtain ⟨hs, hpoint⟩ := hlinked.mount s hhere
    obtain ⟨r, hm⟩ := h.shape.mountedAt hs hpoint
    exact absurd htop hm.below

theorem Inv.goUp (h : Inv fs debt held) (hcurrent : fs.Good current) :
    Arrives fs debt held ((fs.goUp current).1, some (fs.goUp current).2) := by
  unfold Fs.goUp
  obtain ⟨s, hs, hin⟩ := hcurrent.2.2
  rw [hin]
  dsimp only
  split
  · next hroot =>
    -- the root of a mounted file system: the mount point has a parent
    have hne : s ≠ rootSb := by
      rintro rfl
      rw [h.shape.rootNone.1] at hroot
      cases hroot
    obtain ⟨r, m, hm⟩ := h.shape.mounted s hs hne
    rw [hm.mountpoint]
    dsimp only
    cases hp : (fs.dentry m).parent with
    | none => exact absurd hp hm.below
    | some p => exact h.arrives_dentryGet ((h.shape.linked m hm.mountpointGood).parent p hp).1
  · cases hp : (fs.dentry current).parent with
    | none => exact h.arrives_dentryGet hcurrent
    | some p => exact h.arrives_dentryGet ((h.shape.linked current hcurrent).parent p hp).1

/-- The new dentries of lookups, `O_CREAT` and `mkdir`: below `p`, with a new inode, and with
one reference. -/
structure Hung (fs fs' : Fs β) (p : Nat) (name : Name) (info : NewInode) : Prop where
  new : fs'.dentry fs.next = {
    name := name, inode := some fs.nextInode, parent := some p, children := [],
    mountpoint := false, blockDev := false, charDev := false, deleted := false,
    mountedHere := none, inMnt := (fs.dentry p).inMnt, refcount := 1, inCacheList := false }
  parent : fs'.dentry p = { fs.dentry p with
    refcount := (fs.dentry p).refcount + 1, children := (fs.dentry p).children ++ [fs.next] }
  other : ∀ y, y ≠ fs.next → y ≠ p → fs'.dentry y = fs.dentry y
  inode : fs'.inode = Function.update fs.inode fs.nextInode
    ⟨⟨info.mode, (fs.inodeOf p).sb, info.priv⟩, info.refcount, info.linkCount⟩
  next : fs'.next = fs.next + 1
  nextInode : fs'.nextInode = fs.nextInode + 1
  sb : fs'.sb = fs.sb
  nextSb : fs'.nextSb = fs.nextSb
  mountList : fs'.mountList = fs.mountList
  root : fs'.root = fs.root
  freed : fs'.freed = fs.freed
  cacheList : fs'.cacheList = fs.cacheList
  part : fs'.part = fs.part
  fsRef : fs'.fsRef = fs.fsRef

theorem Inv.inMnt_eq (h : Inv fs debt held) (hd : fs.Good d) :
    (fs.dentry d).inMnt = some (fs.inodeOf d).sb := by
  obtain ⟨i, -, hinode, hsb⟩ := (h.shape.linked d hd).inode
  rw [hsb, inodeOf, hinode]
  rfl

theorem Inv.hang {p : Nat} {info : NewInode} (h : Inv fs debt held) (hp : fs.Good p)
    (hhung : Hung fs fs' p name info) : Arrives fs debt held (fs', some fs.next) := by
  have hattached : Attached fs fs' p (fs'.dentry fs.next) := by
    refine ⟨rfl, hhung.parent, hhung.other, hhung.next, hhung.nextInode, fun i hi => ?_, ?_,
      hhung.sb, hhung.nextSb, hhung.mountList, hhung.root, hhung.freed, hhung.cacheList,
      fun q _ => by rw [hhung.part]⟩
    · rw [hhung.inode, Function.update_of_ne hi.ne]
    · rw [h.inMnt_eq hp, hhung.inode, Function.update_self]
  have hbelow : NewBelow fs fs' p (fs'.dentry fs.next) := by
    rw [hhung.new]
    exact ⟨rfl, rfl, rfl, rfl, rfl, rfl, rfl, rfl, rfl, fun hb => by cases hb⟩
  refine ⟨⟨hhung.next ▸ Nat.le_succ _, hhung.nextInode ▸ Nat.le_succ _, fun d hd => ?_,
    fun d hd => ?_, fun d hd => ?_, fun d hd => ?_, hattached.attr, hhung.sb, hhung.nextSb,
    hhung.part, hhung.mountList, hhung.root, hhung.fsRef⟩, ?_, fun d hd => ?_⟩
  · rw [hattached.link hd.ne]
  · rw [hattached.link hd.ne]
  · rw [hattached.link hd.ne]
  · rw [hattached.link hd.ne]
  · refine h.attach hp hattached hbelow fun y => ?_
    rw [hhung.new, Option.elim_some, Multiset.count_cons]
    simp
  · cases hd
    exact hattached.good_new hbelow h hp

/-- The new dentry of a failed lookup never gets to the file systems. -/
theorem backend_create (name : Name) (b : β) :
    (({ fs.dentryCreate name none with backend := b }).dentryDelete o fs.next).backend = b := by
  simp [dentryDelete, markDeleted, dentryPut, putChain, Fs.modify, dentryFree,
    dentryCreate]

attribute [local simp] listAddTail setParent dentryGet setInMnt setInode
  dentryCreate in
/-- A name that is not cached: the file system has it, and there is a new dentry, or it has
not. -/
theorem Inv.lookupNew_cases (h : Inv fs debt held) (hcurrent : fs.Good current) (name : Name) :
    (∃ fs₁ info, fs.lookupNew o current name = (fs₁, some fs.next) ∧
      Hung fs fs₁ current name info) ∨
    ∃ fs₁, fs.lookupNew o current name = (fs₁, none) ∧ Skipped fs fs₁ ∧
      (fs₁.backend, none) = o.lookup fs.backend (fs.inodeOf current).toAttr name := by
  have hne : current ≠ fs.next := ne_next_of_good hcurrent
  unfold lookupNew
  dsimp only
  have hbackend : (fs.dentryCreate name none).backend = fs.backend := rfl
  rw [hbackend]
  generalize o.lookup _ _ _ = found
  obtain ⟨b, new⟩ := found
  cases new with
  | none =>
    refine .inr ⟨_, rfl, skipped_create name b, ?_⟩
    rw [backend_create]
  | some new =>
    refine .inl ⟨_, new, rfl,
      ⟨?_, ?_, fun y hy hyc => ?_, rfl, rfl, rfl, rfl, rfl, rfl, rfl, rfl, rfl, rfl, rfl⟩⟩
    · simp [Ne.symm hne, h.inMnt_eq hcurrent]
    · simp [hne]
    · simp [hy, hyc]

theorem Inv.lookupNew (h : Inv fs debt held) (hcurrent : fs.Good current) (name : Name) :
    Arrives fs debt held (fs.lookupNew o current name) := by
  rcases h.lookupNew_cases (o := o) hcurrent name with
    ⟨fs₁, info, hlookup, hhung⟩ | ⟨fs₁, hlookup, hskip, -⟩
  · rw [hlookup]
    exact h.hang hcurrent hhung
  · rw [hlookup]
    exact ⟨hskip.frame, h.skip hskip, fun d hd => by cases hd⟩

theorem Inv.goTo (h : Inv fs debt held) (hcurrent : fs.Good current) (name : Name) :
    Arrives fs debt held (fs.goTo o current name) := by
  unfold Fs.goTo
  split
  · exact h.arrives_dentryGet hcurrent
  split
  · exact h.goUp hcurrent
  cases hchild : fs.childNamed current name with
  | none => exact h.lookupNew hcurrent name
  | some c =>
    have hmem := List.mem_of_find?_eq_some hchild
    exact h.arrives_dentryGet ((h.shape.linked current hcurrent).children c hmem).1

/-- From a mount point to the root on it; the result is not a mount point. -/
theorem Inv.handleMount {next : Nat} (h : Inv fs debt (next ::ₘ held)) (hnext : fs.Good next) :
    Inv (fs.handleMount o next).1 debt ((fs.handleMount o next).2 ::ₘ held) ∧
      Same fs (fs.handleMount o next).1 ∧
      (fs.handleMount o next).1.Good (fs.handleMount o next).2 ∧
      ((fs.handleMount o next).1.dentry (fs.handleMount o next).2).mountpoint = false := by
  have hlinked := h.shape.linked next hnext
  unfold Fs.handleMount
  split
  · next hflag =>
    rw [hlinked.flag] at hflag
    obtain ⟨s, hs⟩ := Option.isSome_iff_exists.mp hflag
    obtain ⟨hlive, hpoint⟩ := hlinked.mount s hs
    obtain ⟨r, hm⟩ := h.shape.mountedAt hlive hpoint
    rw [hs]
    dsimp only
    rw [hm.root]
    have hget := h.arrives_dentryGet hm.rootGood
    have hinv : Inv (fs.dentryGet r) debt (next ::ₘ r ::ₘ held) := by
      rw [Multiset.cons_swap]
      exact hget.inv
    obtain ⟨hput, hsame⟩ := hinv.dentryPut (o := o)
    have hall : Same fs ((fs.dentryGet r).dentryPut o next) :=
      .trans same_dentryGet hsame
    refine ⟨hput, hall, (Frame.of_same hall).good hm.rootGood hput.mem_dentries, ?_⟩
    rw [hall.link]
    exact h.mountpoint_of_top hm.rootGood hm.rootTop
  · next hflag => exact ⟨h, .refl fs, hnext, Bool.eq_false_iff.mpr hflag⟩

/-- A dentry that is held besides another one. -/
theorem Inv.put_second {e : Nat} (h : Inv fs debt (d ::ₘ e ::ₘ held)) (hd : fs.Good d) :
    Inv (fs.dentryPut o e) debt (d ::ₘ held) ∧ Same fs (fs.dentryPut o e) ∧
      (fs.dentryPut o e).Good d := by
  rw [Multiset.cons_swap] at h
  obtain ⟨hput, hsame⟩ := h.dentryPut (o := o)
  exact ⟨hput, hsame, (Frame.of_same hsame).good hd hput.mem_dentries⟩

theorem Inv.walk (path : List Name) (h : Inv fs debt (current ::ₘ held))
    (hcurrent : fs.Good current) :
    Arrives fs debt held (fs.walk o current path) ∧
      (path ≠ [] ∨ (fs.dentry current).mountpoint = false →
        ∀ d, (fs.walk o current path).2 = some d →
          ((fs.walk o current path).1.dentry d).mountpoint = false) := by
  induction path generalizing fs current with
  | nil =>
    refine ⟨⟨.refl fs, h, fun d hd => ?_⟩, fun hcase d hd => ?_⟩
    · cases hd
      exact hcurrent
    · cases hd
      exact hcase.resolve_left fun hne => hne rfl
  | cons name rest ih =>
    have hgo := h.goTo (o := o) hcurrent name
    rw [walk]
    generalize fs.goTo o current name = r at hgo
    obtain ⟨fs₁, next⟩ := r
    cases next with
    | none =>
      obtain ⟨hput, hsame⟩ := Inv.dentryPut (o := o) (d := current) hgo.inv
      exact ⟨⟨hgo.frame.trans (.of_same hsame), hput, fun d hd => by cases hd⟩,
        fun _ d hd => by cases hd⟩
    | some next =>
      obtain ⟨hmount, hsame, hgood, hpoint⟩ :=
        Inv.handleMount (o := o) hgo.inv (hgo.good next rfl)
      obtain ⟨hput, hsame', hgood'⟩ := hmount.put_second (o := o) hgood
      obtain ⟨harrives, hresult⟩ := ih hput hgood'
      refine ⟨⟨(hgo.frame.trans (.of_same (hsame.trans hsame'))).trans harrives.frame,
        harrives.inv, harrives.good⟩, fun _ d hd => hresult (.inr ?_) d hd⟩
      rw [hsame'.link]
      exact hpoint

/-- A path that does not begin with a slash has a component. -/
theorem tokens_ne_nil {c : UInt8} {path : Path} (hc : c ≠ slash) : tokens (c :: path) ≠ [] := by
  unfold tokens
  rw [List.splitOnP_cons_eq_if_modifyHead, if_neg (by simpa using hc)]
  cases hsplit : path.splitOnP (· == slash) with
  | nil => exact absurd hsplit (List.splitOnP_ne_nil _ _)
  | cons first rest => simp

/-- `__vfs_lookup_locked` gives a dentry of the tree that is not a mount point. -/
theorem Inv.lookupLocked (start : Option Nat) (h : Inv fs debt held)
    (hstart : ∀ d, start = some d → fs.Good d) (path : Path) :
    Arrives fs debt held (fs.lookupLocked o start path) ∧
      ∀ d, (fs.lookupLocked o start path).2 = some d →
        ((fs.lookupLocked o start path).1.dentry d).mountpoint = false := by
  cases path with
  | nil => exact ⟨⟨.refl fs, h, fun d hd => by cases hd⟩, fun d hd => by cases hd⟩
  | cons c rest =>
    unfold Fs.lookupLocked
    dsimp only
    generalize hcurrent : (if c = slash then fs.root else start.getD fs.root) = current
    have hgood : fs.Good current := by
      rw [← hcurrent]
      split
      · exact h.shape.rootGood
      · cases start with
        | none => exact h.shape.rootGood
        | some d => exact hstart d rfl
    have hget := h.arrives_dentryGet hgood
    obtain ⟨harrives, hresult⟩ := Inv.walk (o := o) (tokens (c :: rest)) hget.inv
      (hget.good current rfl)
    refine ⟨⟨hget.frame.trans harrives.frame, harrives.inv, harrives.good⟩, hresult ?_⟩
    by_cases hc : c = slash
    · rw [if_pos hc] at hcurrent
      refine .inr ?_
      rw [same_dentryGet.link, ← hcurrent]
      exact h.mountpoint_of_top h.shape.rootGood h.shape.rootTop
    · exact .inl (tokens_ne_nil hc)

theorem Inv.lookupDir {start : Nat} (h : Inv fs debt held) (hstart : fs.Good start)
    (dir : Path) : Arrives fs debt held (fs.lookupDir o start dir) := by
  unfold Fs.lookupDir
  split
  · exact h.arrives_dentryGet hstart
  · refine (h.lookupLocked _ (fun d hd => ?_) dir).1
    cases hd
    exact hstart

end Osx64.Vfs
