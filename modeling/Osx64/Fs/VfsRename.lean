import Osx64.Fs.VfsRemove

/-!
# Renaming

`sys_rename` moves a dentry from the list of its parent to that of another directory.  The
parent is not read from the dentry but looked up again by the path in front of the last
component, and the two differ if this component is `"."` or `".."` or names the root of a
mounted file system.  `RenamesChild` says that they do not; then `Rehung` describes the state
after the move dentry by dentry.
-/

namespace Osx64.Vfs

open Multiset Option List Vfs.Fs

variable {β : Type} {o : Backend β} {fs fs' fs'' : Fs β} {debt : Debt}
  {held : Multiset Nat} {d p q cwd : Nat} {name : Name}

/-! ## The move -/

/-- A reference that is not the last one. -/
theorem Fs.dentryPut_eq (h : 2 ≤ (fs.dentry d).refcount) :
    fs.dentryPut o d = fs.modify d fun x => { x with refcount := x.refcount - 1 } := by
  rw [dentryPut, putChain]
  have hne : ((fs.modify d fun x =>
      { x with refcount := x.refcount - 1 }).dentry d).refcount ≠ 0 := by
    rw [dentry_modify, if_pos rfl]
    dsimp only
    omega
  exact if_pos hne

/-- The dentry `d` has moved from `p` to `q`. -/
structure Rehung (fs fs' : Fs β) (p d q : Nat) (name : Name) : Prop where
  link : ∀ x, (fs'.dentry x).toLink = { (fs.dentry x).toLink with
    children := (if x = p then (fs.dentry x).children.filter (· ≠ d) else (fs.dentry x).children) ++
      if x = q then [d] else []
    parent := if x = d then some q else (fs.dentry x).parent
    name := if x = d then name else (fs.dentry x).name }
  refcount : ∀ x, (fs'.dentry x).refcount =
    (fs.dentry x).refcount - (if x = p then 1 else 0) + if x = q then 1 else 0
  inCacheList : ∀ x, (fs'.dentry x).inCacheList = (fs.dentry x).inCacheList
  rest : fs'.next = fs.next ∧ fs'.freed = fs.freed ∧ fs'.inode = fs.inode ∧
    fs'.nextInode = fs.nextInode ∧ fs'.sb = fs.sb ∧ fs'.nextSb = fs.nextSb ∧ fs'.part = fs.part ∧
    fs'.mountList = fs.mountList ∧ fs'.cacheList = fs.cacheList ∧ fs'.root = fs.root ∧
    fs'.fsRef = fs.fsRef

variable (name) in
theorem rehung_moveDentry (hp : (fs.dentry d).parent = some p) (h : 2 ≤ (fs.dentry p).refcount) :
    Rehung fs (fs.moveDentry o p d q name) p d q name := by
  have hput : (fs.listDel p d).dentryPut o p =
      (fs.listDel p d).modify p fun x => { x with refcount := x.refcount - 1 } := by
    refine dentryPut_eq ?_
    rw [listDel, dentry_modify, if_pos rfl]
    exact h
  unfold moveDentry
  rw [hp, elim_some]
  dsimp only
  rw [hput]
  refine ⟨fun x => ?_, fun x => ?_, fun x => ?_,
    ⟨rfl, rfl, rfl, rfl, rfl, rfl, rfl, rfl, rfl, rfl, rfl⟩⟩
  · by_cases hxp : x = p <;> by_cases hxq : x = q <;> by_cases hxd : x = d <;>
      simp [setParent, dentryGet, listAddTail, listDel, hxp, hxq, hxd] <;> grind
  · by_cases hxp : x = p <;> by_cases hxq : x = q <;> by_cases hxd : x = d <;>
      simp [setParent, dentryGet, listAddTail, listDel, hxp, hxq, hxd] <;> grind
  · by_cases hxp : x = p <;> by_cases hxq : x = q <;> by_cases hxd : x = d <;>
      simp [setParent, dentryGet, listAddTail, listDel, hxp, hxq, hxd] <;> grind

section

variable (h : Rehung fs fs' p d q name)
include h

theorem Rehung.mounted : fs'.mounted = fs.mounted := by
  rw [Fs.mounted, Fs.mounted, h.rest.2.2.2.2.2.2.2.1]

theorem Rehung.dentries : fs'.dentries = fs.dentries := by
  rw [Fs.dentries, Fs.dentries, h.rest.1, h.rest.2.1]

theorem Rehung.good (x : Nat) : fs'.Good x ↔ fs.Good x := by
  unfold Fs.Good Good
  rw [h.dentries, h.mounted, h.link]

theorem Rehung.inodeOf (x : Nat) : fs'.inodeOf x = fs.inodeOf x := by
  unfold Fs.inodeOf
  rw [h.link, h.rest.2.2.1]


theorem Rehung.parent_of_ne {x : Nat} (hx : x ≠ d) :
    (fs'.dentry x).parent = (fs.dentry x).parent := by
  rw [h.link]
  exact if_neg hx

/-- The pointer of the dentry has moved with it. -/
theorem Rehung.pointers (hd : d ∈ fs.dentries) (hp : (fs.dentry d).parent = some p) (x : Nat) :
    pointers fs' fs'.dentries fs'.mounted x + (if x = p then 1 else 0) =
      pointers fs fs.dentries fs.mounted x + if x = q then 1 else 0 := by
  have hparent : (fun y => (fs'.dentry y).parent) =
      Function.update (fun y => (fs.dentry y).parent) d (some q) := by
    funext y
    rw [h.link, Function.update_apply]
  have hupdate := holders_update (a := x) (fun y => (fs.dentry y).parent) hd (some q)
  rw [hp] at hupdate
  simp only [some_inj, eq_comm (b := x)] at hupdate
  obtain ⟨-, -, -, -, hsb, -, hpart, -⟩ := h.rest
  rw [Vfs.pointers, Vfs.pointers, h.dentries, h.mounted, hparent, hsb, hpart]
  omega

end

theorem Inv.rehung_counted (hinv : Inv fs debt held) (h : Rehung fs fs' p d q name)
    (hd : fs.Good d) (hp : (fs.dentry d).parent = some p) (hq : fs.Good q) (hpheld : p ∈ held) :
    Counted fs' fs'.dentries fs'.mounted debt held := by
  have hcounted := hinv.counted
  have hpointers := h.pointers hd.1 hp
  obtain ⟨hnext, hfreed, -, -, -, -, -, -, hcacheList, hroot, -⟩ := h.rest
  have hpos : 0 < held.count p := count_pos.mpr hpheld
  rw [h.dentries] at hpointers ⊢
  have hrefs : ∀ x, refs fs' fs.dentries fs'.mounted debt x + (if x = p then 1 else 0) =
      refs fs fs.dentries fs.mounted debt x + if x = q then 1 else 0 := by
    intro x
    have hx := hpointers x
    rw [refs, refs, hroot, h.link]
    dsimp only
    omega
  have hcount : ∀ x ∈ fs.dentries, (fs'.dentry x).refcount =
      (refs fs' fs.dentries fs'.mounted debt x + held.count x : Nat) := by
    intro x hx
    have hsum := hrefs x
    have hold := hcounted.count x hx
    rw [h.refcount]
    split_ifs at hsum ⊢ <;> omega
  have hlent : ∀ x ∈ debt.lent, x < fs'.next ∧ ((fs'.dentry x).blockDev ∨ (fs'.dentry x).charDev) :=
    hcounted.lent_congr hnext.ge fun x _ => by
      rw [h.link]
      exact ⟨rfl, rfl⟩
  refine ⟨hnext ▸ hcounted.lt, hcount, fun x hx => ?_, hcounted.held, hcounted.leaked, hlent,
    hfreed ▸ hcounted.log, hfreed ▸ hnext ▸ hcounted.freed, hcounted.cache.congr hcacheList
      (fun x _ => h.inCacheList x) (fun x _ => by rw [h.link]) fun x hx hx0 => ?_⟩
  · have hsum := hpointers x
    by_cases hxq : x = q
    · exact hxq ▸ hq.1
    · rw [if_neg hxq] at hsum
      exact hcounted.pointed x (by omega)
  · refine hcounted.cache.zero x hx ?_
    -- the old parent is held, so its count is not the one that is 0
    have hold := hcounted.count x hx
    have hnew := h.refcount x
    by_cases hxp : x = p
    · have hsum := hcount x hx
      subst hxp
      omega
    · rw [if_neg hxp] at hnew
      split at hnew <;> omega

theorem Inv.rehung_shape (hinv : Inv fs debt held) (h : Rehung fs fs' p d q name)
    (hd : fs.Good d) (hp : (fs.dentry d).parent = some p) (hq : fs.Good q)
    (hsb : (fs.dentry q).inMnt = (fs.dentry d).inMnt) (hpoint : (fs.dentry d).mountpoint = false) :
    Shape fs' fs'.dentries fs'.mounted := by
  have hshape := hinv.shape
  have hnotroot : fs.root ≠ d := by
    rintro rfl
    rw [hshape.rootTop] at hp
    cases hp
  obtain ⟨-, -, hinode, hnextInode, hsbs, hnextSb, hpart, -, -, hroot, -⟩ := h.rest
  refine ⟨fun x hx => ?_, fun s hs hne => ?_, h.mounted ▸ hshape.rootLive, hsbs ▸ hshape.rootNone,
    hroot ▸ (h.good _).mpr hshape.rootGood, ?_, ?_, fun s hs => ?_, hnextSb ▸ hshape.two⟩
  · have hx := (h.good x).mp hx
    have hlinked := hshape.linked x hx
    -- children other than the dentry stay where they are
    have hkeep : ∀ y c, c ∈ (fs.dentry y).children → c ≠ d → c ∈ (fs'.dentry y).children := by
      intro y c hc hne
      rw [h.link]
      refine mem_append_left _ ?_
      split
      · exact mem_filter.mpr ⟨hc, decide_eq_true hne⟩
      · exact hc
    -- and it is only in the list of the new parent
    have hchild : ∀ c ∈ (fs'.dentry x).children,
        c ∈ (fs.dentry x).children ∧ c ≠ d ∨ x = q ∧ c = d := by
      intro c hc
      rw [h.link, mem_append] at hc
      rcases hc with hc | hc
      · refine .inl ?_
        split at hc
        · obtain ⟨hc, hne⟩ := mem_filter.mp hc
          exact ⟨hc, of_decide_eq_true hne⟩
        · next hxp =>
          refine ⟨hc, ?_⟩
          rintro rfl
          have hparent := (hlinked.children c hc).2.1
          exact hxp (some_inj.mp (hparent.symm.trans hp))
      · split at hc
        · next hxq => exact .inr ⟨hxq, List.mem_singleton.mp hc⟩
        · cases hc
    have hgood : ∀ y, Good fs' fs'.dentries fs.mounted y ↔ fs.Good y := h.mounted ▸ h.good
    simp only [h.link] at hkeep hchild
    constructor <;> simp only [hgood, h.link, h.mounted, h.inodeOf, hroot, hsbs, hinode,
      hnextInode, hpart]
    · intro y hy
      split at hy
      · next hxd =>
        cases hy
        subst hxd
        refine ⟨hq, hsb, mem_append_right _ ?_⟩
        rw [if_pos rfl]
        exact List.mem_singleton_self _
      · next hxd =>
        obtain ⟨hy, hin, hmem⟩ := hlinked.parent y hy
        exact ⟨hy, hin, hkeep y x hmem hxd⟩
    · intro htop
      split at htop
      · cases htop
      · exact hlinked.top htop
    · intro c hc
      rcases hchild c hc with ⟨hc, hcd⟩ | ⟨rfl, rfl⟩
      · rw [if_neg hcd]
        exact hlinked.children c hc
      · rw [if_pos rfl]
        exact ⟨hd, rfl, hsb.symm⟩
    · refine nodup_append.mpr ⟨?_, ?_, fun a ha b hb hab => ?_⟩
      · split
        · exact hlinked.nodup.filter _
        · exact hlinked.nodup
      · split
        · exact List.nodup_singleton _
        · exact nodup_nil
      · split at hb
        · rw [List.mem_singleton] at hb
          subst hab hb
          split at ha
          · exact of_decide_eq_true (mem_filter.mp ha).2 rfl
          · next hxp =>
            have hparent := (hlinked.children a ha).2.1
            exact hxp (some_inj.mp (hparent.symm.trans hp))
        · cases hb
    · exact hlinked.inode
    · exact hlinked.mount
    · exact hlinked.flag
    · exact hlinked.device
  · rw [h.mounted] at hs
    obtain ⟨r, m, hm⟩ := hshape.mounted s hs hne
    have hrd : r ≠ d := by
      rintro rfl
      rw [hm.rootTop] at hp
      cases hp
    have hmd : m ≠ d := by
      rintro rfl
      have hflag := (hshape.linked m hm.mountpointGood).flag
      rw [hpoint, hm.here] at hflag
      cases hflag
    refine ⟨r, m, hm.carry (congrFun hsbs s) hroot
      ⟨(h.good r).mpr hm.rootGood, ?_, h.parent_of_ne hrd⟩
      ⟨(h.good m).mpr hm.mountpointGood, ?_, h.parent_of_ne hmd, ?_⟩ fun y _ => ?_⟩
    · rw [h.link]
    · rw [h.link]
    · rw [h.inodeOf]
    · rw [hpart]
      exact ⟨rfl, rfl⟩
  · rw [hroot, h.link]
    exact hshape.rootIn
  · rw [hroot, h.parent_of_ne hnotroot]
    exact hshape.rootTop
  · rw [hnextSb]
    exact hshape.lt s (h.mounted ▸ hs)

/-- The move of `sys_rename`. -/
theorem Inv.moveDentry (h : Inv fs debt held) (hd : fs.Good d)
    (hp : (fs.dentry d).parent = some p) (hq : fs.Good q) (hpheld : p ∈ held)
    (hsb : (fs.inodeOf p).sb = (fs.inodeOf q).sb) (hpoint : (fs.dentry d).mountpoint = false) :
    Done fs (fs.moveDentry o p d q name) debt held := by
  obtain ⟨hpgood, hpin, -⟩ := (h.shape.linked d hd).parent p hp
  -- one reference is that of the dentry, another one that of the call
  have htwo : 2 ≤ (fs.dentry p).refcount := by
    have hcount := h.counted.count p hpgood.1
    have hpos : 0 < held.count p := count_pos.mpr hpheld
    have hpointer := pointers_parent fs.mounted hd.1 hp
    unfold refs at hcount
    omega
  have hrehung := rehung_moveDentry (o := o) (q := q) name hp htwo
  have hin : (fs.dentry q).inMnt = (fs.dentry d).inMnt := by
    rw [h.inMnt_eq hq, ← hsb, ← h.inMnt_eq hpgood, hpin]
  have hinv : Inv (fs.moveDentry o p d q name) debt held :=
    ⟨h.rehung_counted hrehung hd hp hq hpheld, h.rehung_shape hrehung hd hp hq hin hpoint,
      h.bound.congr hrehung.dentries.le hrehung.rest.2.2.2.2.2.1.ge fun x _ => by rw [hrehung.link]⟩
  obtain ⟨hnext, -, hinode, -, hsbs, -, -, hmountList, -, -, hfsRef⟩ := hrehung.rest
  have hdeleted : ∀ x, ((fs.moveDentry o p d q name).dentry x).deleted = (fs.dentry x).deleted := by
    intro x
    rw [hrehung.link]
  refine ⟨hinv, .of_links hinv hnext (fun x => ?_) (fun i => by rw [hinode])
    (fun x hx => by rw [hdeleted, hx]) (fun x _ _ => hdeleted x) hsbs hmountList,
    fun s _ => congrFun hfsRef s⟩
  rw [hrehung.link]
  exact ⟨rfl, rfl⟩

/-! ## The call -/

theorem Done.put (h : Done fs fs' debt (d ::ₘ held)) :
    Done fs (fs'.dentryPut o d) debt held := by
  obtain ⟨hinv, hsame⟩ := h.inv.dentryPut (o := o)
  refine ⟨hinv, ⟨hsame.next ▸ h.keeps.next, fun x hx => ?_, fun x hx hdel => ?_,
    fun x hx hdir => ?_, fun s hs => ?_, ?_⟩, fun s hs => ?_⟩
  · rw [hsame.inMnt]
    exact h.keeps.inMnt x hx
  · rw [hsame.deleted]
    exact h.keeps.deleted x hx hdel
  · have hdir' := h.keeps.dir x (mem_cons_of_mem hx) hdir
    exact (Frame.of_same hsame).dir h.inv hdir' (hinv.counted.held x hx)
  · rw [hsame.sb, h.keeps.sb s hs]
  · rw [hsame.mounted, h.keeps.mounted]
  · rw [hsame.fsRef, h.fsRef s hs]

theorem stack_cons (d : Nat) (rest : List Nat) :
    (↑(d :: rest) + held : Multiset Nat) = d ::ₘ (↑rest + held) := by
  rw [← cons_coe, cons_add]

theorem stack_nil : (↑([] : List Nat) + held : Multiset Nat) = held := by
  rw [coe_nil, zero_add]

theorem Done.renameOut (stack : List Nat) {fs' : Fs β} (h : Done fs fs' debt (↑stack + held)) :
    Done fs (fs'.renameOut o stack) debt held := by
  induction stack generalizing fs' with
  | nil =>
    rw [stack_nil] at h
    exact h
  | cons d rest ih =>
    rw [stack_cons] at h
    exact ih h.put

/-- Lookups do not make mount points. -/
theorem Frame.mountpoint {held' : Multiset Nat} (h : Frame fs fs') (hinv : Inv fs debt held)
    (hinv' : Inv fs' debt held') (hd' : fs'.Good d) (hpoint : (fs.dentry d).mountpoint = false) :
    (fs'.dentry d).mountpoint = false := by
  have hlinked := hinv'.shape.linked d hd'
  rw [hlinked.flag]
  cases hhere : (fs'.dentry d).mountedHere with
  | none => rfl
  | some s =>
    obtain ⟨hs, hm⟩ := hlinked.mount s hhere
    rw [h.sb] at hm
    rw [h.mounted] at hs
    obtain ⟨r, hmounted⟩ := hinv.shape.mountedAt hs hm
    have hflag := (hinv.shape.linked d hmounted.mountpointGood).flag
    rw [hpoint, hmounted.here] at hflag
    cases hflag

/-- What the lookups of `sys_rename` find. -/
structure RenameFound (fs : Fs β) (stack : List Nat) (d p q : Nat) : Prop where
  source : fs.Good d
  target : fs.Good q
  held : d ∈ stack ∧ p ∈ stack ∧ q ∈ stack
  mountpoint : (fs.dentry d).mountpoint = false

theorem Inv.renameLookups (h : Inv fs debt held) (hcwd : fs.Good cwd) (oldpath newpath : Path)
    {stack : List Nat} {found : Option (Nat × Nat × Nat × Name)}
    (hr : fs.renameLookups o cwd oldpath newpath = (fs', stack, found)) :
    Settled fs fs' debt (↑stack + held) ∧
      ∀ d p q name, found = some (d, p, q, name) → RenameFound fs' stack d p q := by
  have hold := h.startOf hcwd oldpath
  have hnew := h.startOf hcwd newpath
  unfold Fs.renameLookups at hr
  dsimp only at hr
  generalize fs.startOf cwd oldpath = oldStart at hr hold
  generalize fs.startOf cwd newpath = newStart at hr hnew
  obtain ⟨hget, -⟩ := (Settled.refl h).get hold
  obtain ⟨hget, -⟩ := hget.get (hget.frame.good hnew hnew.1)
  have hold₁ := hget.good hold (by simp)
  obtain ⟨harrives, hpoint⟩ := hget.inv.lookupLocked (o := o) (some oldStart)
    (fun d hd => by cases hd; exact hold₁) oldpath
  have hsettled := hget.arrives harrives
  have horder : newStart ::ₘ oldStart ::ₘ held = ↑[oldStart, newStart] + held := by
    rw [cons_swap, stack_cons, stack_cons, stack_nil]
  split at hr
  · next fs₁ hlookup =>
    rw [hlookup] at hsettled
    cases hr
    exact ⟨horder ▸ hsettled, fun d p q name hfound => by cases hfound⟩
  · next fs₁ d hlookup =>
    rw [hlookup] at hsettled harrives hpoint
    have hd := harrives.good d rfl
    have hpoint := hpoint d rfl
    rw [elim_some] at hsettled
    have hcons : d ::ₘ newStart ::ₘ oldStart ::ₘ held = ↑[d, oldStart, newStart] + held := by
      rw [horder, stack_cons d]
    split at hr
    · next oldDir _ newDir name _ _ =>
      have harrives₂ := hsettled.inv.lookupDir (o := o) (hsettled.good hold (by simp)) oldDir
      have hsettled₂ := hsettled.arrives harrives₂
      split at hr
      · next fs₂ hdir =>
        rw [hdir] at hsettled₂
        cases hr
        exact ⟨hcons ▸ hsettled₂, fun d p q name hfound => by cases hfound⟩
      · next fs₂ p hdir =>
        rw [hdir] at hsettled₂ harrives₂
        rw [elim_some] at hsettled₂
        have hcons₂ : p ::ₘ d ::ₘ newStart ::ₘ oldStart ::ₘ held =
            ↑[d, p, oldStart, newStart] + held := by
          rw [cons_swap, horder, stack_cons d, stack_cons p]
        have harrives₃ := hsettled₂.inv.lookupDir (o := o) (hsettled₂.good hnew (by simp)) newDir
        have hsettled₃ := hsettled₂.arrives harrives₃
        split at hr
        · next fs₃ hdir' =>
          rw [hdir'] at hsettled₃
          cases hr
          exact ⟨hcons₂ ▸ hsettled₃, fun d p q name hfound => by cases hfound⟩
        · next fs₃ q hdir' =>
          rw [hdir'] at hsettled₃ harrives₃
          rw [elim_some] at hsettled₃
          have hcons₃ : q ::ₘ p ::ₘ d ::ₘ newStart ::ₘ oldStart ::ₘ held =
              ↑[d, p, q, oldStart, newStart] + held := by
            rw [cons_swap p, cons_swap q, cons_swap q, horder,
              stack_cons d, stack_cons p, stack_cons q]
          cases hr
          refine ⟨hcons₃ ▸ hsettled₃, fun d' p' q' name' hfound => ?_⟩
          cases hfound
          have hframe : Frame fs₁ fs' := harrives₂.frame.trans harrives₃.frame
          have hd' : fs'.Good d := hframe.good hd (hsettled₃.inv.counted.held d (by simp))
          exact ⟨hd', harrives₃.good q rfl, by simp,
            hframe.mountpoint hsettled.inv hsettled₃.inv hd' hpoint⟩
    · cases hr
      exact ⟨hcons ▸ hsettled, fun d p q name hfound => by cases hfound⟩

theorem Inv.renameFound {stack : List Nat} (h : Inv fs debt (↑stack + held))
    (hfound : RenameFound fs stack d p q) (hp : (fs.dentry d).parent = some p) (name : Name) :
    Done fs (fs.renameFound o d p q name).1 debt (↑stack + held) := by
  unfold Fs.renameFound
  split
  · exact (Settled.refl h).done h
  next hsb =>
  split
  · exact (Settled.refl h).done h
  dsimp only
  -- the reference to a child of the same name is given back at once
  obtain ⟨fs₁, hfs₁, hsettled, hsame⟩ : ∃ fs₁, ((fs.childNamed q name).elim fs fun c =>
      (fs.dentryGet c).dentryPut o c) = fs₁ ∧ Settled fs fs₁ debt (↑stack + held) ∧
      Same fs fs₁ := by
    cases hchild : fs.childNamed q name with
    | none => exact ⟨_, rfl, .refl h, .refl fs⟩
    | some c =>
      have hc := (h.shape.linked q hfound.target).children c (mem_of_find?_eq_some hchild)
      obtain ⟨hget, -⟩ := (Settled.refl h).get hc.1
      exact ⟨_, rfl, hget.put, same_dentryGet.trans (hget.inv.dentryPut).2⟩
  rw [hfs₁]
  split
  · exact hsettled.done h
  split
  · next b _ => exact (hsettled.backend b).done h
  · next b _ =>
    have hnext := hsettled.backend b
    have hheld : ∀ x ∈ stack, x ∈ (↑stack + held : Multiset Nat) := fun x hx =>
      mem_add.mpr (.inl hx)
    refine hnext.done_trans h le_rfl (hnext.inv.moveDentry ?_ ?_ ?_ (hheld p hfound.held.2.1) ?_ ?_)
    · exact hnext.good hfound.source (hheld d hfound.held.1)
    · exact (hsame.parent d).trans hp
    · exact hnext.good hfound.target (hheld q hfound.held.2.2)
    · have hsb' := Decidable.not_not.mp hsb
      rw [← hsame.inodeOf p, ← hsame.inodeOf q] at hsb'
      exact hsb'
    · exact (congrArg Link.mountpoint (hsame.link d)).trans hfound.mountpoint

/-- The parent that `sys_rename` looks up is the parent of the dentry. -/
def Fs.RenamesChild (o : Backend β) (fs : Fs β) (cwd : Nat) (oldpath newpath : Path) : Prop :=
  ∀ fs' stack d p q name,
    fs.renameLookups o cwd oldpath newpath = (fs', stack, some (d, p, q, name)) →
      (fs'.dentry d).parent = some p

theorem Inv.sysRename (h : Inv fs debt held) (hcwd : fs.Good cwd) (oldpath newpath : Path)
    (hchild : fs.RenamesChild o cwd oldpath newpath) :
    Done fs (fs.sysRename o cwd oldpath newpath).1 debt held := by
  unfold Fs.sysRename
  split
  · exact (Settled.refl h).done h
  split
  · next fs₁ stack hlookups =>
    obtain ⟨hsettled, -⟩ := h.renameLookups hcwd oldpath newpath hlookups
    have hdone := (Settled.refl hsettled.inv).done hsettled.inv
    exact hsettled.done_trans h (le_add_left _ _) (hdone.renameOut stack)
  · next fs₁ stack d p q name hlookups =>
    obtain ⟨hsettled, hfound⟩ := h.renameLookups hcwd oldpath newpath hlookups
    have hdone := hsettled.inv.renameFound (o := o) (hfound d p q name rfl)
      (hchild fs₁ stack d p q name hlookups) name
    exact hsettled.done_trans h (le_add_left _ _) (hdone.renameOut stack)

end Osx64.Vfs
