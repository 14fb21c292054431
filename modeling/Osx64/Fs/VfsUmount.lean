import Osx64.Fs.VfsMount

/-!
# Unmounting

`umount_cleanup_dentry` goes through the tree of a file system and deletes each dentry, the
children before their parent.  It finds each of them still there: a dentry is freed only when it
has been marked, and the trees of two children have no dentry in common (`Intact.disjoint`).
The root keeps the reference that its super block had.  No one gives it back, so this dentry is
never freed; it joins the set `debt`.
-/

namespace Osx64.Vfs

open Function Relation Option Finset Multiset Vfs.Fs

variable {β : Type} {o : Backend β} {fs fs' fs'' : Fs β} {dom dom' live : Finset Nat} {debt : Debt}
  {held : Multiset Nat} {d m r s x y : Nat}

/-! ## The tree below a dentry -/

/-- `x` is in the tree below `d`, along the lists of children. -/
def Below (fs : Fs β) (d x : Nat) : Prop :=
  ReflTransGen (fun p c => c ∈ (fs.dentry p).children) d x

/-- From a dentry to its parent. -/
def Up (fs : Fs β) (x y : Nat) : Prop := (fs.dentry x).parent = some y

theorem Up.unique {z : Nat} (h : Up fs x y) (h' : Up fs x z) : y = z :=
  some_inj.mp (Eq.trans (Eq.symm h) h')

/-- The tree below `d` is still there. -/
structure Intact (fs : Fs β) (dom : Finset Nat) (d : Nat) : Prop where
  mem : ∀ x, Below fs d x → x ∈ dom ∧ (fs.dentry x).deleted = false
  child : ∀ x, Below fs d x → ∀ c ∈ (fs.dentry x).children, Up fs c x
  nodup : ∀ x, Below fs d x → (fs.dentry x).children.Nodup
  acyclic : ∀ x, Below fs d x → ¬TransGen (Up fs) x x

namespace Intact

theorem of_child (h : Intact fs dom d) {c : Nat} (hc : c ∈ (fs.dentry d).children) :
    Intact fs dom c := by
  have hbelow : ∀ x, Below fs c x → Below fs d x := fun x hx => ReflTransGen.head hc hx
  exact ⟨fun x hx => h.mem x (hbelow x hx), fun x hx => h.child x (hbelow x hx),
    fun x hx => h.nodup x (hbelow x hx), fun x hx => h.acyclic x (hbelow x hx)⟩

theorem up (h : Intact fs dom d) (hx : Below fs d x) : ReflTransGen (Up fs) x d := by
  induction hx with
  | refl => exact .refl
  | tail hxy hyz ih => exact .head (h.child _ hxy _ hyz) ih

/-- Two children of a dentry have nothing below them in common. -/
theorem disjoint (h : Intact fs dom d) {c c' : Nat} (hc : c ∈ (fs.dentry d).children)
    (hc' : c' ∈ (fs.dentry d).children) (hne : c ≠ c') (hx : Below fs c x) : ¬Below fs c' x := by
  intro hx'
  have hupd := h.child d .refl c hc
  have hupd' := h.child d .refl c' hc'
  -- from one child up to the other one there is a way through their parent
  have hcycle : ∀ {a b : Nat}, Up fs a d → Up fs b d → a ≠ b → ¬ReflTransGen (Up fs) a b := by
    intro a b ha hb hab hpath
    rcases hpath.cases_head with heq | ⟨z, hz, hrest⟩
    · exact hab heq
    · obtain rfl := hz.unique ha
      exact h.acyclic z .refl (TransGen.tail' hrest hb)
  rcases ReflTransGen.total_of_right_unique (fun _ _ _ hy hz => hy.unique hz)
    ((h.of_child hc).up hx) ((h.of_child hc').up hx') with hpath | hpath
  · exact hcycle hupd hupd' hne hpath
  · exact hcycle hupd' hupd hne.symm hpath

end Intact

/-! ## Sweeping -/

/-- Some of the dentries in `marks` have been marked, and marked dentries may have been freed. -/
structure Swept (fs fs' : Fs β) (dom dom' : Finset Nat) (marks : Nat → Prop) : Prop where
  link : ∀ x, (fs'.dentry x).toLink =
    { (fs.dentry x).toLink with deleted := (fs'.dentry x).deleted }
  marked : ∀ x, (fs'.dentry x).deleted = true → (fs.dentry x).deleted = true ∨ marks x
  mono : ∀ x, (fs.dentry x).deleted = true → (fs'.dentry x).deleted = true
  attr : ∀ i, (fs'.inode i).toAttr = (fs.inode i).toAttr
  rest : fs'.next = fs.next ∧ fs'.nextInode = fs.nextInode ∧ fs'.sb = fs.sb ∧
    fs'.nextSb = fs.nextSb ∧ fs'.part = fs.part ∧ fs'.mountList = fs.mountList ∧
    fs'.root = fs.root ∧ fs'.fsRef = fs.fsRef
  sub : dom' ⊆ dom
  kept : ∀ x ∈ dom, (fs'.dentry x).deleted = false → x ∈ dom'
  lost : ∀ x ∈ dom, x ∉ dom' → x ∈ fs'.freed
  freed : ∀ x ∈ fs'.freed, x ∈ fs.freed ∨ x ∈ dom ∧ x ∉ dom'
  log : ∀ x ∈ fs.freed, x ∈ fs'.freed

namespace Swept

variable {marks marks' : Nat → Prop} {dom'' : Finset Nat}

theorem of_shrunk (h : Shrunk fs fs' dom dom') : Swept fs fs' dom dom' marks := by
  have hsame := h.same
  refine ⟨fun x => ?_, fun x hx => .inl (hsame.deleted x ▸ hx), fun x hx =>
    (hsame.deleted x).trans hx,
    hsame.attr, ⟨hsame.next, hsame.nextInode, hsame.sb, hsame.nextSb, hsame.part, hsame.mountList,
      hsame.root, hsame.fsRef⟩, h.sub, fun x hx hdel =>
        h.kept x hx ((hsame.deleted x).symm.trans hdel),
    h.lost, h.freed, h.mono⟩
  rw [hsame.link x]

variable (h : Swept fs fs' dom dom' marks)
include h

theorem trans (h' : Swept fs' fs'' dom' dom'' marks) :
    Swept fs fs'' dom dom'' marks := by
  obtain ⟨h₁, h₂, h₃, h₄, h₅, h₆, h₇, h₈⟩ := h.rest
  obtain ⟨h₁', h₂', h₃', h₄', h₅', h₆', h₇', h₈'⟩ := h'.rest
  refine ⟨fun x => ?_, fun x hx => ?_, fun x hx => h'.mono x (h.mono x hx),
    fun i => (h'.attr i).trans (h.attr i), ⟨h₁'.trans h₁, h₂'.trans h₂, h₃'.trans h₃, h₄'.trans h₄,
      h₅'.trans h₅, h₆'.trans h₆, h₇'.trans h₇, h₈'.trans h₈⟩, h'.sub.trans h.sub,
    fun x hx hdel => ?_, fun x hx hlost => ?_, fun x hx => ?_, fun x hx => h'.log x (h.log x hx)⟩
  · rw [h'.link x, h.link x]
  · rcases h'.marked x hx with hx | hx
    · exact h.marked x hx
    · exact .inr hx
  · refine h'.kept x (h.kept x hx (Bool.eq_false_iff.mpr fun hdel' => ?_)) hdel
    rw [h'.mono x hdel'] at hdel
    cases hdel
  · by_cases hx' : x ∈ dom'
    · exact h'.lost x hx' hlost
    · exact h'.log x (h.lost x hx hx')
  · rcases h'.freed x hx with hx | ⟨hx, hx'⟩
    · rcases h.freed x hx with hx | ⟨hx, hx'⟩
      · exact .inl hx
      · exact .inr ⟨hx, fun hmem => hx' (h'.sub hmem)⟩
    · exact .inr ⟨h.sub hx, hx'⟩

theorem mono_marks (hmarks : ∀ x, marks x → marks' x) :
    Swept fs fs' dom dom' marks' :=
  { h with marked := fun x hx => (h.marked x hx).imp_right (hmarks x) }

theorem children (x : Nat) :
    (fs'.dentry x).children = (fs.dentry x).children := by
  rw [h.link x]

theorem below : Below fs' d x ↔ Below fs d x := by
  have hstep : (fun p c => c ∈ (fs'.dentry p).children) = fun p c =>
      c ∈ (fs.dentry p).children := by
    funext p c
    rw [h.children]
  rw [Below, Below, hstep]

theorem up : Up fs' = Up fs := by
  funext x y
  rw [Up, Up, h.link x]

/-- What has not been marked is intact. -/
theorem intact (hintact : Intact fs dom d)
    (hmarks : ∀ x, Below fs d x → ¬marks x) : Intact fs' dom' d := by
  have hdeleted : ∀ x, Below fs d x → (fs'.dentry x).deleted = false := by
    intro x hx
    refine Bool.eq_false_iff.mpr fun hdel => ?_
    rcases h.marked x hdel with hdel | hmark
    · rw [(hintact.mem x hx).2] at hdel
      cases hdel
    · exact hmarks x hx hmark
  refine ⟨fun x hx => ?_, fun x hx c hc => ?_, fun x hx => ?_, fun x hx => ?_⟩
  · have hx := h.below.mp hx
    exact ⟨h.kept x (hintact.mem x hx).1 (hdeleted x hx), hdeleted x hx⟩
  · rw [h.up]
    exact hintact.child x (h.below.mp hx) c (h.children x ▸ hc)
  · rw [h.children]
    exact hintact.nodup x (h.below.mp hx)
  · rw [h.up]
    exact hintact.acyclic x (h.below.mp hx)

end Swept

theorem swept_markDeleted {marks : Nat → Prop} (hd : marks d) :
    Swept fs (fs.markDeleted d) dom dom marks := by
  obtain ⟨num, list, heq⟩ := fs.markDeleted_eq d
  rw [heq]
  refine ⟨fun x => ?_, fun x hx => ?_, fun x hx => ?_, fun _ => rfl,
    ⟨rfl, rfl, rfl, rfl, rfl, rfl, rfl, rfl⟩, subset_rfl, fun x hx _ => hx,
    fun x hx hnx => absurd hx hnx, fun x hx => .inl hx, fun x hx => hx⟩
  · dsimp only
    rw [dentry_modify]
    split
    · next hxd => rw [hxd]
    · rfl
  · dsimp only at hx
    rw [dentry_modify] at hx
    split at hx
    · next hxd => exact .inr (hxd ▸ hd)
    · exact .inl hx
  · dsimp only
    rw [dentry_modify]
    split
    · rfl
    · exact hx

/-- `umount_cleanup_dentry` keeps the counts right, and marks the dentry. -/
theorem Counted.umountCleanupDentry (n : Nat) : ∀ {fs : Fs β} {dom : Finset Nat}
    {held : Multiset Nat} {d : Nat}, Counted fs dom live debt held → Intact fs dom d →
      ∃ dom', Counted (fs.umountCleanupDentry o n d) dom' live debt held ∧
        Swept fs (fs.umountCleanupDentry o n d) dom dom' (Below fs d) ∧
        (0 < n → ((fs.umountCleanupDentry o n d).dentry d).deleted = true) := by
  induction n with
  | zero =>
    intro fs dom held d h _
    exact ⟨dom, h, .of_shrunk (Same.shrunk (.refl fs) rfl), fun hpos => absurd hpos (by omega)⟩
  | succ n ih =>
    -- one child after the other; what is below the others stays intact
    have hfold : ∀ (l : List Nat) {fs : Fs β} {dom : Finset Nat} {held : Multiset Nat} {d : Nat},
        Counted fs dom live debt held → l.Nodup →
        (∀ c ∈ l, Intact fs dom c) →
        (∀ c ∈ l, ∀ c' ∈ l, c ≠ c' → ∀ x, Below fs c x → ¬Below fs c' x) →
        (∀ c ∈ l, ∀ x, Below fs c x → Below fs d x) →
        ∃ dom', Counted (l.foldl (fun fs c => fs.umountCleanupDentry o n c) fs) dom' live debt
            held ∧
          Swept fs (l.foldl (fun fs c => fs.umountCleanupDentry o n c) fs) dom dom'
            (Below fs d) := by
      intro l
      induction l with
      | nil =>
        intro fs dom held d h _ _ _ _
        exact ⟨dom, h, .of_shrunk (Same.shrunk (.refl fs) rfl)⟩
      | cons c rest ihl =>
        intro fs dom held d h hnodup hintact hdisjoint hbelow
        obtain ⟨hnot, hnodup⟩ := List.nodup_cons.mp hnodup
        obtain ⟨dom₁, hcounted, hswept, -⟩ := ih h (hintact c List.mem_cons_self)
        obtain ⟨dom₂, hcounted₂, hswept₂⟩ := ihl (d := d) hcounted hnodup
          (fun c' hc' => hswept.intact (hintact c' (List.mem_cons_of_mem c hc')) fun x hx hx' =>
            hdisjoint c List.mem_cons_self c' (List.mem_cons_of_mem c hc')
              (fun heq => hnot (heq ▸ hc')) x hx' hx)
          (fun a ha b hb hab x hx => by
            rw [hswept.below] at hx ⊢
            exact hdisjoint a (List.mem_cons_of_mem c ha) b (List.mem_cons_of_mem c hb) hab x hx)
          (fun a ha x hx => by
            rw [hswept.below] at hx ⊢
            exact hbelow a (List.mem_cons_of_mem c ha) x hx)
        refine ⟨dom₂, hcounted₂, (hswept.mono_marks fun x hx => ?_).trans
          (hswept₂.mono_marks fun x hx => ?_)⟩
        · exact hbelow c List.mem_cons_self x hx
        · exact hswept.below.mp hx
    intro fs dom held d h hintact
    have hd := (hintact.mem d .refl).1
    have hget := h.dentryGet hd
    have hgot : ∀ marks : Nat → Prop, Swept fs (fs.dentryGet d) dom dom marks := fun _ =>
      .of_shrunk (Same.shrunk same_dentryGet rfl)
    have hintact₁ : Intact (fs.dentryGet d) dom d :=
      (hgot fun _ => False).intact hintact fun _ _ => id
    obtain ⟨dom₁, hcounted₁, hswept₁⟩ := hfold ((fs.dentryGet d).dentry d).children (d := d) hget
      (hintact₁.nodup d .refl) (fun c hc => hintact₁.of_child hc)
      (fun c hc c' hc' hne x hx => hintact₁.disjoint hc hc' hne hx)
      (fun c hc x hx => ReflTransGen.head hc hx)
    rw [Fs.umountCleanupDentry, dentryDelete]
    generalize ((fs.dentryGet d).dentry d).children.foldl
      (fun fs c => fs.umountCleanupDentry o n c) (fs.dentryGet d) = fs₁ at hcounted₁ hswept₁ ⊢
    obtain ⟨dom₂, hcounted₂, hshrunk⟩ := hcounted₁.markDeleted.dentryPut (o := o)
    refine ⟨dom₂, hcounted₂, (hgot _).trans ((hswept₁.mono_marks fun x hx => ?_).trans
      ((swept_markDeleted ReflTransGen.refl).trans (.of_shrunk hshrunk))), fun _ => ?_⟩
    · exact (hgot fun _ => False).below.mp hx
    · rw [hshrunk.same.deleted, dentry_markDeleted, dentry_modify, if_pos rfl]

/-! ## The tree of a mounted file system -/

/-- The way up from a dentry below a root does not lead back to it. -/
theorem not_cycle (htop : (fs.dentry r).parent = none) (h : ReflTransGen (Up fs) x r) :
    ¬TransGen (Up fs) x x := by
  induction h using ReflTransGen.head_induction_on with
  | refl =>
    intro hcycle
    obtain ⟨y, hy, -⟩ := TransGen.head'_iff.mp hcycle
    rw [Up, htop] at hy
    cases hy
  | head hxy hyr ih =>
    intro hcycle
    obtain ⟨z, hz, hrest⟩ := TransGen.head'_iff.mp hcycle
    rw [hz.unique hxy] at hrest
    exact ih (TransGen.tail' hrest hxy)

theorem Inv.good_below (h : Inv fs debt held) (hr : fs.Good r) (hx : Below fs r x) :
    fs.Good x ∧ (fs.dentry x).inMnt = (fs.dentry r).inMnt ∧ ReflTransGen (Up fs) x r := by
  induction hx with
  | refl => exact ⟨hr, rfl, .refl⟩
  | tail hxy hyz ih =>
    obtain ⟨hgood, hin, hup⟩ := ih
    obtain ⟨hgood', hparent, hin'⟩ := (h.shape.linked _ hgood).children _ hyz
    exact ⟨hgood', hin'.trans hin, .head hparent hup⟩

theorem Inv.intact (h : Inv fs debt held) (hr : fs.Good r) (htop : (fs.dentry r).parent = none) :
    Intact fs fs.dentries r where
  mem _ hx := ⟨(h.good_below hr hx).1.1, (h.good_below hr hx).1.2.1⟩
  child x hx c hc := ((h.shape.linked x (h.good_below hr hx).1).children c hc).2.1
  nodup x hx := (h.shape.linked x (h.good_below hr hx).1).nodup
  acyclic _ hx := not_cycle htop (h.good_below hr hx).2.2

/-! ## A super block is taken out -/

/-- The super block is off the list, and its mount point is a directory again. -/
def Fs.detached (fs : Fs β) (m s : Nat) : Fs β :=
  ({ fs with mountList := fs.mountList.filter (· ≠ s) }).modify m fun x =>
    { x with mountpoint := false, mountedHere := none }

/-- The device of a super block. -/
def Fs.device (fs : Fs β) (s : Nat) : Option Nat :=
  (fs.sb s).part.bind fun q => (fs.part q).fsDentry

/-- The file system is not in use: nothing that is held is in it, and nothing is mounted there. -/
structure Unused (fs : Fs β) (held : Multiset Nat) (s : Nat) : Prop where
  held : ∀ x ∈ held, (fs.dentry x).inMnt ≠ some s
  mounts : ∀ t ∈ fs.mounted, ∀ m, (fs.sb t).mountpoint = some m → (fs.dentry m).inMnt ≠ some s

theorem Fs.mounted_detached (hs : s ≠ rootSb) : (fs.detached m s).mounted = fs.mounted.erase s := by
  ext t
  rw [Fs.mounted, Fs.mounted, mem_erase, mem_insert, mem_insert,
    List.mem_toFinset, List.mem_toFinset]
  show t = rootSb ∨ t ∈ fs.mountList.filter (· ≠ s) ↔ _
  rw [List.mem_filter, decide_eq_true_iff]
  constructor
  · rintro (rfl | ⟨hmem, hne⟩)
    · exact ⟨hs.symm, .inl rfl⟩
    · exact ⟨hne, .inr hmem⟩
  · rintro ⟨hne, rfl | hmem⟩
    · exact .inl rfl
    · exact .inr ⟨hmem, hne⟩

theorem Fs.link_detached (x : Nat) : ((fs.detached m s).dentry x).toLink =
    { (fs.dentry x).toLink with
    mountpoint := if x = m then false else (fs.dentry x).mountpoint
    mountedHere := if x = m then none else (fs.dentry x).mountedHere } := by
  rw [detached, dentry_modify]
  split
  · next hx => rw [hx]
  · rfl

theorem Fs.refcount_detached (x : Nat) :
    ((fs.detached m s).dentry x).refcount = (fs.dentry x).refcount ∧
      ((fs.detached m s).dentry x).inCacheList = (fs.dentry x).inCacheList := by
  rw [detached, dentry_modify]
  split
  · next hx =>
    rw [hx]
    exact ⟨rfl, rfl⟩
  · exact ⟨rfl, rfl⟩

theorem Fs.inodeOf_detached (x : Nat) : (fs.detached m s).inodeOf x = fs.inodeOf x := by
  unfold inodeOf
  rw [link_detached]
  rfl

section

variable (hs : s ∈ fs.mounted) (hne : s ≠ rootSb) (hm : Mounted fs fs.dentries fs.mounted s r m)
include hs hne hm

theorem pointers_detached (y : Nat) :
    pointers fs fs.dentries fs.mounted y =
      pointers (fs.detached m s) fs.dentries (fs.detached m s).mounted y +
        (if y = m then 1 else 0) + (if y = r then 1 else 0) +
        if fs.device s = some y then 1 else 0 := by
  have hparents : (fun x => ((fs.detached m s).dentry x).parent) = fun x =>
      (fs.dentry x).parent := by
    funext x
    rw [link_detached]
  have hsb : (fs.detached m s).sb = fs.sb := rfl
  have hpart : (fs.detached m s).part = fs.part := rfl
  rw [pointers, pointers, mounted_detached hne, hparents, hsb, hpart,
    holders_eq_erase _ hs, holders_eq_erase (fun s => (fs.sb s).root) hs,
    holders_eq_erase (fun s => (fs.sb s).part.bind fun q => (fs.part q).fsDentry) hs,
    hm.mountpoint, hm.root, device]
  simp only [some_inj, eq_comm (b := y)]
  omega

theorem Inv.detached_counted (h : Inv fs debt (m ::ₘ held)) (hr : r ∉ debt.leaked) :
    Counted (fs.detached m s) fs.dentries (fs.detached m s).mounted (debt.leave r)
      (m ::ₘ m ::ₘ (fs.device s).elim held fun dev => dev ::ₘ held) := by
  have hcounted := h.counted
  have hpointers := pointers_detached hs hne hm
  have hrefs : ∀ y, refs (fs.detached m s) fs.dentries (fs.detached m s).mounted (debt.leave r) y +
      (if y = m then 1 else 0) + (if fs.device s = some y then 1 else 0) =
      refs fs fs.dentries fs.mounted debt y := by
    intro y
    have hy := hpointers y
    have hroot : (fs.detached m s).root = fs.root := rfl
    have hleaked : (if y ∈ (debt.leave r).leaked then 1 else 0) =
        (if y = r then 1 else 0) + if y ∈ debt.leaked then 1 else 0 := by
      by_cases hyr : y = r
      · rw [if_pos (show y ∈ (debt.leave r).leaked from mem_insert.mpr (.inl hyr)), if_pos hyr,
          if_neg (hyr ▸ hr)]
      · simp [Debt.leave, hyr]
    have hlent : (debt.leave r).lent = debt.lent := rfl
    rw [refs, refs, hleaked, hlent, hroot, link_detached]
    dsimp only
    omega
  have hdevice : ∀ y, fs.device s = some y → y ∈ fs.dentries := by
    intro y hy
    refine hcounted.pointed y ?_
    rw [hpointers, if_pos hy]
    omega
  have hcount : ∀ y, ((fs.device s).elim held fun dev => dev ::ₘ held).count y =
      held.count y + if fs.device s = some y then 1 else 0 := by
    intro y
    cases fs.device s with
    | none => simp
    | some dev => simp only [elim_some, count_cons, some_inj, eq_comm]
  have hlent : ∀ y ∈ debt.lent, y < (fs.detached m s).next ∧
      (((fs.detached m s).dentry y).blockDev ∨ ((fs.detached m s).dentry y).charDev) :=
    hcounted.lent_congr le_rfl fun y _ => by
      rw [link_detached]
      exact ⟨rfl, rfl⟩
  refine ⟨hcounted.lt, fun y hy => ?_, fun y hy => ?_, fun y hy => ?_, fun y hy => ?_, hlent,
    hcounted.log, hcounted.freed, hcounted.cache.congr rfl (fun y _ => (refcount_detached y).2)
      (fun y _ => by rw [link_detached]) fun y hy hy0 => ?_⟩
  · have hold := hcounted.count y hy
    have hsum := hrefs y
    rw [count_cons] at hold
    rw [(refcount_detached y).1, hold, count_cons, count_cons, hcount]
    omega
  · refine hcounted.pointed y ?_
    rw [hpointers]
    omega
  · rcases mem_cons.mp hy with rfl | hy
    · exact h.mem_dentries
    rcases mem_cons.mp hy with rfl | hy
    · exact h.mem_dentries
    cases hdev : fs.device s with
    | none =>
      rw [hdev] at hy
      exact hcounted.held y (mem_cons_of_mem hy)
    | some dev =>
      rw [hdev] at hy
      rcases mem_cons.mp hy with rfl | hy
      · exact hdevice y hdev
      · exact hcounted.held y (mem_cons_of_mem hy)
  · rcases mem_insert.mp hy with rfl | hy
    · exact hm.rootGood.1
    · exact hcounted.leaked y hy
  · rw [(refcount_detached y).1] at hy0
    exact hcounted.cache.zero y hy hy0

end

theorem Fs.good_detached (hne : s ≠ rootSb) :
    (fs.detached m s).Good x ↔ fs.Good x ∧ (fs.dentry x).inMnt ≠ some s := by
  unfold Fs.Good Vfs.Good
  rw [mounted_detached hne, link_detached]
  constructor
  · rintro ⟨hmem, hdel, t, ht, hin⟩
    obtain ⟨hts, ht⟩ := mem_erase.mp ht
    refine ⟨⟨hmem, hdel, t, ht, hin⟩, ?_⟩
    rw [hin]
    exact fun heq => hts (some_inj.mp heq)
  · rintro ⟨⟨hmem, hdel, t, ht, hin⟩, hne⟩
    refine ⟨hmem, hdel, t, mem_erase.mpr ⟨?_, ht⟩, hin⟩
    rintro rfl
    exact hne hin

theorem Inv.detached_shape (h : Inv fs debt (m ::ₘ held)) (hs : s ∈ fs.mounted)
    (hne : s ≠ rootSb) (hm : Mounted fs fs.dentries fs.mounted s r m) (hunused : Unused fs held s) :
    Shape (fs.detached m s) fs.dentries (fs.detached m s).mounted := by
  have hshape := h.shape
  have hgood : ∀ x, Good (fs.detached m s) fs.dentries (fs.detached m s).mounted x ↔
      fs.Good x ∧ (fs.dentry x).inMnt ≠ some s := fun x => good_detached hne
  have hlive : ∀ t, t ∈ (fs.detached m s).mounted ↔ t ≠ s ∧ t ∈ fs.mounted := fun t => by
    rw [mounted_detached hne, mem_erase]
  have hrootIn : (fs.dentry fs.root).inMnt ≠ some s := by
    rw [hshape.rootIn]
    exact fun heq => hne (some_inj.mp heq).symm
  refine ⟨fun x hx => ?_, fun t ht htne => ?_, (hlive _).mpr ⟨hne.symm, hshape.rootLive⟩,
    hshape.rootNone, (hgood _).mpr ⟨hshape.rootGood, hrootIn⟩, ?_, ?_,
    fun t ht => hshape.lt t ((hlive t).mp ht).2, hshape.two⟩
  · obtain ⟨hx, hxin⟩ := (hgood x).mp hx
    have hlinked := hshape.linked x hx
    constructor <;> simp only [hgood, hlive, link_detached, inodeOf_detached]
    · intro p hp
      obtain ⟨hp, hin, hmem⟩ := hlinked.parent p hp
      exact ⟨⟨hp, hin ▸ hxin⟩, hin, hmem⟩
    · intro htop
      refine (hlinked.top htop).imp_right fun ⟨t, ht, hroot⟩ => ⟨t, ⟨?_, ht⟩, hroot⟩
      rintro rfl
      obtain rfl : r = x := some_inj.mp (hm.root.symm.trans hroot)
      exact hxin hm.rootIn
    · intro c hc
      obtain ⟨hc, hparent, hin⟩ := hlinked.children c hc
      exact ⟨⟨hc, hin ▸ hxin⟩, hparent, hin⟩
    · exact hlinked.nodup
    · exact hlinked.inode
    · intro t ht
      split at ht
      · cases ht
      · next hxm =>
        obtain ⟨ht, hpoint⟩ := hlinked.mount t ht
        refine ⟨⟨?_, ht⟩, hpoint⟩
        rintro rfl
        exact hxm (some_inj.mp (hpoint.symm.trans hm.mountpoint))
    · split
      · rfl
      · exact hlinked.flag
    · exact hlinked.device
  · obtain ⟨hts, ht⟩ := (hlive t).mp ht
    obtain ⟨r', m', hm'⟩ := hshape.mounted t ht htne
    have hmne : m' ≠ m := by
      rintro rfl
      exact hts (some_inj.mp (hm'.here.symm.trans hm.here))
    refine ⟨r', m', hm'.carry rfl rfl ⟨(hgood r').mpr ⟨hm'.rootGood, ?_⟩, ?_, ?_⟩
      ⟨(hgood m').mpr ⟨hm'.mountpointGood, hunused.mounts t ht m' hm'.mountpoint⟩, ?_, ?_, ?_⟩
      fun _ _ => ⟨rfl, rfl⟩⟩
    · rw [hm'.rootIn]
      exact fun heq => hts (some_inj.mp heq)
    · rw [link_detached]
    · rw [link_detached]
    · rw [link_detached]
      exact if_neg hmne
    · rw [link_detached]
    · rw [inodeOf_detached]
  · show ((fs.detached m s).dentry fs.root).inMnt = _
    rw [link_detached]
    exact hshape.rootIn
  · show ((fs.detached m s).dentry fs.root).parent = _
    rw [link_detached]
    exact hshape.rootTop

/-! ## `sys_umount` -/

theorem Intact.congr (h : Intact fs dom d)
    (hlink : ∀ x, (fs'.dentry x).parent = (fs.dentry x).parent ∧
      (fs'.dentry x).children = (fs.dentry x).children ∧
      (fs'.dentry x).deleted = (fs.dentry x).deleted)
    (hdom : ∀ x ∈ dom, (fs.dentry x).deleted = false → x ∈ dom') :
    Intact fs' dom' d ∧ ∀ x, Below fs' d x ↔ Below fs d x := by
  have hbelow : ∀ x, Below fs' d x ↔ Below fs d x := by
    intro x
    have hstep : (fun p c => c ∈ (fs'.dentry p).children) =
        fun p c => c ∈ (fs.dentry p).children := by
      funext p c
      rw [(hlink p).2.1]
    rw [Below, Below, hstep]
  have hup : Up fs' = Up fs := by
    funext x y
    rw [Up, Up, (hlink x).1]
  refine ⟨⟨fun x hx => ?_, fun x hx c hc => ?_, fun x hx => ?_, fun x hx => ?_⟩, hbelow⟩
  · obtain ⟨hmem, hdel⟩ := h.mem x ((hbelow x).mp hx)
    exact ⟨hdom x hmem hdel, (hlink x).2.2.trans hdel⟩
  · rw [hup]
    exact h.child x ((hbelow x).mp hx) c ((hlink x).2.1 ▸ hc)
  · rw [(hlink x).2.1]
    exact h.nodup x ((hbelow x).mp hx)
  · rw [hup]
    exact h.acyclic x ((hbelow x).mp hx)

theorem Swept.dentries_eq {marks : Nat → Prop} (h : Swept fs fs' fs.dentries dom' marks) :
    dom' = fs'.dentries :=
  dentries_eq_of_lost h.rest.1 h.sub h.lost h.freed h.log

/-- The sweep of a tree whose super block is not mounted any more. -/
theorem Inv.umountCleanupDentry (h : Inv fs debt held) (hintact : Intact fs fs.dentries r)
    (hout : ∀ x, Below fs r x → ¬fs.Good x) (n : Nat) :
    Inv (fs.umountCleanupDentry o n r) debt held ∧
      Swept fs (fs.umountCleanupDentry o n r) fs.dentries
        (fs.umountCleanupDentry o n r).dentries (Below fs r) ∧
      (0 < n → ((fs.umountCleanupDentry o n r).dentry r).deleted = true) := by
  obtain ⟨dom', hcounted, hswept, hdeleted⟩ := h.counted.umountCleanupDentry (o := o) n hintact
  generalize fs.umountCleanupDentry o n r = fs' at hcounted hswept hdeleted
  obtain rfl := hswept.dentries_eq
  obtain ⟨hnext, hnextInode, hsb, hnextSb, hpart, hmountList, hroot, -⟩ := hswept.rest
  have hmounted : fs'.mounted = fs.mounted := by rw [Fs.mounted, Fs.mounted, hmountList]
  -- the tree itself has not been touched
  have hsafe : ∀ x, fs.Good x → (fs'.dentry x).deleted = false := by
    intro x hx
    refine Bool.eq_false_iff.mpr fun hdel => ?_
    rcases hswept.marked x hdel with hdel | hbelow
    · rw [hx.2.1] at hdel
      cases hdel
    · exact hout x hbelow hx
  refine ⟨⟨hmounted ▸ hcounted, ?_, ?_⟩, hswept, hdeleted⟩
  · rw [hmounted]
    refine h.shape.agree ⟨fun x => ?_, fun x hx => ?_, fun i _ => hswept.attr i, hnextInode.ge,
      fun t _ => congrFun hsb t, hnextSb.ge, fun q => by rw [hpart], hroot,
      fun _ _ q _ => by rw [hpart]⟩
    · constructor
      · rintro ⟨hmem, hdel, hin⟩
        rw [hswept.link x] at hin
        refine ⟨hswept.sub hmem, Bool.eq_false_iff.mpr fun hdel' => ?_, hin⟩
        rw [hswept.mono x hdel'] at hdel
        cases hdel
      · intro hx
        refine ⟨hswept.kept x hx.1 (hsafe x hx), hsafe x hx, ?_⟩
        rw [hswept.link x]
        exact hx.2.2
    · rw [hswept.link x, hsafe x hx, ← hx.2.1]
  · exact h.bound.congr hswept.sub hnextSb.ge fun x _ => by rw [hswept.link x]

/-- Super blocks and block devices are changed where no pointer of a mounted file system is. -/
theorem Inv.congr_sb (h : Inv fs debt held) (hdentry : fs'.dentry = fs.dentry)
    (hattr : fs'.inode = fs.inode) (hnextInode : fs'.nextInode = fs.nextInode)
    (hnext : fs'.next = fs.next) (hsb : ∀ t ∈ fs.mounted, fs'.sb t = fs.sb t)
    (hnextSb : fs'.nextSb = fs.nextSb) (hpart : ∀ q, (fs'.part q).fsDentry = (fs.part q).fsDentry)
    (hmountList : fs'.mountList = fs.mountList) (hroot : fs'.root = fs.root)
    (hfreed : fs'.freed = fs.freed) (hcache : fs'.cacheList = fs.cacheList)
    (howner : ∀ t ∈ fs.mounted, ∀ q, (fs.sb t).part = some q →
      (fs'.part q).mountedSb = (fs.part q).mountedSb) :
    Inv fs' debt held := by
  have hmounted : fs'.mounted = fs.mounted := by rw [Fs.mounted, Fs.mounted, hmountList]
  have hdom : fs'.dentries = fs.dentries := by rw [dentries, dentries, hnext, hfreed]
  refine ⟨?_, ?_, h.bound.congr hdom.le hnextSb.ge fun x _ => by rw [hdentry]⟩
  · rw [hdom, hmounted]
    exact h.counted.congr_parents hnext hsb hpart hroot
      (fun x => by rw [hdentry]; exact ⟨rfl, rfl, rfl, rfl, rfl, rfl⟩) hfreed hcache
  · rw [hdom, hmounted]
    refine h.shape.agree ⟨fun x => ?_, fun x _ => by rw [hdentry], fun i _ => by rw [hattr],
      hnextInode.ge, hsb, hnextSb.ge, hpart, hroot, howner⟩
    unfold Good
    rw [hdentry]

theorem Fs.fsDentry_modifyPart (q : Nat) (v : Option Nat) (q' : Nat) :
    ((fs.modifyPart q fun x => { x with mountedSb := v }).part q').fsDentry =
      (fs.part q').fsDentry := by
  show (update fs.part q _ q').fsDentry = _
  rw [update_apply]
  split
  · next heq => rw [heq]
  · rfl

/-- What the steps of `sys_umount` behind the lists leave alone. -/
structure Thread (fs fs' : Fs β) (s : Nat) (marks : Nat → Prop) : Prop where
  next : fs'.next = fs.next
  link : ∀ x, (fs'.dentry x).inMnt = (fs.dentry x).inMnt ∧
    (fs'.dentry x).inode = (fs.dentry x).inode
  attr : ∀ i, (fs'.inode i).toAttr = (fs.inode i).toAttr
  marked : ∀ x, (fs'.dentry x).deleted = true → (fs.dentry x).deleted = true ∨ marks x
  mono : ∀ x, (fs.dentry x).deleted = true → (fs'.dentry x).deleted = true
  sb : ∀ t, t ≠ s → fs'.sb t = fs.sb t
  part : ∀ q, (fs'.part q).fsDentry = (fs.part q).fsDentry
  mounted : fs'.mounted = fs.mounted
  fsRef : fs'.fsRef = fs.fsRef

namespace Thread

variable {marks : Nat → Prop}

theorem trans (h : Thread fs fs' s marks) (h' : Thread fs' fs'' s marks) :
    Thread fs fs'' s marks where
  next := h'.next.trans h.next
  link x := ⟨(h'.link x).1.trans (h.link x).1, (h'.link x).2.trans (h.link x).2⟩
  attr i := (h'.attr i).trans (h.attr i)
  marked x hx := (h'.marked x hx).elim (h.marked x) .inr
  mono x hx := h'.mono x (h.mono x hx)
  sb t ht := (h'.sb t ht).trans (h.sb t ht)
  part q := (h'.part q).trans (h.part q)
  mounted := h'.mounted.trans h.mounted
  fsRef := h'.fsRef.trans h.fsRef

theorem of_same (h : Same fs fs') : Thread fs fs' s marks where
  next := h.next
  link x := ⟨h.inMnt x, congrArg Link.inode (h.link x)⟩
  attr := h.attr
  marked x hx := .inl (h.deleted x ▸ hx)
  mono x hx := (h.deleted x).trans hx
  sb t _ := congrFun h.sb t
  part q := by rw [h.part]
  mounted := h.mounted
  fsRef := h.fsRef

theorem of_swept {dom : Finset Nat} (h : Swept fs fs' dom dom' marks) : Thread fs fs' s marks where
  next := h.rest.1
  link x := by
    rw [h.link x]
    exact ⟨rfl, rfl⟩
  attr := h.attr
  marked := h.marked
  mono := h.mono
  sb t _ := congrFun h.rest.2.2.1 t
  part q := by rw [h.rest.2.2.2.2.1]
  mounted := by rw [Fs.mounted, Fs.mounted, h.rest.2.2.2.2.2.1]
  fsRef := h.rest.2.2.2.2.2.2.2

theorem modifySb (f : SuperBlock → SuperBlock) : Thread fs (fs.modifySb s f) s marks :=
  ⟨rfl, fun _ => ⟨rfl, rfl⟩, fun _ => rfl, fun _ hx => .inl hx, fun _ hx => hx,
    fun _ ht => update_of_ne ht _ _, fun _ => rfl, rfl, rfl⟩

theorem modifyPart (q : Nat) (v : Option Nat) :
    Thread fs (fs.modifyPart q fun x => { x with mountedSb := v }) s marks :=
  ⟨rfl, fun _ => ⟨rfl, rfl⟩, fun _ => rfl, fun _ hx => .inl hx, fun _ hx => hx, fun _ _ => rfl,
    fsDentry_modifyPart q v, rfl, rfl⟩

end Thread

theorem Inv.modifySb (h : Inv fs debt held) (hs : s ∉ fs.mounted) (f : SuperBlock → SuperBlock) :
    Inv (fs.modifySb s f) debt held :=
  have hne : ∀ t ∈ fs.mounted, t ≠ s := fun _ ht heq => hs (heq ▸ ht)
  h.congr_sb rfl rfl rfl rfl (fun t ht => update_of_ne (hne t ht) _ _) rfl (fun _ => rfl) rfl
    rfl rfl rfl fun _ _ _ _ => rfl

/-- The device is not that of a mounted file system. -/
theorem Inv.modifyPart {q : Nat} (h : Inv fs debt held)
    (hfree : ∀ t ∈ fs.mounted, (fs.sb t).part ≠ some q) (v : Option Nat) :
    Inv (fs.modifyPart q fun x => { x with mountedSb := v }) debt held := by
  refine h.congr_sb rfl rfl rfl rfl (fun _ _ => rfl) rfl (fsDentry_modifyPart q v) rfl rfl rfl rfl
    fun t ht q' hq' => ?_
  have hne : q' ≠ q := fun heq => hfree t ht (heq ▸ hq')
  show (update fs.part q _ q').mountedSb = _
  rw [update_of_ne hne]

theorem Inv.umountPoint (h : Inv fs debt (m ::ₘ held)) (hs : s ∈ fs.mounted) (hne : s ≠ rootSb)
    (hm : Mounted fs fs.dentries fs.mounted s r m) (hr : r ∉ debt.leaked)
    (hunused : Unused fs held s) :
    Inv (fs.umountPoint o m s) (debt.leave r)
        (m ::ₘ (fs.device s).elim held fun dev => dev ::ₘ held) ∧
      Shrunk (fs.detached m s) ((fs.detached m s).dentryPut o m) fs.dentries
        ((fs.detached m s).dentryPut o m).dentries ∧
      fs.umountPoint o m s =
        ((fs.detached m s).dentryPut o m).modifySb s fun x => { x with mountpoint := none } := by
  have hpoint : fs.umountPoint o m s =
      ((fs.detached m s).dentryPut o m).modifySb s fun x => { x with mountpoint := none } := by
    show ((fs.detached m s).sb s).mountpoint.elim (fs.detached m s) _ = _
    rw [show ((fs.detached m s).sb s).mountpoint = some m from hm.mountpoint]
    rfl
  have hdetached : Inv (fs.detached m s) (debt.leave r)
      (m ::ₘ m ::ₘ (fs.device s).elim held fun dev => dev ::ₘ held) :=
    ⟨h.detached_counted hs hne hm hr, h.detached_shape hs hne hm hunused,
      h.bound.congr subset_rfl le_rfl fun x _ => by rw [link_detached]⟩
  obtain ⟨hput, hsame⟩ := hdetached.dentryPut (o := o)
  obtain ⟨dom', -, hshrunk⟩ := hdetached.counted.dentryPut (o := o)
  obtain rfl := hshrunk.dentries_eq
  refine ⟨?_, hshrunk, hpoint⟩
  rw [hpoint]
  refine hput.modifySb ?_ _
  rw [hsame.mounted, mounted_detached hne]
  exact notMem_erase s _

theorem Inv.umountTree (h : Inv fs debt held) (hroot : (fs.sb s).root = some r)
    (hs : s ∉ fs.mounted) (hintact : Intact fs fs.dentries r)
    (hout : ∀ x, Below fs r x → ¬fs.Good x) :
    Inv (fs.umountTree o s) debt held ∧ Thread fs (fs.umountTree o s) s (Below fs r) ∧
      ((fs.umountTree o s).dentry r).deleted = true := by
  obtain ⟨hinv, hswept, hdeleted⟩ := h.umountCleanupDentry (o := o) hintact hout (fs.next + 1)
  unfold Fs.umountTree
  rw [hroot, elim_some]
  have hthread := (Thread.of_swept (s := s) hswept).trans
    (Thread.modifySb fun x => { x with root := none })
  have hs' : s ∉ (fs.umountCleanupDentry o (fs.next + 1) r).mounted := by
    rw [Fs.mounted, hswept.rest.2.2.2.2.2.1]
    exact hs
  refine ⟨?_, { hthread with }, hdeleted (Nat.succ_pos _)⟩
  exact ((Settled.refl (hinv.modifySb hs' _)).backend _).inv

theorem Inv.umountDevice {q dev : Nat} (h : Inv fs debt (dev ::ₘ held))
    (hdev : (fs.part q).fsDentry = some dev) (hfree : ∀ t ∈ fs.mounted, (fs.sb t).part ≠ some q)
    (marks : Nat → Prop) :
    Inv (fs.umountDevice o q) debt held ∧ Thread fs (fs.umountDevice o q) s marks := by
  have hmod := h.modifyPart hfree none
  have hdev' := (fsDentry_modifyPart q none q).trans hdev
  unfold Fs.umountDevice
  dsimp only
  rw [hdev']
  obtain ⟨hput, hsame⟩ := hmod.dentryPut (o := o)
  exact ⟨hput, (Thread.modifyPart q _).trans (.of_same hsame)⟩

/-- The file system `s` with the root `r`, mounted on a directory of `t`, has been unmounted. -/
structure Cut (fs fs' : Fs β) (held : Multiset Nat) (s t r : Nat) : Prop where
  next : fs.next ≤ fs'.next
  inMnt : ∀ d < fs.next, (fs'.dentry d).inMnt = (fs.dentry d).inMnt
  deleted : ∀ d < fs.next, (fs.dentry d).deleted = true → (fs'.dentry d).deleted = true
  dir : ∀ d ∈ held, fs.Dir d → fs'.Dir d
  sb : ∀ u ∈ fs.mounted, u ≠ s → fs'.sb u = fs.sb u
  mounted : fs'.mounted = fs.mounted.erase s
  live : s ∈ fs.mounted ∧ s ≠ rootSb
  mountpoint : ∃ m ∈ fs.dentries, (fs.sb s).mountpoint = some m ∧ (fs.dentry m).inMnt = some t
  fsRef : ∀ u, fs'.fsRef u = fs.fsRef u - if u = t then 1 else 0
  root : (fs.sb s).root = some r
  marked : (fs'.dentry r).deleted = true

/-- Behind the mount point the tree of `r` is as it was, and nothing in it is reachable. -/
theorem Inv.umountPoint_tree (h : Inv fs debt (m ::ₘ held)) (hs : s ∈ fs.mounted) (hne : s ≠ rootSb)
    (hm : Mounted fs fs.dentries fs.mounted s r m) (hr : r ∉ debt.leaked)
    (hunused : Unused fs held s) :
    Thread (fs.detached m s) (fs.umountPoint o m s) s (Below fs r) ∧
      ((fs.umountPoint o m s).sb s).root = some r ∧
      Intact (fs.umountPoint o m s) (fs.umountPoint o m s).dentries r ∧
      Below (fs.umountPoint o m s) r = Below fs r ∧
      ∀ x, Below (fs.umountPoint o m s) r x → ¬(fs.umountPoint o m s).Good x := by
  obtain ⟨-, hshrunk, hpoint⟩ := h.umountPoint (o := o) hs hne hm hr hunused
  have hsame := hshrunk.same
  have hthread : Thread (fs.detached m s) (fs.umountPoint o m s) s (Below fs r) := by
    rw [hpoint]
    exact (Thread.of_same hsame).trans (.modifySb _)
  have hroot : ((fs.umountPoint o m s).sb s).root = some r := by
    rw [hpoint, Fs.modifySb]
    dsimp only
    rw [update_self, hsame.sb]
    exact hm.root
  obtain ⟨hintact, hbelow⟩ : Intact (fs.umountPoint o m s) (fs.umountPoint o m s).dentries r ∧
      ∀ x, Below (fs.umountPoint o m s) r x ↔ Below fs r x := by
    rw [hpoint]
    refine (h.intact hm.rootGood hm.rootTop).congr (fun x => ?_) fun x hx hdel => ?_
    · have hlink := (hsame.link x).trans (link_detached x)
      show ((Fs.dentryPut o _ m).dentry x).parent = _ ∧
        ((Fs.dentryPut o _ m).dentry x).children = _ ∧
        ((Fs.dentryPut o _ m).dentry x).deleted = _
      rw [hlink]
      exact ⟨rfl, rfl, rfl⟩
    · refine hshrunk.kept x hx ?_
      rw [link_detached]
      exact hdel
  refine ⟨hthread, hroot, hintact, funext fun x => propext (hbelow x), ?_⟩
  rintro x hx ⟨-, -, t, ht, hin⟩
  have hin' := (h.good_below hm.rootGood ((hbelow x).mp hx)).2.1
  rw [(hthread.link x).1, link_detached] at hin
  rw [hthread.mounted, mounted_detached hne] at ht
  refine ne_of_mem_erase ht (some_inj.mp ?_)
  rw [← hm.rootIn, ← hin', ← hin]

/-- The reference to the device goes, if there is one. -/
theorem Inv.umountPart {part : Option Nat}
    (h : Inv fs debt ((part.bind fun q => (fs.part q).fsDentry).elim held fun dev => dev ::ₘ held))
    (hregistered : ∀ q, part = some q → (fs.part q).fsDentry ≠ none)
    (hfree : ∀ q, part = some q → ∀ t ∈ fs.mounted, (fs.sb t).part ≠ some q)
    (marks : Nat → Prop) :
    Inv (part.elim fs (fs.umountDevice o)) debt held ∧
      Thread fs (part.elim fs (fs.umountDevice o)) s marks := by
  cases part with
  | none => exact ⟨h, .of_same (.refl _)⟩
  | some q =>
    obtain ⟨dev, hdev⟩ := ne_none_iff_exists'.mp (hregistered q rfl)
    rw [bind_some, hdev] at h
    exact h.umountDevice hdev (hfree q rfl) marks

/-- The steps behind the mount point delete the tree of `r` and drop the reference to the file
system of the mount point. -/
theorem Inv.cut (h : Inv fs debt (m ::ₘ held)) (hs : s ∈ fs.mounted) (hne : s ≠ rootSb)
    (hm : Mounted fs fs.dentries fs.mounted s r m) (hunused : Unused fs held s)
    (hthread : Thread (fs.detached m s) fs' s (Below fs r))
    (hmarked : (fs'.dentry r).deleted = true)
    (hthread' : Thread (fs'.sbPut (some (fs.inodeOf m).sb)) fs'' s (Below fs r))
    (hheld : ∀ x ∈ held, x ∈ fs''.dentries) : Cut fs fs'' held s (fs.inodeOf m).sb r := by
  rw [sbPut_eq] at hthread'
  have hlink : ∀ x, (fs''.dentry x).inMnt = (fs.dentry x).inMnt ∧
      (fs''.dentry x).inode = (fs.dentry x).inode := by
    intro x
    have hold := hthread.link x
    rw [link_detached] at hold
    exact ⟨(hthread'.link x).1.trans hold.1, (hthread'.link x).2.trans hold.2⟩
  have hmounted : fs''.mounted = fs.mounted.erase s :=
    (hthread'.mounted.trans hthread.mounted).trans (mounted_detached hne)
  refine ⟨(hthread'.next.trans hthread.next).ge, fun x _ => (hlink x).1, fun x _ hdel => ?_,
    fun x hx hdir => ⟨⟨hheld x hx, ?_, ?_⟩, ?_⟩, fun u _ hu => ?_, hmounted, ⟨hs, hne⟩,
    ⟨m, hm.mountpointGood.1, hm.mountpoint, h.inMnt_eq hm.mountpointGood⟩, fun u => ?_, hm.root,
    hthread'.mono r hmarked⟩
  · refine hthread'.mono x (hthread.mono x ?_)
    rw [link_detached]
    exact hdel
  · -- a directory that is held is not in the tree that has been deleted
    have hnot : ¬Below fs r x := fun hx' => hunused.held x hx
      ((h.good_below hm.rootGood hx').2.1.trans hm.rootIn)
    refine Bool.eq_false_iff.mpr fun hdel => ?_
    have hdel' := (hthread'.marked x hdel).resolve_right hnot
    have hdel₀ := (hthread.marked x hdel').resolve_right hnot
    rw [link_detached] at hdel₀
    have hgood := hdir.1.2.1
    rw [hgood] at hdel₀
    cases hdel₀
  · obtain ⟨t, ht, hint⟩ := hdir.1.2.2
    rw [(hlink x).1, hmounted]
    refine ⟨t, mem_erase.mpr ⟨?_, ht⟩, hint⟩
    rintro rfl
    exact hunused.held x hx hint
  · have hattr : (fs''.inodeOf x).toAttr = (fs.inodeOf x).toAttr := by
      unfold inodeOf
      rw [(hlink x).2]
      cases (fs.dentry x).inode with
      | none => rfl
      | some i => exact (hthread'.attr i).trans (hthread.attr i)
    rw [hattr]
    exact hdir.2
  · exact (hthread'.sb u hu).trans (hthread.sb u hu)
  · rw [hthread'.fsRef]
    dsimp only
    rw [hthread.fsRef]
    show update fs.fsRef _ _ u = _
    rw [update_apply]
    split
    · next heq =>
      rw [heq]
      rfl
    · rw [sub_zero]

theorem Inv.umountFound (h : Inv fs debt (m ::ₘ held)) (hs : s ∈ fs.mounted) (hne : s ≠ rootSb)
    (hm : Mounted fs fs.dentries fs.mounted s r m) (hr : r ∉ debt.leaked)
    (hunused : Unused fs held s) :
    Inv (fs.umountFound o m s) (debt.leave r) held ∧
      Cut fs (fs.umountFound o m s) held s (fs.inodeOf m).sb r := by
  obtain ⟨hinv₁, -, -⟩ := h.umountPoint (o := o) hs hne hm hr hunused
  obtain ⟨hthread₁, hroot₁, hintact, hbelow, hout⟩ :=
    h.umountPoint_tree (o := o) hs hne hm hr hunused
  have hs₁ : s ∉ (fs.umountPoint o m s).mounted := by
    rw [hthread₁.mounted, mounted_detached hne]
    exact notMem_erase s _
  obtain ⟨hinv₂, hthread₂, hmarked₂⟩ := hinv₁.umountTree (o := o) hroot₁ hs₁ hintact hout
  rw [hbelow] at hthread₂
  obtain ⟨hinv₃, hsame₃⟩ := hinv₂.dentryPut (o := o)
  have hthread₃ := (hthread₁.trans hthread₂).trans (.of_same hsame₃)
  have hmarked₃ := (hsame₃.deleted r).trans hmarked₂
  have hfound : fs.umountFound o m s = (fs.sb s).part.elim
      ((((fs.umountPoint o m s).umountTree o s).dentryPut o m).sbPut (some (fs.inodeOf m).sb))
      (((((fs.umountPoint o m s).umountTree o s).dentryPut o m).sbPut
        (some (fs.inodeOf m).sb)).umountDevice o) := by
    unfold Fs.umountFound
    rw [hm.mountpoint]
    rfl
  rw [hfound]
  generalize ((fs.umountPoint o m s).umountTree o s).dentryPut o m =
    fs₃ at hinv₃ hthread₃ hmarked₃ ⊢
  have hdevice : ((fs.sb s).part.bind fun q => (fs₃.part q).fsDentry) = fs.device s :=
    congrArg ((fs.sb s).part.bind) (funext hthread₃.part)
  -- its device is that of no other file system
  have hfree : ∀ q, (fs.sb s).part = some q → ∀ t ∈ fs₃.mounted, (fs₃.sb t).part ≠ some q := by
    intro q hpart t ht hq
    rw [hthread₃.mounted, mounted_detached hne, mem_erase] at ht
    rw [hthread₃.sb t ht.1] at hq
    have howner := h.shape.owner t ht.2 q hq
    rw [hm.owner q hpart, some_inj] at howner
    exact ht.1 howner.symm
  have hinv₄ : Inv (fs₃.sbPut (some (fs.inodeOf m).sb)) (debt.leave r)
      (((fs.sb s).part.bind fun q => (fs₃.part q).fsDentry).elim held fun dev => dev ::ₘ held) := by
    rw [hdevice, sbPut_eq]
    exact hinv₃.setFsRef _
  obtain ⟨hinv₅, hthread₅⟩ := hinv₄.umountPart (o := o) (s := s)
    (fun q hpart => hthread₃.part q ▸ hm.registered q hpart) hfree (Below fs r)
  exact ⟨hinv₅, h.cut hs hne hm hunused hthread₃ hmarked₃ hthread₅ hinv₅.counted.held⟩

/-- The outcomes of `sys_umount`. -/
inductive UmountResult (fs : Fs β) (debt : Debt) (held : Multiset Nat) : Fs β × Bool → Prop
  | failed {fs' : Fs β} (done : Done fs fs' debt held) : UmountResult fs debt held (fs', false)
  | unmounted {fs' : Fs β} {s t r : Nat} (inv : Inv fs' (debt.leave r) held)
      (cut : Cut fs fs' held s t r) (unleaked : r ∉ debt.leaked) (idle : fs.fsRef s = 0) :
      UmountResult fs debt held (fs', true)

theorem Inv.mem_of_mountpoint (h : Inv fs debt held) (hs : s ∈ fs.mounted)
    (hm : (fs.sb s).mountpoint = some m) : m ∈ fs.dentries := by
  refine h.counted.pointed m ?_
  have hpos := holders_pos (fun s => (fs.sb s).mountpoint) hs hm
  unfold pointers
  omega

theorem Inv.realMountpoint (h : Inv fs debt (d ::ₘ held)) (hd : fs.Good d) :
    Inv (fs.realMountpoint o d).1 debt ((fs.realMountpoint o d).2 ::ₘ held) ∧
      Same fs (fs.realMountpoint o d).1 ∧
      (fs.realMountpoint o d).1.Good (fs.realMountpoint o d).2 := by
  have hstay : Inv fs debt (d ::ₘ held) ∧ Same fs fs ∧ fs.Good d := ⟨h, .refl fs, hd⟩
  unfold Fs.realMountpoint
  split
  · next s hin =>
    split
    · next r m hroot hpoint =>
      split
      · next heq =>
        have hs : s ∈ fs.mounted := by
          obtain ⟨t, ht, hint⟩ := hd.2.2
          rw [hin, some_inj] at hint
          exact hint ▸ ht
        obtain ⟨r', hm⟩ := h.shape.mountedAt hs hpoint
        have hget := h.dentryGet hm.mountpointGood.1
        have hgood : (fs.dentryGet m).Good m :=
          (Frame.of_same same_dentryGet).good hm.mountpointGood hget.mem_dentries
        obtain ⟨hput, hsame, hgood'⟩ := Inv.put_second (o := o) hget hgood
        exact ⟨hput, same_dentryGet.trans hsame, hgood'⟩
      · exact hstay
    · exact hstay
  · exact hstay

/-- Lookups before the call. -/
theorem Cut.wrap {s t r : Nat} {held' : Multiset Nat} (h : Cut fs' fs'' held s t r)
    (hsettled : Settled fs fs' debt held') (hinv : Inv fs debt held) (hsub : held ≤ held') :
    Cut fs fs'' held s t r := by
  have hframe := hsettled.frame
  have hmounted := hframe.mounted
  refine ⟨hframe.next.trans h.next, fun d hd => ?_, fun d hd hdel => ?_, fun d hd hdir => ?_,
    fun u hu hus => ?_, ?_, hmounted ▸ h.live, ?_, fun u => ?_, hframe.sb ▸ h.root, h.marked⟩
  · rw [h.inMnt d (hd.trans_le hframe.next), hframe.inMnt d hd]
  · exact h.deleted d (hd.trans_le hframe.next) ((hframe.deleted d hd).trans hdel)
  · exact h.dir d hd (hframe.dir hinv hdir
      (hsettled.inv.counted.held d (mem_of_le hsub hd)))
  · rw [h.sb u (hmounted ▸ hu) hus, hframe.sb]
  · rw [h.mounted, hmounted]
  · obtain ⟨m, -, hpoint, hin⟩ := h.mountpoint
    rw [hframe.sb] at hpoint
    have hm := hinv.mem_of_mountpoint (hmounted ▸ h.live.1) hpoint
    exact ⟨m, hm, hpoint, (hframe.inMnt m (Fs.mem_dentries.mp hm).1).symm.trans hin⟩
  · rw [h.fsRef, hframe.fsRef]

theorem Inv.sysUmount (h : Inv fs debt held)
    (hleaked : ∀ x ∈ debt.leaked, (fs.dentry x).deleted = true)
    (hunused : ∀ s ∈ fs.mounted, fs.fsRef s = 0 → Unused fs held s) (path : Path) :
    UmountResult fs debt held (fs.sysUmount o path) := by
  obtain ⟨harrives, -⟩ := h.lookupLocked (o := o) (some fs.root)
    (fun d hd => by cases hd; exact h.shape.rootGood) path
  have hsettled := (Settled.refl h).arrives harrives
  unfold Fs.sysUmount
  split
  · next fs₁ hlookup =>
    rw [hlookup] at hsettled
    exact .failed (hsettled.done h)
  · next fs₁ d hlookup =>
    rw [hlookup] at hsettled harrives
    rw [elim_some] at hsettled
    have hd := harrives.good d rfl
    dsimp only at hsettled hd ⊢
    obtain ⟨hinv, hsame, hm⟩ := hsettled.inv.realMountpoint (o := o) hd
    have hnext : Settled fs _ debt _ := ⟨hsettled.frame.trans (.of_same hsame), hinv⟩
    generalize (fs₁.realMountpoint o d).1 = fs₂ at hinv hm hnext ⊢
    generalize (fs₁.realMountpoint o d).2 = m at hinv hm hnext ⊢
    have hframe := hnext.frame
    have hlinked := hinv.shape.linked m hm
    split
    · exact .failed (hnext.put.done h)
    next hflag =>
    split
    · next hnone =>
      rw [hlinked.flag, hnone] at hflag
      exact absurd rfl hflag
    · next s hhere =>
      split
      · exact .failed (hnext.put.done h)
      next hzero =>
      obtain ⟨hs, hpoint⟩ := hlinked.mount s hhere
      obtain ⟨r, hmounted⟩ := hinv.shape.mountedAt hs hpoint
      have hr : r ∉ debt.leaked := by
        intro hmem
        have hdel := hframe.deleted r (h.counted.lt r (h.counted.leaked r hmem))
        rw [hleaked r hmem, hmounted.rootGood.2.1] at hdel
        cases hdel
      have hidle : fs.fsRef s = 0 := by
        rw [← hframe.fsRef]
        exact Decidable.not_not.mp hzero
      have hfree : Unused fs₂ held s := by
        have hold := hunused s (hframe.mounted ▸ hs) hidle
        refine ⟨fun x hx => ?_, fun t ht m hm => ?_⟩
        · rw [hframe.inMnt x (h.counted.lt x (h.counted.held x hx))]
          exact hold.held x hx
        · rw [hframe.sb] at hm
          have hmem := h.mem_of_mountpoint (hframe.mounted ▸ ht) hm
          rw [hframe.inMnt m (Fs.mem_dentries.mp hmem).1]
          exact hold.mounts t (hframe.mounted ▸ ht) m hm
      obtain ⟨hinv', hcut⟩ := hinv.umountFound (o := o) hs
        (hinv.shape.ne_rootSb hpoint) hmounted hr hfree
      exact .unmounted hinv' (hcut.wrap hnext h (le_cons_self _ _)) hr hidle

end Osx64.Vfs
