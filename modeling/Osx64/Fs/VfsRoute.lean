import Osx64.Fs.SplitPath
import Osx64.Fs.VfsCalls

/-!
# Routes through the tree

`__vfs_lookup_locked` asks a file system only for names that have no dentry yet, and hangs what
it finds into the tree.  So a path that has been resolved can be followed once more without the
file systems: `Fs.route` is where it leads to in the tree as it is.  Lookups only add dentries,
at the end of the lists of children, and a route stays the same (`Extends.route`).

With this a lookup can be compared with another one that is made later.  A path that leads
nowhere still does so after the lookup that found this out (`Inv.walk_route`), and the path of a
new file or directory leads there.
-/

namespace Osx64.Vfs

open List Option Vfs.Fs

variable {β : Type} {o : Backend β} {fs fs' fs'' : Fs β} {debt : Debt}
  {held : Multiset Nat} {d current next : Nat} {name : Name} {path : List Name}

/-! ## Routes -/

namespace Fs

/-- From a mount point to the root of the file system on it. -/
def through (fs : Fs β) (d : Nat) : Nat :=
  if (fs.dentry d).mountpoint then
    (fs.dentry d).mountedHere.elim d fun s => (fs.sb s).root.getD d
  else d

/-- The dentry a component leads to, if there is one. -/
def neighbour (fs : Fs β) (current : Nat) (name : Name) : Option Nat :=
  if name = dot then some current
  else if name = dotdot then some (fs.goUp current).2
  else fs.childNamed current name

/-- Where a path leads to in the tree. -/
def route (fs : Fs β) (current : Nat) : List Name → Option Nat
  | [] => some current
  | name :: rest => (fs.neighbour current name).bind fun next => fs.route (fs.through next) rest

theorem route_append (fs : Fs β) (current : Nat) (before behind : List Name) :
    fs.route current (before ++ behind) =
      (fs.route current before).bind fun d => fs.route d behind := by
  induction before generalizing current with
  | nil => rfl
  | cons name before ih =>
    simp only [cons_append, route, ih, bind_assoc]

end Fs

/-! ## States with more dentries -/

/-- Dentries may have been added, at the end of lists of children. -/
structure Extends (fs fs' : Fs β) : Prop where
  next : fs.next ≤ fs'.next
  link : ∀ d < fs.next, ∃ new, (fs'.dentry d).toLink =
    { (fs.dentry d).toLink with children := (fs.dentry d).children ++ new }
  sb : fs'.sb = fs.sb
  root : fs'.root = fs.root

namespace Extends

theorem of_same (h : Same fs fs') : Extends fs fs' where
  next := h.next.ge
  link d _ := ⟨[], by rw [h.link d, append_nil]⟩
  sb := h.sb
  root := h.root

theorem refl (fs : Fs β) : Extends fs fs := of_same (.refl fs)

theorem trans (h : Extends fs fs') (h' : Extends fs' fs'') : Extends fs fs'' where
  next := h.next.trans h'.next
  link d hd := by
    obtain ⟨new, hnew⟩ := h.link d hd
    obtain ⟨new', hnew'⟩ := h'.link d (hd.trans_le h.next)
    refine ⟨new ++ new', ?_⟩
    have hchildren : (fs'.dentry d).children = (fs.dentry d).children ++ new :=
      congrArg Link.children hnew
    rw [hnew', hchildren, hnew, append_assoc]
  sb := h'.sb.trans h.sb
  root := h'.root.trans h.root

theorem of_skipped (h : Skipped fs fs') : Extends fs fs' where
  next := by rw [h.next]; exact Nat.le_succ _
  link d hd := ⟨[], by rw [h.other d hd.ne, append_nil]⟩
  sb := h.sb
  root := h.root

theorem of_hung {p : Nat} {info : NewInode} (h : Hung fs fs' p name info) : Extends fs fs' where
  next := by rw [h.next]; exact Nat.le_succ _
  link d hd := by
    by_cases hp : d = p
    · subst hp
      exact ⟨[fs.next], by rw [h.parent]⟩
    · exact ⟨[], by rw [h.other d hd.ne hp, append_nil]⟩
  sb := h.sb
  root := h.root

end Extends

/-! ## Steps that need no file system -/

theorem lt_of_good (hd : fs.Good d) : d < fs.next := (mem_dentries.mp hd.1).1

/-- `".."` takes a reference to where it leads, or none at all. -/
theorem goUp_cases (fs : Fs β) (current : Nat) :
    fs.goUp current = (fs.dentryGet (fs.goUp current).2, (fs.goUp current).2) ∨
      fs.goUp current = (fs, current) := by
  unfold Fs.goUp
  repeat' split
  all_goals simp

theorem good_dentryGet {e : Nat} : (fs.dentryGet e).Good d ↔ fs.Good d := by
  have hsame : Same fs (fs.dentryGet e) := same_dentryGet
  have hdom : (fs.dentryGet e).dentries = fs.dentries := rfl
  rw [Fs.Good, Fs.Good, Good, Good, hdom, hsame.mounted, hsame.deleted, hsame.inMnt]

/-- A dentry that is not deleted leaves nothing to do for the file systems. -/
theorem backend_dentryPut (hd : (fs.dentry d).deleted = false) :
    (fs.dentryPut o d).backend = fs.backend := by
  have hdel : ((fs.modify d fun x => { x with refcount := x.refcount - 1 }).dentry d).deleted =
      false := by
    simp [Fs.modify, hd]
  rw [dentryPut, putChain]
  split
  · rfl
  · rw [hdel]
    simp only [Bool.false_eq_true, if_false]
    split <;> rfl

theorem handleMount_snd (o : Backend β) (fs : Fs β) (next : Nat) :
    (fs.handleMount o next).2 = fs.through next := by
  rw [handleMount, Fs.through]
  split
  · cases (fs.dentry next).mountedHere with
    | none => rfl
    | some s => cases hroot : (fs.sb s).root <;> simp [hroot]
  · rfl

theorem backend_handleMount (hnext : (fs.dentry next).deleted = false) :
    (fs.handleMount o next).1.backend = fs.backend := by
  rw [handleMount]
  repeat' split
  · refine (backend_dentryPut ?_).trans rfl
    rw [same_dentryGet.deleted]
    exact hnext
  all_goals rfl

section Good

variable (h : Inv fs debt held) (hcurrent : fs.Good current)

include h hcurrent

theorem Inv.good_through : fs.Good (fs.through current) := by
  rw [Fs.through]
  split
  · cases hhere : (fs.dentry current).mountedHere with
    | none => exact hcurrent
    | some s =>
      obtain ⟨hs, hpoint⟩ := (h.shape.linked current hcurrent).mount s hhere
      obtain ⟨r, hm⟩ := h.shape.mountedAt hs hpoint
      rw [elim_some, hm.root]
      exact hm.rootGood
  · exact hcurrent

theorem Inv.good_goUp : fs.Good (fs.goUp current).2 := by
  have hgood := (h.goUp hcurrent).good _ rfl
  rcases goUp_cases fs current with hup | hup
  · rw [hup] at hgood
    exact good_dentryGet.mp hgood
  · rw [hup]
    exact hcurrent

theorem Inv.good_neighbour (hnext : fs.neighbour current name = some next) : fs.Good next := by
  rw [Fs.neighbour] at hnext
  split at hnext
  · cases hnext
    exact hcurrent
  split at hnext
  · cases hnext
    exact h.good_goUp hcurrent
  · exact ((h.shape.linked current hcurrent).children next (mem_of_find?_eq_some hnext)).1

theorem Inv.good_route (hroute : fs.route current path = some d) : fs.Good d := by
  induction path generalizing current with
  | nil =>
    cases hroute
    exact hcurrent
  | cons name rest ih =>
    obtain ⟨next, hnext, hrest⟩ := bind_eq_some_iff.mp hroute
    exact ih (h.good_through (h.good_neighbour hcurrent hnext)) hrest

end Good

/-! ## Routes in states with more dentries -/

section Extends

variable (hext : Extends fs fs') (h : Inv fs debt held) (hcurrent : fs.Good current)

include hext

section

variable (hd : d < fs.next)
include hd

theorem Extends.through : fs'.through d = fs.through d := by
  obtain ⟨new, hlink⟩ := hext.link d hd
  rw [Fs.through, Fs.through, hlink, hext.sb]

theorem Extends.parent : (fs'.dentry d).parent = (fs.dentry d).parent := by
  obtain ⟨new, hlink⟩ := hext.link d hd
  rw [hlink]

theorem Extends.name_eq : (fs'.dentry d).name = (fs.dentry d).name := by
  obtain ⟨new, hlink⟩ := hext.link d hd
  rw [hlink]

theorem Extends.inMnt : (fs'.dentry d).inMnt = (fs.dentry d).inMnt := by
  obtain ⟨new, hlink⟩ := hext.link d hd
  rw [hlink]

end

include h hcurrent

theorem Extends.goUp : (fs'.goUp current).2 = (fs.goUp current).2 := by
  have hlt := lt_of_good hcurrent
  unfold Fs.goUp
  rw [hext.inMnt hlt, hext.parent hlt, hext.sb]
  obtain ⟨s, hs, hmnt⟩ := hcurrent.2.2
  rw [hmnt]
  dsimp only
  split
  · -- the root of a mounted file system: the mount point is in the tree
    cases hpoint : (fs.sb s).mountpoint with
    | none => rfl
    | some m =>
      obtain ⟨r, hm⟩ := h.shape.mountedAt hs hpoint
      dsimp only
      rw [hext.parent (lt_of_good hm.mountpointGood)]
      cases (fs.dentry m).parent <;> rfl
  · cases (fs.dentry current).parent <;> rfl

/-- The list of children begins with the old children, under their names. -/
theorem Extends.childNamed (hnext : fs.childNamed current name = some next) :
    fs'.childNamed current name = some next := by
  have hname : ∀ c ∈ (fs.dentry current).children, (fs'.dentry c).name = (fs.dentry c).name :=
    fun c hc => hext.name_eq (lt_of_good ((h.shape.linked current hcurrent).children c hc).1)
  have hmem := mem_of_find?_eq_some hnext
  obtain ⟨new, hlink⟩ := hext.link current (lt_of_good hcurrent)
  rw [Fs.childNamed, find?_eq_some_iff_append] at hnext ⊢
  obtain ⟨hfound, before, behind, hlist, hnot⟩ := hnext
  refine ⟨?_, before, behind ++ new, ?_, ?_⟩
  · rw [hname next hmem]
    exact hfound
  · rw [hlink]
    simp [hlist]
  · intro c hc
    rw [hname c (by rw [hlist]; exact mem_append_left _ hc)]
    exact hnot c hc

theorem Extends.neighbour (hnext : fs.neighbour current name = some next) :
    fs'.neighbour current name = some next := by
  rw [Fs.neighbour] at hnext ⊢
  split
  · next hdot => rwa [if_pos hdot] at hnext
  · next hdot =>
    rw [if_neg hdot] at hnext
    split
    · next hup =>
      rw [if_pos hup] at hnext
      rw [hext.goUp h hcurrent]
      exact hnext
    · next hup =>
      rw [if_neg hup] at hnext
      exact hext.childNamed h hcurrent hnext

/-- The first step of a path whose route begins with it. -/
theorem Extends.route_cons (hnext : fs.neighbour current name = some next) (rest : List Name) :
    fs'.route current (name :: rest) = fs'.route (fs.through next) rest := by
  rw [Fs.route, hext.neighbour h hcurrent hnext, bind_some,
    hext.through (lt_of_good (h.good_neighbour hcurrent hnext))]

/-- A route stays what it is. -/
theorem Extends.route (hroute : fs.route current path = some d) :
    fs'.route current path = some d := by
  induction path generalizing current with
  | nil => exact hroute
  | cons name rest ih =>
    obtain ⟨next, hnext, hrest⟩ := bind_eq_some_iff.mp hroute
    rw [hext.route_cons h hcurrent hnext]
    exact ih (h.good_through (h.good_neighbour hcurrent hnext)) hrest

end Extends

/-- The same tree, whatever the counts are. -/
structure SameTree (fs fs' : Fs β) : Prop where
  link : ∀ d, (fs'.dentry d).toLink = (fs.dentry d).toLink
  sb : fs'.sb = fs.sb

theorem Same.tree (h : Same fs fs') : SameTree fs fs' := ⟨h.link, h.sb⟩

namespace SameTree

variable (h : SameTree fs fs')

include h

theorem goUp (current : Nat) : (fs'.goUp current).2 = (fs.goUp current).2 := by
  unfold Fs.goUp
  simp only [h.link, h.sb]
  repeat' split
  all_goals rfl

theorem childNamed (current : Nat) (name : Name) :
    fs'.childNamed current name = fs.childNamed current name := by
  rw [Fs.childNamed, Fs.childNamed, h.link current]
  simp only [h.link]

theorem neighbour (current : Nat) (name : Name) :
    fs'.neighbour current name = fs.neighbour current name := by
  rw [Fs.neighbour, Fs.neighbour, h.goUp, h.childNamed]

theorem through (d : Nat) : fs'.through d = fs.through d := by
  rw [Fs.through, Fs.through, h.link d, h.sb]

theorem route (current : Nat) (path : List Name) :
    fs'.route current path = fs.route current path := by
  induction path generalizing current with
  | nil => rfl
  | cons name rest ih => simp only [Fs.route, h.neighbour, h.through, ih]

end SameTree

/-! ## Lookups along a route -/

/-- The step to a dentry that is there changes only counts. -/
theorem goTo_cached (hnext : fs.neighbour current name = some next) :
    Same fs (fs.goTo o current name).1 ∧ (fs.goTo o current name).1.backend = fs.backend ∧
      (fs.goTo o current name).2 = some next := by
  rw [Fs.neighbour] at hnext
  rw [Fs.goTo]
  split
  · next hdot =>
    rw [if_pos hdot] at hnext
    exact ⟨same_dentryGet, rfl, hnext⟩
  · next hdot =>
    rw [if_neg hdot] at hnext
    split
    · next hup =>
      rw [if_pos hup] at hnext
      refine ⟨?_, ?_, hnext⟩
      · rcases goUp_cases fs current with hcase | hcase
        · rw [hcase]
          exact same_dentryGet
        · rw [hcase]
          exact .refl fs
      · rcases goUp_cases fs current with hcase | hcase
        · rw [hcase]
          rfl
        · rw [hcase]
    · next hup =>
      rw [if_neg hup] at hnext
      rw [hnext]
      exact ⟨same_dentryGet, rfl, rfl⟩

/-- The state of a walk, after any number of steps along a route. -/
structure OnRoute (fs fs' : Fs β) (debt : Debt) (held : Multiset Nat) (d : Nat) :
    Prop where
  same : Same fs fs'
  backend : fs'.backend = fs.backend
  inv : Inv fs' debt (d ::ₘ held)
  good : fs'.Good d

section

variable (h : Inv fs debt (current ::ₘ held)) (hcurrent : fs.Good current)
include h hcurrent

theorem Inv.walk_step
    (hnext : fs.neighbour current name = some next) : ∃ fs',
    OnRoute fs fs' debt held (fs.through next) ∧
      ∀ rest, fs.walk o current (name :: rest) = fs'.walk o (fs.through next) rest := by
  obtain ⟨hsame, hbackend, hresult⟩ := goTo_cached (o := o) hnext
  have hgo := h.goTo (o := o) hcurrent name
  have hwalk : ∀ rest, fs.walk o current (name :: rest) =
      ((((fs.goTo o current name).1.handleMount o next).1.dentryPut o current).walk o
        ((fs.goTo o current name).1.handleMount o next).2 rest) := by
    intro rest
    rw [Fs.walk]
    generalize fs.goTo o current name = r at hresult
    obtain ⟨fs₁, next'⟩ := r
    cases hresult
    rfl
  generalize fs.goTo o current name = r at hsame hbackend hresult hgo hwalk
  obtain ⟨fs₁, next'⟩ := r
  cases hresult
  have hgood := hgo.good next rfl
  obtain ⟨hmount, hsame₁, hgood₁, -⟩ := Inv.handleMount (o := o) hgo.inv hgood
  have hthrough : (fs₁.handleMount o next).2 = fs.through next := by
    rw [handleMount_snd, hsame.tree.through]
  rw [hthrough] at hmount hgood₁
  simp only [hthrough] at hwalk
  obtain ⟨hput, hsame₂, hgood₂⟩ := hmount.put_second (o := o) hgood₁
  refine ⟨_, ⟨(hsame.trans hsame₁).trans hsame₂, ?_, hput, hgood₂⟩, hwalk⟩
  rw [backend_dentryPut, backend_handleMount hgood.2.1, hbackend]
  rw [hsame₁.deleted, hsame.deleted]
  exact hcurrent.2.1

/-- A lookup along a route gets where the route leads. -/
theorem Inv.walk_cached
    (hroute : fs.route current path = some d) (rest : List Name) : ∃ fs',
    OnRoute fs fs' debt held d ∧ fs.walk o current (path ++ rest) = fs'.walk o d rest := by
  induction path generalizing fs current with
  | nil =>
    cases hroute
    exact ⟨fs, ⟨.refl fs, rfl, h, hcurrent⟩, rfl⟩
  | cons name path ih =>
    obtain ⟨next, hnext, hbehind⟩ := bind_eq_some_iff.mp hroute
    obtain ⟨fs₁, hon, hwalk⟩ := h.walk_step (o := o) hcurrent hnext
    rw [← hon.same.tree.route] at hbehind
    obtain ⟨fs', hon', hwalk'⟩ := ih hon.inv hon.good hbehind
    refine ⟨fs', ⟨hon.same.trans hon'.same, hon'.backend.trans hon.backend, hon'.inv,
      hon'.good⟩, ?_⟩
    rw [cons_append, hwalk, hwalk']

end

/-! ## Lookups that fail -/

/-- A lookup does not make names appear in other places. -/
def Backend.Steady (o : Backend β) : Prop :=
  ∀ b dir name dir' name', (o.lookup b dir name).2 = none →
    (o.lookup (o.lookup b dir' name').1 dir name).2 = none

/-- The path leads to a dentry that has no child of the next name, and its file system knows
none. -/
structure Stuck (o : Backend β) (fs : Fs β) (current : Nat) (path before : List Name) (d : Nat)
    (name : Name) (behind : List Name) : Prop where
  split : path = before ++ name :: behind
  route : fs.route current before = some d
  noChild : fs.neighbour d name = none
  noEntry : (o.lookup fs.backend (fs.inodeOf d).toAttr name).2 = none

theorem walk_none (hchild : fs.neighbour current name = none)
    (hentry : (o.lookup fs.backend (fs.inodeOf current).toAttr name).2 = none)
    (behind : List Name) : (fs.walk o current (name :: behind)).2 = none := by
  have hgo : fs.goTo o current name = fs.lookupNew o current name := by
    rw [Fs.neighbour] at hchild
    rw [Fs.goTo]
    split
    · next hdot => simp [hdot] at hchild
    · next hdot =>
      rw [if_neg hdot] at hchild
      split
      · next hup => simp [hup] at hchild
      · next hup =>
        rw [if_neg hup] at hchild
        rw [hchild]
  have hnone : (fs.lookupNew o current name).2 = none := by
    unfold lookupNew
    dsimp only
    change (o.lookup (fs.dentryCreate name none).backend _ _).2 = none at hentry
    generalize o.lookup (fs.dentryCreate name none).backend _ _ = r at hentry
    obtain ⟨b, found⟩ := r
    cases hentry
    rfl
  rw [Fs.walk, hgo]
  generalize fs.lookupNew o current name = r at hnone
  obtain ⟨fs₁, found⟩ := r
  cases hnone
  rfl

/-- A path that leads nowhere is not found. -/
theorem Inv.walk_stuck {before behind : List Name} (h : Inv fs debt (current ::ₘ held))
    (hcurrent : fs.Good current) (hstuck : Stuck o fs current path before d name behind) :
    (fs.walk o current path).2 = none := by
  obtain ⟨fs', hon, hwalk⟩ := h.walk_cached (o := o) hcurrent hstuck.route (name :: behind)
  rw [hstuck.split, hwalk]
  apply walk_none
  · rw [hon.same.tree.neighbour]
    exact hstuck.noChild
  · rw [hon.backend, hon.same.inodeOf]
    exact hstuck.noEntry

theorem Hung.childNamed {info : NewInode} (hhung : Hung fs fs' current name info)
    (h : Inv fs debt held) (hcurrent : fs.Good current)
    (hnone : fs.childNamed current name = none) :
    fs'.childNamed current name = some fs.next := by
  have hext := Extends.of_hung hhung
  rw [Fs.childNamed, find?_eq_none] at hnone
  rw [Fs.childNamed, hhung.parent, find?_append, find?_eq_none.mpr]
  · simp [hhung.new]
  · intro c hc
    rw [hext.name_eq (lt_of_good ((h.shape.linked current hcurrent).children c hc).1)]
    exact hnone c hc

theorem neighbour_eq_none (hnone : fs.neighbour current name = none) :
    name ≠ dot ∧ name ≠ dotdot ∧ fs.childNamed current name = none := by
  rw [Fs.neighbour] at hnone
  split at hnone
  · cases hnone
  · next hdot =>
    split at hnone
    · cases hnone
    · next hup => exact ⟨hdot, hup, hnone⟩

theorem neighbour_of_ne (hdot : name ≠ dot) (hup : name ≠ dotdot) :
    fs.neighbour current name = fs.childNamed current name := by
  rw [Fs.neighbour, if_neg hdot, if_neg hup]

/-- A dentry that is given up again is no child. -/
theorem Skipped.neighbour (hskip : Skipped fs fs') (h : Inv fs debt held)
    (hcurrent : fs.Good current) (hnone : fs.neighbour current name = none) :
    fs'.neighbour current name = none := by
  obtain ⟨hdot, hup, hchild⟩ := neighbour_eq_none hnone
  rw [neighbour_of_ne hdot hup, Fs.childNamed, hskip.other _ (ne_next_of_good hcurrent),
    find?_eq_none]
  intro c hc
  rw [hskip.other _ (ne_next_of_good ((h.shape.linked current hcurrent).children c hc).1)]
  exact find?_eq_none.mp hchild c hc

/-- One step of a lookup: afterwards there is a dentry to go to, or there is none and the file
system knows of none. -/
theorem Inv.goTo_route (h : Inv fs debt held) (hcurrent : fs.Good current) (name : Name) :
    Extends fs (fs.goTo o current name).1 ∧
      (∀ next, (fs.goTo o current name).2 = some next →
        (fs.goTo o current name).1.neighbour current name = some next) ∧
      ((fs.goTo o current name).2 = none →
        Skipped fs (fs.goTo o current name).1 ∧ fs.neighbour current name = none ∧
        ((fs.goTo o current name).1.backend, none) =
          o.lookup fs.backend (fs.inodeOf current).toAttr name) := by
  cases hnext : fs.neighbour current name with
  | some next =>
    obtain ⟨hsame, -, hresult⟩ := goTo_cached (o := o) hnext
    rw [hresult, hsame.tree.neighbour, hnext]
    exact ⟨.of_same hsame, fun _ hn => hn, fun hn => by cases hn⟩
  | none =>
    obtain ⟨hdot, hup, hchild⟩ := neighbour_eq_none hnext
    have hgo : fs.goTo o current name = fs.lookupNew o current name := by
      rw [Fs.goTo, if_neg hdot, if_neg hup, hchild]
    rw [hgo]
    rcases h.lookupNew_cases (o := o) hcurrent name with
      ⟨fs₁, info, hlookup, hhung⟩ | ⟨fs₁, hlookup, hskip, hentry⟩
    · rw [hlookup]
      refine ⟨.of_hung hhung, fun next hn => ?_, fun hn => by cases hn⟩
      cases hn
      rw [neighbour_of_ne hdot hup]
      exact hhung.childNamed h hcurrent hchild
    · rw [hlookup]
      exact ⟨.of_skipped hskip, fun _ hn => (by cases hn), fun _ => ⟨hskip, rfl, hentry⟩⟩

/-- After a lookup the path is a route to its result, or it leads nowhere. -/
structure Explored (o : Backend β) (fs : Fs β) (current : Nat) (path : List Name)
    (r : Fs β × Option Nat) : Prop where
  extend : Extends fs r.1
  found : ∀ d, r.2 = some d → r.1.route current path = some d
  stuck : r.2 = none → ∃ before d name behind, Stuck o r.1 current path before d name behind

theorem Inv.walk_route (hsteady : o.Steady) (path : List Name)
    (h : Inv fs debt (current ::ₘ held)) (hcurrent : fs.Good current) :
    Explored o fs current path (fs.walk o current path) := by
  induction path generalizing fs current with
  | nil =>
    refine ⟨.refl fs, fun d hd => hd, fun hd => by cases hd⟩
  | cons name rest ih =>
    have hgo := h.goTo (o := o) hcurrent name
    obtain ⟨hext, hsome, hnone⟩ := h.goTo_route (o := o) hcurrent name
    rw [Fs.walk]
    generalize fs.goTo o current name = r at hgo hext hsome hnone
    obtain ⟨fs₁, found⟩ := r
    cases found with
    | none =>
      obtain ⟨hskip, hchild, hentry⟩ := hnone rfl
      obtain ⟨-, hsame⟩ := Inv.dentryPut (o := o) (d := current) hgo.inv
      refine ⟨hext.trans (.of_same hsame), fun d hd => (by cases hd), fun _ => ?_⟩
      have hdel : (fs₁.dentry current).deleted = false := by
        rw [hskip.other _ (ne_next_of_good hcurrent)]
        exact hcurrent.2.1
      refine ⟨[], current, name, rest, rfl, rfl, ?_, ?_⟩
      · -- no list of children has changed
        rw [hsame.tree.neighbour]
        exact hskip.neighbour h hcurrent hchild
      · have hattr : (fs₁.inodeOf current).toAttr = (fs.inodeOf current).toAttr := by
          rw [inodeOf, inodeOf, hskip.other _ (ne_next_of_good hcurrent), hskip.inode]
        have hfails : (o.lookup fs.backend (fs.inodeOf current).toAttr name).2 = none := by
          rw [← hentry]
        have hagain := hsteady _ _ _ (fs.inodeOf current).toAttr name hfails
        rw [backend_dentryPut hdel, hsame.inodeOf, hattr]
        rw [← hentry] at hagain
        exact hagain
    | some next =>
      have hgood := hgo.good next rfl
      obtain ⟨hmount, hsame, hgood₁, -⟩ := Inv.handleMount (o := o) hgo.inv hgood
      obtain ⟨hput, hsame', hgood'⟩ := hmount.put_second (o := o) hgood₁
      have hrest := ih hput hgood'
      have hnext := hsome next rfl
      dsimp only at hext hnext hrest ⊢
      rw [handleMount_snd] at hrest ⊢
      generalize Fs.walk _ _ _ _ = r at hrest
      have hext₁ : Extends fs₁ r.1 := (Extends.of_same (hsame.trans hsame')).trans hrest.extend
      have hcurrent₁ : fs₁.Good current := hgo.frame.good hcurrent
        (hgo.inv.counted.held _ (Multiset.mem_cons_of_mem (Multiset.mem_cons_self _ _)))
      have hstep := fun rest => hext₁.route_cons hgo.inv hcurrent₁ hnext rest
      refine ⟨hext.trans hext₁, fun d hd => ?_, fun hd => ?_⟩
      · rw [hstep]
        exact hrest.found d hd
      · obtain ⟨before, d, name', behind, hstuck⟩ := hrest.stuck hd
        refine ⟨name :: before, d, name', behind, ?_, ?_, hstuck.noChild, hstuck.noEntry⟩
        · rw [hstuck.split, cons_append]
        · rw [hstep]
          exact hstuck.route

end Osx64.Vfs
