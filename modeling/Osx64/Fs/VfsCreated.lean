import Osx64.Fs.NamespaceRun
import Osx64.Fs.VfsRoute

/-!
# New files and directories are found

`sys_mkdir` and `vfs_open` look a new path up twice: the whole path, which must fail, and then
the directory that `split_path` gives.  Where `split_path` agrees with the components of the
path, the new dentry is hung where the path leads to, and the next lookup finds it.  A slash at
the end of the path becomes a part of the new name, and then no path leads there.
-/

namespace Osx64.Vfs

open List Multiset Prod Vfs.Fs

variable {β : Type} {o : Backend β} {fs fs' fs₁ fs₂ fs₃ : Fs β} {debt : Debt}
  {held : Multiset Nat} {d p cwd start mode flags : Nat} {name : Name} {dir path : Path}

/-! ## What is claimed -/

/-- The dentry has been made last, and so has its inode. -/
def Fs.Newest (fs : Fs β) (d : Nat) : Prop :=
  d + 1 = fs.next ∧ (fs.dentry d).inode = some (fs.nextInode - 1)

/-- After `sys_mkdir` the path leads to the new directory. -/
def MkdirFound (o : Backend β) (fs : Fs β) (cwd : Nat) (path : Path) (mode : Nat) : Prop :=
  ∀ fs', fs.sysMkdir o cwd path mode = (fs', true) →
    ∃ d, fs'.Newest d ∧ (fs'.lookupLocked o (some cwd) path).2 = some d

/-- After `vfs_open` has made a new file, because its first lookup failed, the path leads to
it. -/
def OpenFound (o : Backend β) (fs : Fs β) (cwd : Nat) (path : Path) (flags mode : Nat) : Prop :=
  ((fs.dentryGet (fs.startOf cwd path)).lookupLocked o (some (fs.startOf cwd path)) path).2 =
      none →
    ∀ fs' file, fs.vfsOpen o cwd path flags mode = (fs', some file) →
      ∃ d, file.dentry = some d ∧ fs'.Newest d ∧
        (fs'.lookupLocked o (some cwd) path).2 = some d

/-- `split_path` agrees with the resolution of paths, and what is made through it is found. -/
def PathAgrees (path : Path) : Prop :=
  SplitAgrees path ∧
    ∀ (β : Type) (o : Backend β) (fs : Fs β) (debt : Debt) (held : Multiset Nat)
      (cwd flags mode : Nat), o.Steady → Inv fs debt held → fs.Good cwd → cwd ∈ held →
      MkdirFound o fs cwd path mode ∧ OpenFound o fs cwd path flags mode

/-! ## The two lookups -/

variable {before behind : List Name} {info : NewInode} {held' : Multiset Nat} {file : Opened}

section Lookups

theorem lookupLocked_eq (hpath : path ≠ []) (cwd : Nat) :
    fs.lookupLocked o (some cwd) path =
      (fs.dentryGet (fs.startOf cwd path)).walk o (fs.startOf cwd path) (tokens path) := by
  cases path with
  | nil => exact absurd rfl hpath
  | cons c rest =>
    rw [lookupLocked, startOf]
    by_cases hc : c = slash <;> simp [hc]

/-- The start of a path is also the start of the path of its directory. -/
theorem startOf_dir (habs : dir.head? = some slash ↔ path.head? = some slash)
    (hroot : fs₁.root = fs.root) :
    fs₁.startOf (fs.startOf cwd path) dir = fs.startOf cwd path := by
  simp only [startOf, habs, hroot]
  split <;> rfl

/-- A lookup of a path finds where its route leads. -/
theorem Inv.lookup_of_route (h : Inv fs debt held) (hcwd : fs.Good cwd) (hpath : path ≠ [])
    (hroute : fs.route (fs.startOf cwd path) (tokens path) = some d) :
    (fs.lookupLocked o (some cwd) path).2 = some d := by
  have hget := h.arrives_dentryGet (h.startOf hcwd path)
  have hsame : Same fs (fs.dentryGet (fs.startOf cwd path)) := same_dentryGet
  rw [← hsame.tree.route] at hroute
  obtain ⟨fs', -, hwalk⟩ := Inv.walk_cached (o := o) hget.inv (hget.good _ rfl) hroute []
  rw [append_nil] at hwalk
  rw [lookupLocked_eq hpath, hwalk]
  rfl

/-- What is known when the new dentry is made: `p` is where the path of the directory leads to,
and has no child of the new name. -/
structure Vacant (fs fs₂ : Fs β) (start p : Nat) (dir : Path) (name : Name) : Prop where
  extend : Extends fs fs₂
  route : fs₂.route start (tokens dir) = some p
  noChild : fs₂.childNamed p name = none

/-- The first lookup leads nowhere, so if the second one finds a directory, it was the name that
was missing. -/
theorem Inv.vacant (hsteady : o.Steady) (h : Inv fs₁ debt (start ::ₘ held))
    (hstart : fs₁.Good start) (htokens : tokens path = tokens dir ++ [name]) {missing : Name}
    (hstuck : Stuck o fs₁ start (tokens path) before d missing behind)
    (hwalk : fs₁.walk o start (tokens dir) = (fs₂, some p)) :
    Vacant fs₁ fs₂ start p dir name := by
  have hexplored := h.walk_route hsteady (tokens dir) hstart
  rw [hwalk] at hexplored
  have hsplit := hstuck.split
  rw [htokens] at hsplit
  rcases eq_nil_or_concat' behind with rfl | ⟨behind, last, rfl⟩
  · -- the whole directory part is a route already
    obtain ⟨rfl, rfl⟩ : tokens dir = before ∧ name = missing := by
      simpa using append_inj' hsplit rfl
    have hend := hexplored.extend.route h hstart hstuck.route
    obtain rfl : d = p := Option.some.inj (hend.symm.trans (hexplored.found p rfl))
    obtain ⟨fs', hon, hwalk'⟩ := h.walk_cached (o := o) hstart hstuck.route []
    rw [append_nil, hwalk] at hwalk'
    obtain ⟨rfl, -⟩ := mk.inj hwalk'
    obtain ⟨-, -, hchild⟩ := neighbour_eq_none
      ((hon.same.tree.neighbour d name).trans hstuck.noChild)
    exact ⟨hexplored.extend, hexplored.found d rfl, hchild⟩
  · -- a component of the directory is missing
    have hsplit' : tokens dir = before ++ missing :: behind := by
      rw [← cons_append, ← append_assoc] at hsplit
      exact (append_inj' hsplit rfl).1
    have hnone := h.walk_stuck hstart
      ⟨hsplit', hstuck.route, hstuck.noChild, hstuck.noEntry⟩
    rw [hwalk] at hnone
    cases hnone

/-- The path of a dentry that has been hung where it was missing. -/
theorem Vacant.route_hung (hvacant : Vacant fs₁ fs₂ start p dir name)
    (h : Inv fs₂ debt held) (hstart : fs₂.Good start) (hdot : name ≠ dot) (hup : name ≠ dotdot)
    (htokens : tokens path = tokens dir ++ [name]) (hhung : Hung fs₂ fs₃ p name info) :
    fs₃.route start (tokens path) = some fs₂.next := by
  have hp := h.good_route hstart hvacant.route
  have hthrough : fs₃.through fs₂.next = fs₂.next := by
    rw [through, hhung.new]
    rfl
  rw [htokens, route_append, (Extends.of_hung hhung).route h hstart hvacant.route,
    Option.bind_some, Fs.route, neighbour_of_ne hdot hup,
    hhung.childNamed h hp hvacant.noChild, Option.bind_some, hthrough, Fs.route]

/-- The start of a path stays in the tree. -/
theorem Settled.good_startOf (h : Settled fs fs' debt held) (hcwd : fs.Good cwd)
    (hheld : cwd ∈ held) (path : Path) : fs'.Good (fs.startOf cwd path) := by
  rw [startOf]
  split
  · rw [← h.frame.root]
    exact h.inv.shape.rootGood
  · exact h.good hcwd hheld

theorem Stuck.same {tokens : List Name} (h : Stuck o fs start tokens before d name behind)
    (hsame : Same fs fs') (hbackend : fs'.backend = fs.backend) :
    Stuck o fs' start tokens before d name behind where
  split := h.split
  route := (hsame.tree.route _ _).trans h.route
  noChild := (hsame.tree.neighbour _ _).trans h.noChild
  noEntry := by
    rw [hbackend, hsame.inodeOf]
    exact h.noEntry

theorem Vacant.same (h : Vacant fs fs₂ start p dir name) (hsame : Same fs₂ fs₃) :
    Vacant fs fs₃ start p dir name where
  extend := h.extend.trans (.of_same hsame)
  route := (hsame.tree.route _ _).trans h.route
  noChild := (hsame.tree.childNamed _ _).trans h.noChild

/-- The state after a first lookup that failed. -/
theorem Inv.begin_stuck (hsteady : o.Steady) (h : Inv fs debt held) (hcwd : fs.Good cwd)
    (hpath : path ≠ []) (hlookup : (fs.dentryGet (fs.startOf cwd path)).lookupLocked o
      (some (fs.startOf cwd path)) path = (fs₁, none)) :
    ∃ before d missing behind,
      Stuck o fs₁ (fs.startOf cwd path) (tokens path) before d missing behind := by
  have hstart := h.startOf hcwd path
  have hget := h.arrives_dentryGet hstart
  have hagain := hget.inv.arrives_dentryGet (hget.good _ rfl)
  have hsame : (fs.dentryGet (fs.startOf cwd path)).startOf (fs.startOf cwd path) path =
      fs.startOf cwd path := startOf_dir Iff.rfl rfl
  rw [lookupLocked_eq hpath, hsame] at hlookup
  have hexplored := hagain.inv.walk_route hsteady (tokens path) (hagain.good _ rfl)
  rw [hlookup] at hexplored
  exact hexplored.stuck rfl

/-- The lookup of the directory, whose path may be empty. -/
theorem lookupDir_eq (habs : dir.head? = some slash ↔ path.head? = some slash)
    (hroot : fs₁.root = fs.root) :
    fs₁.lookupDir o (fs.startOf cwd path) dir =
      (fs₁.dentryGet (fs.startOf cwd path)).walk o (fs.startOf cwd path) (tokens dir) := by
  rw [lookupDir]
  split
  · next hdir =>
    rw [hdir]
    rfl
  · next hdir => rw [lookupLocked_eq hdir, startOf_dir habs hroot]

/-- A new dentry that the route leads to is found. -/
theorem Hung.newest_found {f : Nat → Int}
    (hhung : Hung fs₂ fs₃ p name info) (hinv : Inv fs' debt held') (hcwd : fs'.Good cwd)
    (hroot : fs'.root = fs.root) (hpath : path ≠ []) (hsame : Same fs₃ { fs' with fsRef := f })
    (hroute : fs₃.route (fs.startOf cwd path) (tokens path) = some fs₂.next) :
    fs'.Newest fs₂.next ∧ (fs'.lookupLocked o (some cwd) path).2 = some fs₂.next := by
  have hstart : fs'.startOf cwd path = fs.startOf cwd path := by
    rw [startOf, startOf, hroot]
  have hlink : (fs'.dentry fs₂.next).toLink = (fs₃.dentry fs₂.next).toLink := hsame.link _
  have hnext : fs'.next = fs₃.next := hsame.next
  have hnextInode : fs'.nextInode = fs₃.nextInode := hsame.nextInode
  refine ⟨⟨?_, ?_⟩, hinv.lookup_of_route hcwd hpath ?_⟩
  · rw [hnext, hhung.next]
  · rw [hlink, hhung.new, hnextInode, hhung.nextInode]
    rfl
  · rw [hstart]
    have htree : SameTree fs₃ fs' := ⟨hsame.link, hsame.sb⟩
    exact (htree.route _ _).trans hroute

/-- A file that is opened is on the dentry it was opened through. -/
theorem openFound_some (hrun : fs.openFound o d = (fs', some file)) :
    file.dentry = some d ∧ Same fs { fs' with fsRef := fs.fsRef } := by
  unfold openFound at hrun
  split at hrun
  · cases (mk.inj hrun).2
  · next b hopen =>
    obtain ⟨rfl, hfile⟩ := mk.inj hrun
    cases hfile
    refine ⟨rfl, ?_⟩
    rw [sbGet_eq]
    cases (fs.dentry d).inode with
    | none => exact ⟨fun _ => rfl, fun _ => rfl, rfl, rfl, rfl, rfl, rfl, rfl, rfl, rfl⟩
    | some i =>
      have hget : Same fs (fs.modifyInode i fun x => { x with refcount := x.refcount + 1 }) :=
        same_modifyInode rfl
      exact ⟨hget.link, hget.attr, rfl, rfl, rfl, rfl, rfl, rfl, rfl, rfl⟩

theorem openCreate_some (hp : p ≠ fs.next)
    (hrun : fs.openCreate o p name mode = (fs', some file)) : name ≠ dot ∧ name ≠ dotdot ∧
    ∃ fs₃ info, Hung fs fs₃ p name info ∧
      (fs₃.dentryPut o p).openFound o fs.next = (fs', some file) := by
  unfold openCreate at hrun
  split at hrun
  · cases (mk.inj hrun).2
  split at hrun
  · cases (mk.inj hrun).2
  next hname =>
  rw [not_or] at hname
  dsimp only at hrun
  split at hrun
  · cases (mk.inj hrun).2
  · next b new hcreate => exact ⟨hname.1, hname.2, _, new, hung_create name hp b new, hrun⟩

/-- The file that `vfs_open` makes in the directory it has found. -/
theorem openCreate_found (hpath : path ≠ [])
    (htokens : tokens path = tokens dir ++ [name]) (hinv' : Inv fs' debt held')
    (hcwd : fs'.Good cwd) (hroot : fs'.root = fs.root) (hinv : Inv fs₂ debt (p ::ₘ held))
    (hp : fs₂.Good p) (hstart : fs₂.Good (fs.startOf cwd path))
    (hvacant : Vacant fs₁ fs₂ (fs.startOf cwd path) p dir name)
    (hrun : fs₂.openCreate o p name mode = (fs', some file)) :
    ∃ d, file.dentry = some d ∧ fs'.Newest d ∧
      (fs'.lookupLocked o (some cwd) path).2 = some d := by
  obtain ⟨hdot, hup, fs₃, info, hhung, hopen⟩ := openCreate_some (ne_next_of_good hp) hrun
  have hroute := hvacant.route_hung hinv hstart hdot hup htokens hhung
  have hhang := hinv.hang hp hhung
  obtain ⟨-, hsame, -⟩ := Inv.put_second (o := o) hhang.inv (hhang.good _ rfl)
  obtain ⟨hfile, hsame'⟩ := openFound_some hopen
  exact ⟨fs₂.next, hfile, hhung.newest_found hinv' hcwd hroot hpath (hsame.trans hsame') hroute⟩

end Lookups

/-! ## The calls -/

section Calls

variable (hsteady : o.Steady) (h : Inv fs debt held) (hcwd : fs.Good cwd) (hheld : cwd ∈ held)

include hsteady h hcwd hheld

theorem Inv.mkdirFound (hsplit : SplitAgrees path) (mode : Nat) :
    MkdirFound o fs cwd path mode := by
  intro fs' hrun
  obtain ⟨dir, name, hsplit, hslash, htokens, habs⟩ := hsplit
  have hpath : path ≠ [] := by
    rintro rfl
    cases hsplit
  have hend := h.sysMkdir (o := o) hcwd path mode
  rw [hrun] at hend
  rw [Fs.sysMkdir, if_neg hpath] at hrun
  dsimp only at hrun
  cases hlookup : (fs.dentryGet (fs.startOf cwd path)).lookupLocked o
      (some (fs.startOf cwd path)) path with
  | mk fs₁ found =>
    obtain ⟨hsettled, hstart, -⟩ := h.begin hcwd path _ hlookup
    rw [hlookup] at hrun
    cases found with
    | some d => cases (mk.inj hrun).2
    | none =>
      obtain ⟨before, d, missing, behind, hstuck⟩ := h.begin_stuck hsteady hcwd hpath hlookup
      simp only [hsplit] at hrun
      split at hrun
      · cases (mk.inj hrun).2
      next hname =>
      rw [not_or] at hname
      have hget := hsettled.inv.arrives_dentryGet hstart
      have harrives := hsettled.inv.lookupDir (o := o) hstart dir
      have hdir : fs₁.lookupDir o (fs.startOf cwd path) dir = _ :=
        lookupDir_eq habs hsettled.frame.root
      cases hfound : fs₁.lookupDir o (fs.startOf cwd path) dir with
      | mk fs₂ parent =>
        rw [hfound] at hrun harrives hdir
        cases parent with
        | none => cases (mk.inj hrun).2
        | some p =>
          have hvacant := hget.inv.vacant hsteady (hget.good _ rfl) htokens
            (hstuck.same same_dentryGet rfl) hdir.symm
          have hsettled₂ := hsettled.arrives harrives
          have hp := harrives.good p rfl
          dsimp only at hrun hsettled₂ hp
          split at hrun
          · cases (mk.inj hrun).2
          split at hrun
          · cases (mk.inj hrun).2
          next b new hmkdir =>
          have hhung := hung_mkdir name (ne_next_of_good hp) b new
          have hsettled₃ := hsettled₂.arrives (hsettled₂.inv.hang hp hhung)
          have hstart₂ : fs₂.Good (fs.startOf cwd path) := hsettled₂.good (h.startOf hcwd path)
            (mem_cons_of_mem (mem_cons_self _ _))
          have hroute := hvacant.route_hung hsettled₂.inv hstart₂ hname.1 hname.2 htokens hhung
          obtain ⟨rfl, -⟩ := mk.inj hrun
          obtain ⟨hinv₁, hsame₁⟩ := Inv.dentryPut (o := o) hsettled₃.inv
          obtain ⟨hinv₂, hsame₂⟩ := hinv₁.dentryPut (o := o)
          obtain ⟨hinv₃, hsame₃⟩ := hinv₂.dentryPut (o := o)
          exact ⟨fs₂.next, hhung.newest_found hend.inv (hend.good hcwd hheld) hend.frame.root
            hpath ((hsame₁.trans hsame₂).trans hsame₃) hroute⟩

theorem Inv.openFound (hsplit : SplitAgrees path) (flags mode : Nat) :
    OpenFound o fs cwd path flags mode := by
  intro hfirst fs' file hrun
  obtain ⟨dir, name, hsplit, hslash, htokens, habs⟩ := hsplit
  have hpath : path ≠ [] := by
    rintro rfl
    cases hsplit
  have hend := h.vfsOpen (o := o) hcwd path flags mode
  rw [hrun] at hend
  cases hend with
  | @opened _ e i hmoved hgood =>
    have hcwd' : fs'.Good cwd := hmoved.settled.good hcwd (mem_cons_of_mem hheld)
    have hroot : fs'.root = fs.root := hmoved.settled.frame.root
    rw [Fs.vfsOpen, if_neg hpath] at hrun
    dsimp only at hrun
    cases hlookup : (fs.dentryGet (fs.startOf cwd path)).lookupLocked o
        (some (fs.startOf cwd path)) path with
    | mk fs₁ found =>
      rw [hlookup] at hfirst hrun
      cases hfirst
      obtain ⟨hsettled, hstart, -⟩ := h.begin hcwd path _ hlookup
      obtain ⟨before, d, missing, behind, hstuck⟩ := h.begin_stuck hsteady hcwd hpath hlookup
      dsimp only at hrun hsettled hstart
      split at hrun
      · cases (mk.inj hrun).2
      simp only [hsplit] at hrun
      split at hrun
      · next hdir =>
        subst hdir
        -- the start is the directory
        have hvacant := hsettled.inv.vacant hsteady hstart htokens hstuck rfl
        exact openCreate_found hpath htokens hmoved.inv hcwd' hroot hsettled.inv hstart hstart
          hvacant hrun
      next hdir =>
      have harrives := (hsettled.inv.lookupLocked (o := o) (some (fs.startOf cwd path))
        (fun d hd => by cases hd; exact hstart) dir).1
      have hget := hsettled.inv.arrives_dentryGet hstart
      have hwalk : fs₁.lookupLocked o (some (fs.startOf cwd path)) dir = _ :=
        lookupLocked_eq hdir _
      rw [startOf_dir habs hsettled.frame.root] at hwalk
      cases hfound : fs₁.lookupLocked o (some (fs.startOf cwd path)) dir with
      | mk fs₂ parent =>
        rw [hfound] at hrun harrives hwalk
        cases parent with
        | none => cases (mk.inj hrun).2
        | some p =>
          have hvacant := hget.inv.vacant hsteady (hget.good _ rfl) htokens
            (hstuck.same same_dentryGet rfl) hwalk.symm
          have hsettled₂ := hsettled.arrives harrives
          obtain ⟨hput, hsame, hp⟩ := Inv.put_second (o := o) hsettled₂.inv (harrives.good p rfl)
          have hsettled₃ : Settled fs _ debt (p ::ₘ held) :=
            ⟨hsettled₂.frame.trans (.of_same hsame), hput⟩
          have hstart₃ := hsettled₃.good_startOf hcwd (mem_cons_of_mem hheld) path
          exact openCreate_found hpath htokens hmoved.inv hcwd' hroot hput hp hstart₃
            (hvacant.same hsame) hrun

end Calls

/-! ## Which paths agree -/

/-- `split_path` and the resolution of paths agree on a path with a component exactly if it does
not end in a slash. -/
theorem pathAgrees_iff (htokens : tokens path ≠ []) :
    PathAgrees path ↔ path.getLast? ≠ some slash := by
  constructor
  · intro h
    exact (splitAgrees_iff htokens).mp h.1
  · intro hlast
    have hsplit := (splitAgrees_iff htokens).mpr hlast
    refine ⟨hsplit, ?_⟩
    intro β o fs debt held cwd flags mode hsteady hinv hcwd hheld
    exact ⟨hinv.mkdirFound hsteady hcwd hheld hsplit mode,
      hinv.openFound hsteady hcwd hheld hsplit flags mode⟩

/-- `"//dev//a"` -/
theorem pathAgrees_iff_dev : PathAgrees [47, 47, 100, 101, 118, 47, 47, 97] :=
  (pathAgrees_iff (by decide)).mpr (by decide)

/-- A directory that has been made and is not found. -/
theorem not_mkdirFound (hmade : (fs.sysMkdir o cwd path mode).2 = true)
    (hlost : ((fs.sysMkdir o cwd path mode).1.lookupLocked o (some cwd) path).2 = none) :
    ¬ MkdirFound o fs cwd path mode := by
  intro h
  obtain ⟨d, -, hfound⟩ := h _ (Prod.ext rfl hmade)
  rw [hlost] at hfound
  cases hfound

/-- A file system that keeps a list of names for each directory, and numbers what it makes. -/
def listOps : Backend (List (Nat × Name)) where
  readRootInode b _ _ := (b, none)
  putSuper b _ _ := b
  lookup b dir name := (b, (b.idxOf? (dir.priv, name)).map fun k => ⟨0o040755, k + 1, 1, 1⟩)
  create b _ _ _ := (b, none)
  mkdir b dir name mode :=
    if (dir.priv, name) ∈ b then (b, none)
    else (b ++ [(dir.priv, name)], some ⟨0o040000 ||| mode, b.length + 1, 1, 1⟩)
  unlink b _ _ _ := (b, false)
  rmdir b _ _ _ := (b, false)
  rename b _ _ _ _ _ := (b, false)
  setattr b _ _ := (b, false)
  delete b _ := b
  openFile b _ := (b, true)
  releaseFile b _ := b

theorem listOps_steady : listOps.Steady := fun _ _ _ _ _ h => h

/-- A machine with one task and an empty root directory. -/
def listTask : Machine (List (Nat × Name)) := ⟨[], 0, 0, fun _ => (false, 0), {0}⟩

/-- `mkdir("/a/")` makes a directory of the name `"a/"`, and `"/a/"` is still not found. -/
theorem not_pathAgrees_of_slash :
    splitPath [47, 97, 47] = some ([47], [97, 47]) ∧ listOps.Steady ∧
    Inv (bootFs listTask) ∅ (booted listTask).held ∧ (bootFs listTask).Good 0 ∧
    ¬ MkdirFound listOps (bootFs listTask) 0 [47, 97, 47] 0o755 ∧ ¬ PathAgrees [47, 97, 47] := by
  refine ⟨by decide, listOps_steady, (sysInv_booted listTask).inv,
    (good_boot listTask 0).mpr (.inl rfl),
    not_mkdirFound (by decide +kernel) (by decide +kernel), fun h => ?_⟩
  exact (splitAgrees_iff (by decide)).mp h.1 (by decide)

end Osx64.Vfs
