import Mathlib.Data.List.Nodup
import Osx64.Lib.Run

/-!
# Reclaiming dentries

A dentry whose last reference is gone goes to the cache list, and stays there when somebody finds
it again.  The kernel task `dentry_cache_task` takes dentries off the list when there are more than
`DENTRY_CACHE_SIZE` of them, and frees those without references.  Unlinking and unmounting call
`dentry_delete`, which takes a dentry off the list and lets the last `dentry_put` free it.

Each atomic operation and each section under the lock of the list or of the parent directory is a
step here.  A reference belongs to whoever can put it: a lookup, a file, a current directory, a
mounted file system, a child that points to its parent.  How many calls are inside `dentry_put` or
`dentry_delete` for a dentry, and how far they are, is counted for each dentry.
-/

namespace Osx64.DentryCache

open Function List Relation Option Nat

/-- `DENTRY_CACHE_SIZE` -/
def dentryCacheSize : Nat := 1024

/-- A dentry, and the calls that are about to do something with it. -/
structure Dentry where
  allocated : Bool
  /-- how often it has been freed -/
  frees : Nat
  refcount : Nat
  deleted : Bool
  inCacheList : Bool
  /-- on the list of children of its parent -/
  linked : Bool
  /-- calls of `dentry_put` that have taken the count to zero -/
  dropped : Nat
  /-- calls of `dentry_put` that have seen that it is not deleted and go for `in_cache_list` -/
  caching : Nat
  /-- calls of `dentry_put` that have set `in_cache_list` and go for the lock -/
  flagged : Nat
  /-- calls of `dentry_delete` that go for the lock; each has a reference -/
  deleting : Nat
  /-- calls of `dentry_put` that go for `dentry_free` -/
  dying : Nat

/-- What `dentry_cache_task` does. -/
inductive Reclaimer where
  | idle
  /-- it has taken a dentry off the list -/
  | holds (d : Nat)
  /-- it has found the count zero, taken the dentry off its parent's list and lowered the number of
  cached dentries -/
  | reclaims (d : Nat)
deriving DecidableEq

def Reclaimer.dentry : Reclaimer → Option Nat
  | .idle => none
  | .holds d | .reclaims d => some d

/-- How many dentries the number of cached ones counts for the task. -/
def Reclaimer.count : Reclaimer → Nat
  | .holds _ => 1
  | .idle | .reclaims _ => 0

structure State where
  dentry : Nat → Dentry
  /-- `vfs_mgr.dentry_cache_list` -/
  cacheList : List Nat
  /-- `vfs_mgr.dentry_cache_num` -/
  cacheNum : Int
  task : Reclaimer

namespace State

variable (st : State)

def setDentry (d : Nat) (x : Dentry) : State :=
  { st with dentry := Function.update st.dentry d x }

/-- `dentry_create` -/
def create (d : Nat) : State :=
  st.setDentry d ⟨true, (st.dentry d).frees, 1, false, false, false, 0, 0, 0, 0, 0⟩

/-- `atomic_dec_and_test` of `dentry_put` -/
def put (d : Nat) : State :=
  let x := st.dentry d
  st.setDentry d { x with
    refcount := x.refcount - 1
    dropped := if x.refcount = 1 then x.dropped + 1 else x.dropped }

/-- `dentry_put` after that: `deleted` is looked at. -/
def look (d : Nat) : State :=
  let x := st.dentry d
  let x := { x with dropped := x.dropped - 1 }
  st.setDentry d <|
    if x.deleted then { x with dying := x.dying + 1 } else { x with caching := x.caching + 1 }

/-- `atomic_test_and_set_bit(0, &dentry->in_cache_list)` of `dentry_put` -/
def flag (d : Nat) : State :=
  let x := st.dentry d
  let x := { x with caching := x.caching - 1 }
  st.setDentry d <|
    if x.inCacheList then x else { x with inCacheList := true, flagged := x.flagged + 1 }

/-- The section of `dentry_put` with the lock of the list. -/
def insert (d : Nat) : State :=
  let x := st.dentry d
  let x := { x with flagged := x.flagged - 1 }
  if x.refcount = 0 then
    { st.setDentry d x with cacheList := st.cacheList ++ [d], cacheNum := st.cacheNum + 1 }
  else st.setDentry d { x with inCacheList := false }

/-- `dentry_free` in `dentry_put` -/
def free (d : Nat) : State :=
  let x := st.dentry d
  st.setDentry d { x with dying := x.dying - 1, allocated := false, frees := x.frees + 1 }

/-- `dentry->deleted = true` in `dentry_delete` -/
def markDeleted (d : Nat) : State :=
  let x := st.dentry d
  st.setDentry d { x with deleted := true, deleting := x.deleting + 1 }

/-- The section of `dentry_delete` with the lock of the list; `dentry_put` follows. -/
def delist (d : Nat) : State :=
  let x := st.dentry d
  let st := st.setDentry d { x with deleting := x.deleting - 1 }
  if x.inCacheList then { st with cacheList := st.cacheList.erase d, cacheNum := st.cacheNum - 1 }
  else st

/-- `dentry_cache_task` takes the first dentry of the list. -/
def take (d : Nat) : State := { st with cacheList := st.cacheList.tail, task := .holds d }

/-- `dentry_cache_task` finds the count zero, with the lock of the parent directory. -/
def reclaim (d : Nat) : State :=
  { st.setDentry d { st.dentry d with linked := false } with
    cacheNum := st.cacheNum - 1, task := .reclaims d }

/-- `dentry_cache_task` puts the dentry back. -/
def putBack (d : Nat) : State := { st with cacheList := st.cacheList ++ [d], task := .idle }

/-- `dentry_free` in `dentry_cache_task` -/
def finish (d : Nat) : State :=
  let x := st.dentry d
  { st.setDentry d { x with allocated := false, frees := x.frees + 1 } with task := .idle }

end State

/-! ## Steps -/

inductive Event where
  | create (d : Nat)
  /-- the dentry is put on the list of its parent -/
  | link (d : Nat)
  | get (d : Nat)
  | put (d : Nat)
  | look (d : Nat)
  | flag (d : Nat)
  | insert (d : Nat)
  | free (d : Nat)
  /-- `sys_unlink` and `sys_rmdir` take the dentry off the list of its parent -/
  | unlink (d : Nat)
  | markDeleted (d : Nat)
  | delist (d : Nat)
  | take (d : Nat)
  | reclaim (d : Nat)
  | putBack (d : Nat)
  | finish (d : Nat)

/-- A lookup finds a dentry on the list of its parent, with the lock that `reclaim` needs; other
references are taken by those who have one.  A dentry is deleted only once, since it is taken off
its parent's list or its file system is detached before. -/
def Event.Possible (st : State) : Event → Prop
  | .create d => (st.dentry d).allocated = false ∧ (st.dentry d).frees = 0
  | .link d | .unlink d => (st.dentry d).deleting < (st.dentry d).refcount
  | .get d => (st.dentry d).allocated = true ∧
      ((st.dentry d).linked = true ∧ (st.dentry d).deleted = false ∨ 0 < (st.dentry d).refcount)
  | .put d => (st.dentry d).deleting < (st.dentry d).refcount
  | .look d => 0 < (st.dentry d).dropped
  | .flag d => 0 < (st.dentry d).caching
  | .insert d => 0 < (st.dentry d).flagged
  | .free d => 0 < (st.dentry d).dying
  | .markDeleted d =>
    (st.dentry d).deleting < (st.dentry d).refcount ∧ (st.dentry d).deleted = false
  | .delist d => 0 < (st.dentry d).deleting
  | .take d => st.task = .idle ∧ (dentryCacheSize : Int) < st.cacheNum ∧ st.cacheList.head? = some d
  | .reclaim d => st.task = .holds d ∧ (st.dentry d).refcount = 0
  | .putBack d => st.task = .holds d ∧ (st.dentry d).refcount ≠ 0
  | .finish d => st.task = .reclaims d

def State.exec (st : State) : Event → State
  | .create d => st.create d
  | .link d => st.setDentry d { st.dentry d with linked := true }
  | .get d => st.setDentry d { st.dentry d with refcount := (st.dentry d).refcount + 1 }
  | .put d => st.put d
  | .look d => st.look d
  | .flag d => st.flag d
  | .insert d => st.insert d
  | .free d => st.free d
  | .unlink d => st.setDentry d { st.dentry d with linked := false }
  | .markDeleted d => st.markDeleted d
  | .delist d => st.delist d
  | .take d => st.take d
  | .reclaim d => st.reclaim d
  | .putBack d => st.putBack d
  | .finish d => st.finish d

def Step (st st' : State) : Prop := ∃ e : Event, e.Possible st ∧ st.exec e = st'

/-- A dentry is not deleted while a `dentry_put` that has dropped its last reference is still on
the way, nor while the task has it, and the task does not free it while such a `dentry_put` is on
the way. -/
def Event.Safe (st : State) : Event → Prop
  | .markDeleted d =>
    (st.dentry d).dropped = 0 ∧ (st.dentry d).caching = 0 ∧ (st.dentry d).flagged = 0
  | .delist d => st.task.dentry ≠ some d
  | .reclaim d => (st.dentry d).dropped = 0 ∧ (st.dentry d).caching = 0
  | _ => True

def SafeStep (st st' : State) : Prop :=
  ∃ e : Event, (e.Possible st ∧ e.Safe st) ∧ st.exec e = st'

/-- No dentry has been made. -/
def State.initial : State where
  dentry := fun _ => ⟨false, 0, 0, false, false, false, 0, 0, 0, 0, 0⟩
  cacheList := []
  cacheNum := 0
  task := .idle

/-! ## The invariant of one dentry -/

/-- Where a dentry is. -/
inductive Spot where
  | away
  | listed
  | held
  | reclaimed
deriving DecidableEq

/-- What holds for a dentry in each place. -/
structure Dentry.Ok (x : Dentry) (spot : Spot) : Prop where
  here : spot ≠ .away → x.allocated = true ∧ x.inCacheList = true ∧ x.flagged = 0 ∧
    (x.deleted = true → 0 < x.deleting)
  reclaimed : spot = .reclaimed →
    x.refcount = 0 ∧ x.dropped = 0 ∧ x.caching = 0 ∧ x.linked = false
  home : x.allocated = true → x.inCacheList = true → spot ≠ .away ∨ 0 < x.flagged ∨
    x.deleted = true ∧ x.deleting = 0
  used : 0 < x.refcount + x.dropped + x.caching + x.flagged + x.dying → x.allocated = true
  flagged : 0 < x.flagged → x.flagged = 1 ∧ x.inCacheList = true ∧ x.deleted = false
  deleting : x.deleting ≤ x.refcount ∧ x.deleting ≤ 1 ∧ (0 < x.deleting → x.deleted = true)
  gone : x.deleted = true → x.dropped + x.dying ≤ 1 ∧ x.caching = 0 ∧
    (0 < x.dropped + x.dying → x.refcount = 0)
  dying : 0 < x.dying → x.deleted = true
  frees : x.frees ≤ 1 ∧ (x.allocated = true → x.frees = 0)

section Local

variable {x : Dentry} {spot : Spot}

attribute [local grind cases] Dentry.Ok

section

variable (h : x.Ok spot)
include h

theorem Dentry.Ok.create (hnot : x.allocated = false) (hfrees : x.frees = 0) :
    Dentry.Ok ⟨true, x.frees, 1, false, false, false, 0, 0, 0, 0, 0⟩ spot := by
  have haway : spot = .away := by
    by_contra hspot
    rw [(h.here hspot).1] at hnot
    cases hnot
  constructor <;> simp_all

theorem Dentry.Ok.setLinked (href : x.deleting < x.refcount) (linked : Bool) :
    Dentry.Ok { x with linked := linked } spot := by
  refine { h with reclaimed := fun hspot => ?_ }
  have hzero := (h.reclaimed hspot).1
  omega

theorem Dentry.Ok.get (halloc : x.allocated = true)
    (hget : x.linked = true ∧ x.deleted = false ∨ 0 < x.refcount) :
    Dentry.Ok { x with refcount := x.refcount + 1 } spot := by
  refine { h with reclaimed := ?_, used := fun _ => halloc, deleting := ?_, gone := ?_ } <;>
    dsimp only <;> grind

theorem Dentry.Ok.put (hput : x.deleting < x.refcount) :
    Dentry.Ok { x with
      refcount := x.refcount - 1
      dropped := if x.refcount = 1 then x.dropped + 1 else x.dropped } spot := by
  refine { h with reclaimed := ?_, used := ?_, deleting := ?_, gone := ?_ } <;> dsimp only <;> grind

/-- The last `dentry_put` of a deleted dentry is the only one. -/
theorem Dentry.Ok.lookDeleted (hdrop : 0 < x.dropped) (hdeleted : x.deleted = true) :
    Dentry.Ok { x with dropped := x.dropped - 1, dying := x.dying + 1 } spot := by
  refine { h with reclaimed := ?_, used := ?_, gone := ?_, dying := fun _ => hdeleted } <;>
    dsimp only <;> grind

theorem Dentry.Ok.lookCaching (hdrop : 0 < x.dropped) (hdeleted : x.deleted = false) :
    Dentry.Ok { x with dropped := x.dropped - 1, caching := x.caching + 1 } spot := by
  refine { h with reclaimed := ?_, used := ?_, gone := ?_ } <;> dsimp only <;> grind

theorem Dentry.Ok.flagCached (hcaching : 0 < x.caching) :
    Dentry.Ok { x with caching := x.caching - 1 } spot := by
  refine { h with reclaimed := ?_, used := ?_, gone := ?_ } <;> dsimp only <;> grind

/-- Nobody else is going to put the dentry on the list. -/
theorem Dentry.Ok.flagNew (hcaching : 0 < x.caching) (hnot : x.inCacheList = false) :
    Dentry.Ok { x with
      caching := x.caching - 1, inCacheList := true, flagged := x.flagged + 1 } spot := by
  refine { h with here := ?_, reclaimed := ?_, home := ?_, used := ?_, flagged := ?_, gone := ?_ }
    <;> dsimp only <;> grind

theorem Dentry.Ok.away_of_flagged (hflagged : 0 < x.flagged) : spot = .away := by
  by_contra hspot
  have hzero := (h.here hspot).2.2.1
  omega

end

theorem Dentry.Ok.insert (h : x.Ok .away) (hflagged : 0 < x.flagged) :
    Dentry.Ok { x with flagged := x.flagged - 1 } .listed := by
  refine { h with here := ?_, reclaimed := nofun, home := ?_, used := ?_, flagged := ?_ } <;>
    dsimp only <;> grind

theorem Dentry.Ok.insertNot (h : x.Ok spot) (hflagged : 0 < x.flagged) :
    Dentry.Ok { x with flagged := x.flagged - 1, inCacheList := false } spot := by
  refine { h with here := ?_, home := ?_, used := ?_, flagged := ?_ } <;> dsimp only <;> grind

theorem Dentry.Ok.away_of_dying (h : x.Ok spot) (hdying : 0 < x.dying) : spot = .away := by
  by_contra hspot
  have hdeleting := (h.here hspot).2.2.2 (h.dying hdying)
  have hle := h.deleting.1
  have hzero := (h.gone (h.dying hdying)).2.2 (by omega)
  omega

theorem Dentry.Ok.free (h : x.Ok .away) (hfree : 0 < x.dying) :
    Dentry.Ok { x with dying := x.dying - 1, allocated := false, frees := x.frees + 1 } .away := by
  refine ⟨nofun, nofun, nofun, ?_, h.flagged, h.deleting, ?_, ?_, ?_⟩ <;> dsimp only <;> grind

/-- No `dentry_put` is on the way that has not seen the flag. -/
theorem Dentry.Ok.markDeleted (h : x.Ok spot) (href : x.deleting < x.refcount)
    (hnot : x.deleted = false) (hdropped : x.dropped = 0) (hcaching : x.caching = 0)
    (hflagged : x.flagged = 0) :
    Dentry.Ok { x with deleted := true, deleting := x.deleting + 1 } spot := by
  refine { h with here := ?_, home := ?_, flagged := ?_, deleting := ?_, gone := ?_, dying := ?_ }
    <;> dsimp only <;> grind

/-- A deleted dentry leaves the list. -/
theorem Dentry.Ok.delist (h : x.Ok spot) (hdeleting : 0 < x.deleting) :
    Dentry.Ok { x with deleting := x.deleting - 1 } .away := by
  refine { h with here := nofun, reclaimed := nofun, home := ?_, deleting := ?_ } <;>
    dsimp only <;> grind

theorem Dentry.Ok.take (h : x.Ok .listed) : x.Ok .held :=
  { h with here := fun _ => h.here nofun, reclaimed := nofun, home := fun _ _ => .inl nofun }

theorem Dentry.Ok.putBack (h : x.Ok .held) : x.Ok .listed :=
  { h with here := fun _ => h.here nofun, reclaimed := nofun, home := fun _ _ => .inl nofun }

theorem Dentry.Ok.reclaim (h : x.Ok .held) (hzero : x.refcount = 0) (hdropped : x.dropped = 0)
    (hcaching : x.caching = 0) :
    Dentry.Ok { x with linked := false } .reclaimed := by
  exact { h with
    here := fun _ => h.here nofun
    reclaimed := fun _ => ⟨hzero, hdropped, hcaching, rfl⟩
    home := fun _ _ => .inl nofun }

theorem Dentry.Ok.finish (h : x.Ok .reclaimed) :
    Dentry.Ok { x with allocated := false, frees := x.frees + 1 } .away := by
  refine { h with here := nofun, reclaimed := nofun, home := nofun, used := ?_, frees := ?_ } <;>
    dsimp only <;> grind

end Local

/-! ## The invariant -/

def State.spot (st : State) (d : Nat) : Spot :=
  if st.task = .holds d then .held
  else if st.task = .reclaims d then .reclaimed
  else if d ∈ st.cacheList then .listed
  else .away

/-- Every dentry is as it should be in its place, and the number is that of the dentries on the
list and with the task. -/
structure State.Ok (st : State) : Prop where
  dentry : ∀ d, (st.dentry d).Ok (st.spot d)
  nodup : st.cacheList.Nodup
  apart : ∀ d, st.task.dentry = some d → d ∉ st.cacheList
  num : st.cacheNum = st.cacheList.length + st.task.count

section Steps

variable {st st' : State} {d : Nat}

theorem State.ok_initial : State.initial.Ok where
  dentry d := by
    have hspot : State.initial.spot d = .away := rfl
    rw [hspot]
    constructor <;> simp [State.initial]
  nodup := nodup_nil
  apart _ h := nomatch h
  num := rfl

/-- Only the record of one dentry changes. -/
theorem State.Ok.setDentry {x : Dentry} (h : st.Ok) (hx : x.Ok (st.spot d)) :
    (st.setDentry d x).Ok := by
  refine ⟨fun e => ?_, h.nodup, h.apart, h.num⟩
  change (update st.dentry d x e).Ok (st.spot e)
  by_cases he : e = d
  · rw [he, update_self]
    exact hx
  · rw [update_of_ne he]
    exact h.dentry e

/-- One dentry changes its place. -/
theorem State.Ok.move {x : Dentry} (h : st.Ok) (hdentry : st'.dentry = update st.dentry d x)
    (hx : x.Ok (st'.spot d)) (hspot : ∀ e, e ≠ d → st'.spot e = st.spot e)
    (hnodup : st'.cacheList.Nodup) (hapart : ∀ e, st'.task.dentry = some e → e ∉ st'.cacheList)
    (hnum : st'.cacheNum = st'.cacheList.length + st'.task.count) :
    st'.Ok := by
  refine ⟨fun e => ?_, hnodup, hapart, hnum⟩
  rw [hdentry]
  by_cases he : e = d
  · rw [he, update_self]
    exact hx
  · rw [update_of_ne he, hspot e he]
    exact h.dentry e

theorem spot_of_task_ne (h : st.task.dentry ≠ some d) :
    st.spot d = if d ∈ st.cacheList then .listed else .away := by
  have hholds : st.task ≠ .holds d := fun heq => h (by rw [heq]; rfl)
  have hreclaims : st.task ≠ .reclaims d := fun heq => h (by rw [heq]; rfl)
  rw [State.spot, if_neg hholds, if_neg hreclaims]

theorem spot_eq_away (h : st.spot d = .away) : st.task.dentry ≠ some d ∧ d ∉ st.cacheList := by
  unfold State.spot at h
  split_ifs at h with hholds hreclaims hmem
  refine ⟨fun heq => ?_, hmem⟩
  cases htask : st.task with
  | idle =>
    rw [htask] at heq
    cases heq
  | holds e =>
    rw [htask] at heq hholds
    cases heq
    exact hholds rfl
  | reclaims e =>
    rw [htask] at heq hreclaims
    cases heq
    exact hreclaims rfl

/-- The dentry goes to the end of the list. -/
theorem spot_append (st st' : State) {e : Nat} (h : st'.task = st.task)
    (hlist : st'.cacheList = st.cacheList ++ [d]) (he : e ≠ d) : st'.spot e = st.spot e := by
  have hmem : e ∈ st'.cacheList ↔ e ∈ st.cacheList := by simp [hlist, he]
  simp only [State.spot, h, hmem]

section

variable (h : st.Ok)
include h

theorem State.Ok.look (hdropped : 0 < (st.dentry d).dropped) : (st.look d).Ok := by
  have hd := h.dentry d
  refine h.setDentry ?_
  split
  · next hdeleted => exact hd.lookDeleted hdropped hdeleted
  · next hdeleted => exact hd.lookCaching hdropped (Bool.not_eq_true _ ▸ hdeleted)

theorem State.Ok.flag (hcaching : 0 < (st.dentry d).caching) : (st.flag d).Ok := by
  have hd := h.dentry d
  refine h.setDentry ?_
  split
  · exact hd.flagCached hcaching
  · next hcache => exact hd.flagNew hcaching (Bool.not_eq_true _ ▸ hcache)

theorem State.Ok.insert (hflagged : 0 < (st.dentry d).flagged) : (st.insert d).Ok := by
  have hd := h.dentry d
  have haway := hd.away_of_flagged hflagged
  obtain ⟨htask, hlist⟩ := spot_eq_away haway
  unfold State.insert
  dsimp only
  split
  · refine h.move (d := d) rfl ?_ (fun e he => spot_append st _ rfl rfl he) ?_
      (fun e he hmem => ?_) ?_
    · rw [spot_of_task_ne, if_pos (mem_append_right _ (mem_singleton_self d))]
      · rw [haway] at hd
        exact hd.insert hflagged
      · exact htask
    · exact nodup_append.mpr ⟨h.nodup, nodup_singleton d,
        fun a ha b hb heq => hlist (by rw [← mem_singleton.mp hb, ← heq]; exact ha)⟩
    · rcases mem_append.mp hmem with hmem | hmem
      · exact h.apart e he hmem
      · rw [mem_singleton.mp hmem] at he
        exact htask he
    · simp only [length_append, length_singleton, h.num, State.setDentry]
      omega
  · exact h.setDentry (hd.insertNot hflagged)

theorem State.Ok.delist (hdeleting : 0 < (st.dentry d).deleting)
    (htask : st.task.dentry ≠ some d) : (st.delist d).Ok := by
  have hd := h.dentry d
  have hspot := spot_of_task_ne htask
  unfold State.delist
  dsimp only
  split
  · next hcache =>
    -- a dentry with the flag that is being deleted is on the list
    have hmem : d ∈ st.cacheList := by
      have halloc : (st.dentry d).allocated = true := hd.used (by have := hd.deleting.1; omega)
      by_contra hnot
      rw [hspot, if_neg hnot] at hd
      rcases hd.home halloc hcache with haway | hflagged | hgone
      · exact haway rfl
      · have hdeleted := hd.deleting.2.2 hdeleting
        rw [(hd.flagged hflagged).2.2] at hdeleted
        cases hdeleted
      · omega
    refine h.move (d := d) rfl ?_ (fun e he => ?_) (h.nodup.erase d) (fun e he hin => ?_) ?_
    · rw [spot_of_task_ne, if_neg]
      · exact hd.delist hdeleting
      · exact fun hin => (h.nodup.mem_erase_iff.mp hin).1 rfl
      · exact htask
    · have hin : e ∈ st.cacheList.erase d ↔ e ∈ st.cacheList := mem_erase_of_ne he
      simp only [State.spot, State.setDentry, hin]
    · exact h.apart e he (mem_of_mem_erase hin)
    · have hlen := length_erase_of_mem hmem
      have hpos := length_pos_of_mem hmem
      simp only [State.setDentry, h.num, hlen]
      omega
  · next hcache =>
    have hnot : d ∉ st.cacheList := by
      intro hmem
      rw [hspot, if_pos hmem] at hd
      exact hcache (hd.here nofun).2.1
    refine h.setDentry ?_
    rw [hspot, if_neg hnot]
    exact hd.delist hdeleting

theorem State.Ok.take (htask : st.task = .idle) (hhead : st.cacheList.head? = some d) :
    (st.take d).Ok := by
  obtain ⟨rest, hlist⟩ := head?_eq_some_iff.mp hhead
  have hnodup := h.nodup
  rw [hlist, nodup_cons] at hnodup
  have hne : st.task.dentry ≠ some d := by
    rw [htask]
    nofun
  have hd := h.dentry d
  rw [spot_of_task_ne hne, hlist, if_pos mem_cons_self] at hd
  have htail : (st.take d).cacheList = rest := by rw [State.take, hlist, tail_cons]
  refine h.move (d := d) (x := st.dentry d) (update_eq_self ..).symm ?_ (fun e he => ?_) ?_
    (fun e he => ?_) ?_
  · have hspot : (st.take d).spot d = .held := if_pos rfl
    rw [hspot]
    exact hd.take
  · have hmem : e ∈ rest ↔ e ∈ st.cacheList := by simp [hlist, he]
    have hnot : (st.take d).task.dentry ≠ some e := fun heq => he (some_inj.mp heq).symm
    have hnot' : st.task.dentry ≠ some e := by
      rw [htask]
      nofun
    rw [spot_of_task_ne hnot, spot_of_task_ne hnot', htail, if_congr hmem rfl rfl]
  · rw [htail]
    exact hnodup.2
  · rw [htail, ← some_inj.mp he]
    exact hnodup.1
  · have hnum := h.num
    rw [hlist, htask] at hnum
    rw [htail]
    simp only [State.take, Reclaimer.count, length_cons] at hnum ⊢
    omega

theorem State.Ok.putBack (htask : st.task = .holds d) : (st.putBack d).Ok := by
  have hspot : st.spot d = .held := if_pos htask
  have hd := h.dentry d
  rw [hspot] at hd
  have hlist : d ∉ st.cacheList := h.apart d (by rw [htask]; rfl)
  have hidle (e : Nat) : (st.putBack d).task.dentry ≠ some e := nofun
  refine h.move (d := d) (x := st.dentry d) (update_eq_self ..).symm ?_ (fun e he => ?_) ?_
    (fun e he => nomatch he) ?_
  · have hmem : d ∈ (st.putBack d).cacheList := mem_append_right _ (mem_singleton_self d)
    rw [spot_of_task_ne (hidle d), if_pos hmem]
    exact hd.putBack
  · have hne : st.task.dentry ≠ some e := by
      rw [htask]
      exact fun heq => he (some_inj.mp heq).symm
    have hmem : e ∈ st.cacheList ++ [d] ↔ e ∈ st.cacheList := by simp [he]
    rw [spot_of_task_ne (hidle e), spot_of_task_ne hne]
    exact if_congr hmem rfl rfl
  · exact nodup_append.mpr ⟨h.nodup, nodup_singleton d,
      fun a ha b hb heq => hlist (by rw [← mem_singleton.mp hb, ← heq]; exact ha)⟩
  · have hnum := h.num
    rw [htask] at hnum
    simp only [State.putBack, Reclaimer.count, length_append, length_singleton] at hnum ⊢
    omega

theorem State.Ok.reclaim (htask : st.task = .holds d) (hzero : (st.dentry d).refcount = 0)
    (hput : (st.dentry d).dropped = 0 ∧ (st.dentry d).caching = 0) : (st.reclaim d).Ok := by
  have hspot : st.spot d = .held := if_pos htask
  have hd := h.dentry d
  rw [hspot] at hd
  refine h.move (d := d) rfl ?_ (fun e he => ?_) h.nodup (fun e he => ?_) ?_
  · have hspot' : (st.reclaim d).spot d = .reclaimed := by simp [State.spot, State.reclaim]
    rw [hspot']
    exact hd.reclaim hzero hput.1 hput.2
  · have hne : st.task.dentry ≠ some e := by
      rw [htask]
      exact fun heq => he (some_inj.mp heq).symm
    have hne' : (st.reclaim d).task.dentry ≠ some e := fun heq => he (some_inj.mp heq).symm
    rw [spot_of_task_ne hne, spot_of_task_ne hne']
    rfl
  · refine h.apart e ?_
    rw [htask]
    exact he
  · have hnum := h.num
    rw [htask] at hnum
    simp only [State.reclaim, State.setDentry, Reclaimer.count] at hnum ⊢
    omega

theorem State.Ok.finish (htask : st.task = .reclaims d) : (st.finish d).Ok := by
  have hspot : st.spot d = .reclaimed := by simp [State.spot, htask]
  have hd := h.dentry d
  rw [hspot] at hd
  have hlist : d ∉ st.cacheList := h.apart d (by rw [htask]; rfl)
  have hidle (e : Nat) : (st.finish d).task.dentry ≠ some e := nofun
  refine h.move (d := d) rfl ?_ (fun e he => ?_) h.nodup (fun e he => nomatch he) ?_
  · have hnot : d ∉ (st.finish d).cacheList := hlist
    rw [spot_of_task_ne (hidle d), if_neg hnot]
    exact hd.finish
  · have hne : st.task.dentry ≠ some e := by
      rw [htask]
      exact fun heq => he (some_inj.mp heq).symm
    rw [spot_of_task_ne (hidle e), spot_of_task_ne hne]
    rfl
  · have hnum := h.num
    rw [htask] at hnum
    exact hnum

theorem State.Ok.step (hstep : SafeStep st st') : st'.Ok := by
  obtain ⟨e, ⟨hpossible, hsafe⟩, rfl⟩ := hstep
  cases e with
  | create d => exact h.setDentry ((h.dentry d).create hpossible.1 hpossible.2)
  | link d => exact h.setDentry ((h.dentry d).setLinked hpossible true)
  | get d => exact h.setDentry ((h.dentry d).get hpossible.1 hpossible.2)
  | put d => exact h.setDentry ((h.dentry d).put hpossible)
  | look d => exact h.look hpossible
  | flag d => exact h.flag hpossible
  | insert d => exact h.insert hpossible
  | free d =>
    have haway := (h.dentry d).away_of_dying hpossible
    refine h.setDentry ?_
    rw [haway]
    exact (haway ▸ h.dentry d).free hpossible
  | unlink d => exact h.setDentry ((h.dentry d).setLinked hpossible false)
  | markDeleted d =>
    exact h.setDentry
      ((h.dentry d).markDeleted hpossible.1 hpossible.2 hsafe.1 hsafe.2.1 hsafe.2.2)
  | delist d => exact h.delist hpossible hsafe
  | take d => exact h.take hpossible.1 hpossible.2.2
  | reclaim d => exact h.reclaim hpossible.1 hpossible.2 hsafe
  | putBack d => exact h.putBack hpossible.1
  | finish d => exact h.finish hpossible

end

theorem State.Ok.run (hrun : ReflTransGen SafeStep State.initial st) : st.Ok := by
  induction hrun with
  | refl => exact State.ok_initial
  | tail _ hstep ih => exact ih.step hstep

theorem State.Ok.allocated (h : st.Ok) (hspot : st.spot d ≠ .away) :
    (st.dentry d).allocated = true :=
  ((h.dentry d).here hspot).1

theorem SafeStep.step (h : SafeStep st st') : Step st st' :=
  h.imp fun _ he => ⟨he.1.1, he.2⟩

end Steps

/-! ## A full cache -/

/-- A dentry without references, on the cache list. -/
def Dentry.cached : Dentry := ⟨true, 0, 0, false, true, true, 0, 0, 0, 0, 0⟩

/-- The first `n` dentries are in the cache. -/
def State.filled (n : Nat) : State where
  dentry d := if d < n then .cached else ⟨false, 0, 0, false, false, false, 0, 0, 0, 0, 0⟩
  cacheList := range n
  cacheNum := n
  task := .idle

section Runs

variable {st : State} {d : Nat} {x y : Dentry}

@[simp] theorem setDentry_self : (st.setDentry d x).dentry d = x := update_self ..

@[simp] theorem setDentry_setDentry : (st.setDentry d x).setDentry d y = st.setDentry d y := by
  simp [State.setDentry]

@[simp] theorem task_setDentry : (st.setDentry d x).task = st.task := rfl

@[simp] theorem cacheList_setDentry : (st.setDentry d x).cacheList = st.cacheList := rfl

@[simp] theorem cacheNum_setDentry : (st.setDentry d x).cacheNum = st.cacheNum := rfl

/-- One more dentry is made and linked, and its reference is put. -/
theorem filled_succ (n : Nat) :
    ReflTransGen SafeStep (.filled n) (.filled (n + 1)) := by
  have hcreate : SafeStep (.filled n)
      ((State.filled n).setDentry n ⟨true, 0, 1, false, false, false, 0, 0, 0, 0, 0⟩) :=
    ⟨.create n, ⟨by simp [Event.Possible, State.filled], trivial⟩,
      by simp [State.exec, State.create, State.filled]⟩
  have hlink : SafeStep
      ((State.filled n).setDentry n ⟨true, 0, 1, false, false, false, 0, 0, 0, 0, 0⟩)
      ((State.filled n).setDentry n ⟨true, 0, 1, false, false, true, 0, 0, 0, 0, 0⟩) :=
    ⟨.link n, ⟨by simp [Event.Possible], trivial⟩, by simp [State.exec]⟩
  have hput : SafeStep
      ((State.filled n).setDentry n ⟨true, 0, 1, false, false, true, 0, 0, 0, 0, 0⟩)
      ((State.filled n).setDentry n ⟨true, 0, 0, false, false, true, 1, 0, 0, 0, 0⟩) :=
    ⟨.put n, ⟨by simp [Event.Possible], trivial⟩, by simp [State.exec, State.put]⟩
  have hlook : SafeStep
      ((State.filled n).setDentry n ⟨true, 0, 0, false, false, true, 1, 0, 0, 0, 0⟩)
      ((State.filled n).setDentry n ⟨true, 0, 0, false, false, true, 0, 1, 0, 0, 0⟩) :=
    ⟨.look n, ⟨by simp [Event.Possible], trivial⟩, by simp [State.exec, State.look]⟩
  have hflag : SafeStep
      ((State.filled n).setDentry n ⟨true, 0, 0, false, false, true, 0, 1, 0, 0, 0⟩)
      ((State.filled n).setDentry n ⟨true, 0, 0, false, true, true, 0, 0, 1, 0, 0⟩) :=
    ⟨.flag n, ⟨by simp [Event.Possible], trivial⟩, by simp [State.exec, State.flag]⟩
  have hinsert : SafeStep
      ((State.filled n).setDentry n ⟨true, 0, 0, false, true, true, 0, 0, 1, 0, 0⟩)
      (.filled (n + 1)) := by
    refine ⟨.insert n, ⟨by simp [Event.Possible], trivial⟩, ?_⟩
    have hdentry : update (State.filled n).dentry n .cached
        = (State.filled (n + 1)).dentry := by
      funext d
      simp only [State.filled, update_apply]
      grind
    simp only [State.exec, State.insert, setDentry_self, setDentry_setDentry, if_true]
    rw [State.setDentry, show (⟨true, 0, 0, false, true, true, 0, 0, 1 - 1, 0, 0⟩ : Dentry) =
      .cached from rfl, hdentry]
    simp [State.filled, range_succ]
  exact .head hcreate (.head hlink (.head hput (.head hlook (.head hflag (.single hinsert)))))

theorem filled_run (n : Nat) : ReflTransGen SafeStep .initial (.filled n) := by
  induction n with
  | zero =>
    have hzero : State.filled 0 = .initial := by simp [State.filled, State.initial]
    rw [hzero]
  | succ n ih => exact ih.trans (filled_succ n)

/-- The task takes the oldest dentry of a cache that is too full. -/
theorem filled_take {n : Nat} (hn : dentryCacheSize < n) :
    SafeStep (.filled n) ((State.filled n).take 0) := by
  refine ⟨.take 0, ⟨⟨rfl, Int.ofNat_lt.mpr hn, ?_⟩, trivial⟩, rfl⟩
  have hne : n ≠ 0 := by omega
  simp [State.filled, head?_range, hne]

theorem dentry_filled_take {n : Nat} (hn : dentryCacheSize < n) :
    ((State.filled n).take 0).dentry 0 = .cached := if_pos (zero_lt_of_lt hn)

/-- The task frees the dentry it has. -/
theorem finish_run (htask : st.task = .holds d) (hdentry : st.dentry d = .cached) :
    ReflTransGen SafeStep st ((st.reclaim d).finish d) := by
  have hreclaim : SafeStep st (st.reclaim d) :=
    ⟨.reclaim d, ⟨⟨htask, by rw [hdentry]; rfl⟩, by simp [Event.Safe, hdentry, Dentry.cached]⟩, rfl⟩
  have hfinish : SafeStep (st.reclaim d) ((st.reclaim d).finish d) :=
    ⟨.finish d, ⟨rfl, trivial⟩, rfl⟩
  exact .tail (.single hreclaim) hfinish

/-- A lookup finds a dentry that is in the cache but not on its list, and it is unlinked and
freed. -/
theorem freed_run (hdentry : st.dentry d = .cached) (hlist : d ∉ st.cacheList) :
    ReflTransGen Step st ((State.mk st.dentry st.cacheList (st.cacheNum - 1) st.task).setDentry d
      ⟨false, 1, 0, true, true, false, 0, 0, 0, 0, 0⟩) := by
  have hget : Step st (st.setDentry d ⟨true, 0, 1, false, true, true, 0, 0, 0, 0, 0⟩) :=
    ⟨.get d, by simp [Event.Possible, hdentry, Dentry.cached],
      by simp [State.exec, hdentry, Dentry.cached]⟩
  have hunlink : Step (st.setDentry d ⟨true, 0, 1, false, true, true, 0, 0, 0, 0, 0⟩)
      (st.setDentry d ⟨true, 0, 1, false, true, false, 0, 0, 0, 0, 0⟩) :=
    ⟨.unlink d, by simp [Event.Possible], by simp [State.exec]⟩
  have hmark : Step (st.setDentry d ⟨true, 0, 1, false, true, false, 0, 0, 0, 0, 0⟩)
      (st.setDentry d ⟨true, 0, 1, true, true, false, 0, 0, 0, 1, 0⟩) :=
    ⟨.markDeleted d, by simp [Event.Possible], by simp [State.exec, State.markDeleted]⟩
  -- the flag says that the dentry is on the list, and the number is lowered
  have hdelist : Step (st.setDentry d ⟨true, 0, 1, true, true, false, 0, 0, 0, 1, 0⟩)
      ((State.mk st.dentry st.cacheList (st.cacheNum - 1) st.task).setDentry d
        ⟨true, 0, 1, true, true, false, 0, 0, 0, 0, 0⟩) := by
    refine ⟨.delist d, by simp [Event.Possible], ?_⟩
    simp [State.exec, State.delist, erase_of_not_mem hlist]
    simp [State.setDentry]
  generalize State.mk st.dentry st.cacheList (st.cacheNum - 1) st.task = st' at hdelist ⊢
  have hput : Step (st'.setDentry d ⟨true, 0, 1, true, true, false, 0, 0, 0, 0, 0⟩)
      (st'.setDentry d ⟨true, 0, 0, true, true, false, 1, 0, 0, 0, 0⟩) :=
    ⟨.put d, by simp [Event.Possible], by simp [State.exec, State.put]⟩
  have hlook : Step (st'.setDentry d ⟨true, 0, 0, true, true, false, 1, 0, 0, 0, 0⟩)
      (st'.setDentry d ⟨true, 0, 0, true, true, false, 0, 0, 0, 0, 1⟩) :=
    ⟨.look d, by simp [Event.Possible], by simp [State.exec, State.look]⟩
  have hfree : Step (st'.setDentry d ⟨true, 0, 0, true, true, false, 0, 0, 0, 0, 1⟩)
      (st'.setDentry d ⟨false, 1, 0, true, true, false, 0, 0, 0, 0, 0⟩) :=
    ⟨.free d, by simp [Event.Possible], by simp [State.exec, State.free]⟩
  exact .head hget (.head hunlink
    (.head hmark (.head hdelist (.head hput (.head hlook (.single hfree))))))

end Runs

/-! ## Reclaiming -/

end Osx64.DentryCache
