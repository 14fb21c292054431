import Osx64.Lib.Run
import Osx64.Task.Family

/-!
# The table of tasks

`task_manager` has a list of all tasks and the number that the next one gets.  `put_thread` adds
a task to the list, and nothing ever takes one off: `sys_waitpid` deletes a child from the list of
its parent, and `free_task` frees its memory.

A PCB whose memory is used again while it is still linked breaks the list; such a task is not
made here.
-/

namespace Osx64.Task

open Function List

/-- The narrowing of `uint64_t` to `int` in `new_task->pid = task_manager.next_free_id`. -/
def toPid (id : Nat) : Int := Int.bmod id (2 ^ 32)

/-- `allocated` are the PCBs in use and `freed` those that have been freed. -/
structure Table where
  nextFreeId : Nat
  allList : List Nat
  allocated : Finset Nat
  freed : Finset Nat
  fam : Family
  pid : Nat → Int
  zombie : Nat → Bool
  init : Nat

namespace Table

variable (tab : Table)

/-- `put_thread` -/
def putThread (t : Nat) (parent : Option Nat) : Table :=
  { tab with
    nextFreeId := tab.nextFreeId + 1
    allList := tab.allList ++ [t]
    allocated := insert t tab.allocated
    fam := tab.fam.addChild t parent
    pid := update tab.pid t (toPid tab.nextFreeId)
    zombie := update tab.zombie t false }

/-- `sys_exit` -/
def exit (t : Nat) : Table :=
  { tab with fam := tab.fam.handOver t tab.init, zombie := update tab.zombie t true }

/-- The child that `sys_waitpid` finds. -/
def findZombie (p : Nat) (want : Int) : Option Nat :=
  (tab.fam.childs p).find? fun z => decide (want = -1 ∨ tab.pid z = want) && tab.zombie z

/-- `sys_waitpid` with this child, and `free_task` -/
def reap (p z : Nat) : Table :=
  { tab with
    fam := tab.fam.delChild p z
    allocated := tab.allocated.erase z
    freed := insert z tab.freed }

end Table

inductive TableEvent where
  | create (t : Nat) (parent : Option Nat)
  | exit (t : Nat)
  | waitpid (p z : Nat) (want : Int)

/-- A task is made by one that runs, or without a parent; init does not end. -/
def TableEvent.Possible (tab : Table) : TableEvent → Prop
  | .create t parent => t ∉ tab.allocated ∧ t ∉ tab.allList ∧
      (∀ p ∈ parent, p ∈ tab.allocated ∧ tab.zombie p = false) ∧
      tab.nextFreeId + 1 ≠ 2 ^ 64 - 1
  | .exit t => t ∈ tab.allocated ∧ tab.zombie t = false ∧ t ≠ tab.init ∧ (tab.fam.parent t).isSome
  | .waitpid p z want => p ∈ tab.allocated ∧ tab.zombie p = false ∧ tab.findZombie p want = some z

def Table.exec (tab : Table) : TableEvent → Table
  | .create t parent => tab.putThread t parent
  | .exit t => tab.exit t
  | .waitpid p z _ => tab.reap p z

def TableStep (tab tab' : Table) : Prop := ∃ e : TableEvent, e.Possible tab ∧ tab.exec e = tab'

/-- `init_task` before the first task. -/
def Table.initial (init : Nat) : Table where
  nextFreeId := 0
  allList := []
  allocated := ∅
  freed := ∅
  fam := ⟨fun _ => none, fun _ => []⟩
  pid := fun _ => 0
  zombie := fun _ => false
  init := init

/-! ## The invariant -/

/-- The list has all tasks that were ever made, in the order of their numbers. -/
structure Table.Ok (tab : Table) : Prop where
  fam : tab.fam.Ok tab.allocated
  nodup : tab.allList.Nodup
  listed : ∀ t, t ∈ tab.allList ↔ t ∈ tab.allocated ∨ t ∈ tab.freed
  freed : ∀ t ∈ tab.freed, t ∉ tab.allocated
  pids : tab.allList.map tab.pid = (List.range tab.nextFreeId).map toPid

section Steps

variable {tab tab' : Table} {t p z : Nat}

theorem Table.ok_initial (init : Nat) : (initial init).Ok where
  fam := ⟨fun _ _ => ⟨fun h => absurd h not_mem_nil, fun h => absurd h.1 (Finset.notMem_empty _)⟩,
    fun _ => nodup_nil⟩
  nodup := nodup_nil
  listed t := by simp [initial]
  freed t h := absurd h (Finset.notMem_empty t)
  pids := by simp [initial]

theorem Table.Ok.putThread (h : tab.Ok) (hlist : t ∉ tab.allList) (parent : Option Nat) :
    (tab.putThread t parent).Ok := by
  have hnew := (h.listed t).not.mp hlist
  rw [not_or] at hnew
  refine ⟨h.fam.addChild hnew.1 parent, ?_, fun u => ?_, fun u hu hmem => ?_, ?_⟩
  · rw [Table.putThread, ← concat_eq_append]
    exact .concat hlist h.nodup
  · simp only [Table.putThread, mem_append, mem_singleton, Finset.mem_insert, h.listed u]
    tauto
  · rcases Finset.mem_insert.mp hmem with rfl | hmem
    · exact hnew.2 hu
    · exact h.freed u hu hmem
  · have hold : tab.allList.map (update tab.pid t (toPid tab.nextFreeId)) =
        tab.allList.map tab.pid := by
      refine map_congr_left fun u hu => update_of_ne ?_ _ _
      rintro rfl
      exact hlist hu
    simp only [Table.putThread, map_append, map_singleton, update_self, hold, h.pids,
      range_succ]

theorem Table.Ok.exit (h : tab.Ok) (hinit : t ≠ tab.init) : (tab.exit t).Ok :=
  { h with fam := h.fam.handOver hinit }

theorem Table.Ok.reap (h : tab.Ok) (hz : z ∈ tab.fam.childs p) : (tab.reap p z).Ok := by
  have halloc := ((h.fam.mem p z).mp hz).1
  refine ⟨h.fam.delChild hz, h.nodup, fun u => ?_, fun u hu hmem => ?_, h.pids⟩
  · simp only [Table.reap, Finset.mem_erase, Finset.mem_insert, h.listed u]
    by_cases hu : u = z
    · simp [hu, halloc]
    · simp [hu]
  · rcases Finset.mem_insert.mp hu with rfl | hu
    · exact Finset.notMem_erase _ _ hmem
    · exact h.freed u hu (Finset.mem_of_mem_erase hmem)

theorem Table.Ok.step (h : tab.Ok) (hstep : TableStep tab tab') : tab'.Ok := by
  obtain ⟨e, hpossible, rfl⟩ := hstep
  cases e with
  | create t parent => exact h.putThread hpossible.2.1 parent
  | exit t => exact h.exit hpossible.2.2.1
  | waitpid p z want => exact h.reap (mem_of_find?_eq_some hpossible.2.2)

theorem tableOk_of_run {init : Nat} (h : Relation.ReflTransGen TableStep (Table.initial init) tab) :
    tab.Ok := by
  induction h with
  | refl => exact Table.ok_initial init
  | tail _ hstep ih => exact ih.step hstep

/-- The numbers below 2^32 have different `int` values. -/
theorem toPid_injOn {a b : Nat} (ha : a < 2 ^ 32) (hb : b < 2 ^ 32)
    (h : toPid a = toPid b) : a = b := by
  unfold toPid Int.bmod at h
  dsimp only at h
  split at h <;> split at h <;> omega

theorem Table.Ok.pid_injOn (h : tab.Ok) (hids : tab.nextFreeId ≤ 2 ^ 32) {a b : Nat}
    (ha : a ∈ tab.allList) (hb : b ∈ tab.allList) (hpid : tab.pid a = tab.pid b) : a = b := by
  have hnodup : (tab.allList.map tab.pid).Nodup := by
    rw [h.pids]
    refine List.Nodup.map_on (fun i hi j hj hij => ?_) nodup_range
    rw [mem_range] at hi hj
    exact toPid_injOn (hi.trans_le hids) (hj.trans_le hids) hij
  exact inj_on_of_nodup_map hnodup ha hb hpid

end Steps

/-! ## Runs -/

/-- As long as no more than 2^32 tasks have been made, their pids differ, the lists of children are
right, and the list of all tasks is right until the first task is freed. -/
theorem allList_of_run {init : Nat} {tab : Table}
    (h : Relation.ReflTransGen TableStep (Table.initial init) tab)
    (hids : tab.nextFreeId ≤ 2 ^ 32) :
    (tab.allList.Nodup ∧ (∀ t, t ∈ tab.allList ↔ t ∈ tab.allocated) ↔ tab.freed = ∅) ∧
      (∀ p z, z ∈ tab.fam.childs p ↔ z ∈ tab.allocated ∧ tab.fam.parent z = some p) ∧
      (∀ p, (tab.fam.childs p).Nodup) ∧
      ∀ t ∈ tab.allList, ∀ u ∈ tab.allList, tab.pid t = tab.pid u → t = u := by
  have hok := tableOk_of_run h
  refine ⟨⟨fun hlist => ?_, fun hfreed => ⟨hok.nodup, fun t => ?_⟩⟩, hok.fam.mem, hok.fam.nodup,
    fun t ht u hu => hok.pid_injOn hids ht hu⟩
  · refine Finset.eq_empty_of_forall_notMem fun t ht => hok.freed t ht ?_
    exact (hlist.2 t).mp ((hok.listed t).mpr (.inr ht))
  · rw [hok.listed t, hfreed]
    simp

/-! ## Runs of a list of events -/

instance TableEvent.decidablePossible (tab : Table) : (e : TableEvent) → Decidable (e.Possible tab)
  | .create .. | .exit _ | .waitpid .. => inferInstanceAs (Decidable (_ ∧ _))

/-- Init, task 0, has a child that has ended. -/
def initAndChild : List TableEvent := [.create 0 none, .create 1 (some 0), .exit 1]

theorem allList_initAndChild : ∃ tab, Relation.ReflTransGen TableStep (Table.initial 0) tab ∧
    tab.nextFreeId ≤ 2 ^ 32 ∧ tab.freed = ∅ ∧ 1 ∈ tab.allocated ∧
      ∀ t, t ∈ tab.allList ↔ t ∈ tab.allocated := by
  obtain ⟨tab, hsteps, hids, hfreed, halloc⟩ :
      ∃ tab, Relation.ReflTransGen TableStep (Table.initial 0) tab ∧
        tab.nextFreeId ≤ 2 ^ 32 ∧ tab.freed = ∅ ∧ 1 ∈ tab.allocated :=
    exists_of_guarded initAndChild (by decide +kernel)
  exact ⟨tab, hsteps, hids, hfreed, halloc, ((allList_of_run hsteps hids).1.mpr hfreed).2⟩

/-- When init has waited for its child, the freed PCB is still in the list. -/
theorem freed_in_allList : ∃ tab, Relation.ReflTransGen TableStep (Table.initial 0) tab ∧
    1 ∈ tab.allList ∧ 1 ∉ tab.allocated :=
  exists_of_guarded (initAndChild ++ [.waitpid 0 1 (-1)]) (by decide +kernel)

end Osx64.Task
