import Osx64.Lib.Run
import Osx64.Task.RunQueue

/-!
# Tasks that run, are ready or wait

The scheduler together with wait queues (`lib/waitqueue.c`) and mutexes (`lib/lock.c`), for any
number of CPUs.  What is done under a spinlock is one step, and so is the attempt to take a
mutex in the loop of `mutex_lock`.

A mutex is not handed over: `mutex_unlock` opens it and makes the first waiter ready, which
tries again when it runs.  If another task has been faster, the waiter calls `schedule` in its
loop, and `schedule` takes the next task without having put the current one anywhere.
-/

namespace Osx64.Task

open Function Relation

/-- `mutex_t`; the entries of the list are on the stacks of the waiting tasks. -/
structure Mutex where
  locked : Bool
  waitQueue : List Nat

/-- The lists that tasks wait in. -/
inductive Waiting where
  | queue (q : Nat)
  | mutex (m : Nat)
deriving DecidableEq

/-- `live` are the tasks that have been made, without the idle tasks, and `retry` is the mutex
that a task is still to get after it has waited for it. -/
structure Sched where
  rq : RunQueue
  wq : Nat → List Nat
  mutex : Nat → Mutex
  live : Finset Nat
  retry : Nat → Option Nat

namespace Sched

variable (st : Sched)

def wait : Waiting → List Nat
  | .queue q => st.wq q
  | .mutex m => (st.mutex m).waitQueue

def current (c : Nat) : Nat := (st.rq.cpu c).nowRunning

/-- `sleep_on` and `sleep_on_locked` -/
def sleepOn (c q : Nat) : Sched :=
  { st with wq := update st.wq q (st.wq q ++ [st.current c]), rq := st.rq.sleep c }

/-- `wake_up_all` -/
def wakeUpAll (q : Nat) : Sched :=
  { st with
    wq := update st.wq q []
    rq := st.rq.wakeUpAll (st.wq q) }

/-- `wake_up_first` -/
def wakeUpFirst (q : Nat) : Sched :=
  match st.wq q with
  | [] => st
  | t :: rest =>
    { st with wq := update st.wq q rest, rq := st.rq.putToReadyListFirst t }

def setMutex (m : Nat) (mutex : Mutex) : Sched :=
  { st with mutex := update st.mutex m mutex }

/-- `mutex_lock` up to the loop: the mutex is free, or the task is enqueued and sleeps. -/
def mutexLock (c m : Nat) : Sched :=
  if (st.mutex m).locked = false then st.setMutex m { st.mutex m with locked := true }
  else
    { st.setMutex m { st.mutex m with waitQueue := (st.mutex m).waitQueue ++ [st.current c] } with
      retry := update st.retry (st.current c) (some m)
      rq := st.rq.sleep c }

/-- One round of the loop of `mutex_lock`. -/
def mutexRetry (c m : Nat) : Sched :=
  if (st.mutex m).locked then { st with rq := st.rq.scheduleLocked c }
  else
    { st.setMutex m { st.mutex m with locked := true } with
      retry := update st.retry (st.current c) none }

/-- `mutex_unlock` -/
def mutexUnlock (m : Nat) : Sched :=
  match (st.mutex m).waitQueue with
  | [] => st.setMutex m ⟨false, []⟩
  | t :: rest => { st.setMutex m ⟨false, rest⟩ with rq := st.rq.putToReadyListFirst t }

end Sched

/-! ## Steps -/

inductive Event where
  /-- a task is made, for CPU `n` -/
  | spawn (t n : Nat)
  | yield (c : Nat)
  /-- the reschedule of a timer tick -/
  | tick (c : Nat)
  | loadBalance (c : Nat)
  | sleepOn (c q : Nat)
  | wakeUpAll (q : Nat)
  | wakeUpFirst (q : Nat)
  | mutexLock (c m : Nat)
  | mutexRetry (c m : Nat)
  | mutexUnlock (m : Nat)

/-- The current task of a CPU can make a call: it is not the idle task, and it is not inside
`mutex_lock`. -/
def Sched.Calls (st : Sched) (c : Nat) : Prop :=
  c < st.rq.totalNum ∧ st.current c ≠ (st.rq.cpu c).idle ∧ st.retry (st.current c) = none
deriving Decidable

/-- Wake-ups and `mutex_unlock` are possible at any time, whoever calls them. -/
def Event.Possible (st : Sched) : Event → Prop
  | .spawn t n => t ∉ st.live ∧ (∀ c < st.rq.totalNum, t ≠ (st.rq.cpu c).idle) ∧ n < st.rq.totalNum
  | .yield c | .sleepOn c _ | .mutexLock c _ => st.Calls c
  | .tick c | .loadBalance c => c < st.rq.totalNum
  | .wakeUpAll _ | .wakeUpFirst _ | .mutexUnlock _ => True
  | .mutexRetry c m => c < st.rq.totalNum ∧ st.current c ≠ (st.rq.cpu c).idle ∧
      st.retry (st.current c) = some m

def Sched.exec (st : Sched) : Event → Sched
  | .spawn t n => { st with rq := st.rq.addToCpuNReadyList t n, live := insert t st.live }
  | .yield c => { st with rq := st.rq.sysYield c }
  | .tick c => { st with rq := st.rq.tick c }
  | .loadBalance c => { st with rq := st.rq.loadBalance c }
  | .sleepOn c q => st.sleepOn c q
  | .wakeUpAll q => st.wakeUpAll q
  | .wakeUpFirst q => st.wakeUpFirst q
  | .mutexLock c m => st.mutexLock c m
  | .mutexRetry c m => st.mutexRetry c m
  | .mutexUnlock m => st.mutexUnlock m

def SchedStep (st st' : Sched) : Prop := ∃ e : Event, e.Possible st ∧ st.exec e = st'

/-- A waiter that has been woken finds the mutex free. -/
def Event.Safe (st : Sched) : Event → Prop
  | .mutexRetry _ m => (st.mutex m).locked = false
  | _ => True

def SafeSchedStep (st st' : Sched) : Prop :=
  ∃ e : Event, (e.Possible st ∧ e.Safe st) ∧ st.exec e = st'

/-- All CPUs run their idle tasks. -/
def Sched.initial (totalNum : Nat) (idle : Nat → Nat) : Sched where
  rq := RunQueue.initial totalNum idle
  wq := fun _ => []
  mutex := fun _ => ⟨false, []⟩
  live := ∅
  retry := fun _ => none

/-! ## The invariant -/

/-- No task is lost or duplicated, and the counts are right. -/
def Sched.Ok (st : Sched) : Prop := RunOk st.rq st.wait st.live

section Calls

variable {st : Sched} {c q m : Nat}

theorem Sched.ok_initial (totalNum : Nat) (idle : Nat → Nat) : (initial totalNum idle).Ok := by
  have hwait : (initial totalNum idle).wait = fun _ => [] := by
    funext w
    cases w <;> rfl
  unfold Sched.Ok
  rw [hwait]
  exact runOk_initial totalNum idle

theorem Sched.Ok.sleepOn (h : st.Ok) (hcalls : st.Calls c) (q : Nat) : (st.sleepOn c q).Ok := by
  refine RunOk.sleep (w := .queue q) h hcalls.1 hcalls.2.1 ?_ fun v hv => ?_
  · simp only [Sched.wait, Sched.sleepOn, update_self]
    exact List.perm_append_singleton _ _
  · cases v with
    | queue r => exact update_of_ne (fun heq : r = q => hv (congrArg _ heq)) _ _
    | mutex m => rfl

/-- Only the flag of a mutex changes. -/
theorem wait_setLocked (locked : Bool) :
    (st.setMutex m { st.mutex m with locked := locked }).wait = st.wait := by
  funext v
  cases v with
  | queue r => rfl
  | mutex n =>
    simp only [Sched.wait, Sched.setMutex, update_apply]
    split
    · next heq => rw [heq]
    · rfl

section

variable (h : st.Ok)
include h

theorem Sched.Ok.mutexLock (hcalls : st.Calls c) (m : Nat) : (st.mutexLock c m).Ok := by
  unfold Sched.mutexLock
  split
  · unfold Sched.Ok
    rw [wait_setLocked]
    exact h
  · refine RunOk.sleep (w := .mutex m) h hcalls.1 hcalls.2.1 ?_ fun v hv => ?_
    · simp only [Sched.wait, Sched.setMutex, update_self]
      exact List.perm_append_singleton _ _
    · cases v with
      | queue r => rfl
      | mutex n =>
        simp only [Sched.wait, Sched.setMutex]
        rw [update_of_ne fun heq : n = m => hv (congrArg _ heq)]

theorem Sched.Ok.mutexRetry (hfree : (st.mutex m).locked = false) (c : Nat) :
    (st.mutexRetry c m).Ok := by
  unfold Sched.mutexRetry
  rw [if_neg (Bool.not_eq_true _ ▸ hfree)]
  change RunOk st.rq (st.setMutex m _).wait st.live
  rw [wait_setLocked]
  exact h

theorem Sched.Ok.mutexUnlock (m : Nat) : (st.mutexUnlock m).Ok := by
  unfold Sched.mutexUnlock
  cases hqueue : (st.mutex m).waitQueue with
  | nil =>
    have hset : st.setMutex m ⟨false, []⟩ = st.setMutex m { st.mutex m with locked := false } := by
      rw [← hqueue]
    rw [hset]
    unfold Sched.Ok
    rw [wait_setLocked]
    exact h
  | cons t rest =>
    refine RunOk.putToReadyListFirst (w := .mutex m) h ?_ fun v hv => ?_
    · simp only [Sched.wait, Sched.setMutex, update_self, hqueue]
      exact List.Perm.refl _
    · cases v with
      | queue r => rfl
      | mutex n =>
        simp only [Sched.wait, Sched.setMutex]
        rw [update_of_ne fun heq : n = m => hv (congrArg _ heq)]

theorem Sched.Ok.wakeUpFirst (q : Nat) : (st.wakeUpFirst q).Ok := by
  unfold Sched.wakeUpFirst
  cases hqueue : st.wq q with
  | nil => exact h
  | cons t rest =>
    refine RunOk.putToReadyListFirst (w := .queue q) h ?_ fun v hv => ?_
    · simp only [Sched.wait, update_self, hqueue]
      exact List.Perm.refl _
    · cases v with
      | queue r => exact update_of_ne (fun heq : r = q => hv (congrArg _ heq)) _ _
      | mutex m => rfl

theorem Sched.Ok.wakeUpAll (q : Nat) : (st.wakeUpAll q).Ok := by
  have hwait : (st.wakeUpAll q).wait = update st.wait (.queue q) [] := by
    funext v
    cases v with
    | queue r => simp only [Sched.wait, Sched.wakeUpAll, update_apply, Waiting.queue.injEq]
    | mutex m => rfl
  unfold Sched.Ok
  rw [hwait]
  exact RunOk.wakeUpAll h (.queue q)

/-- A step in which no waiter is turned away keeps all tasks. -/
theorem Sched.Ok.step {st' : Sched} (hstep : SafeSchedStep st st') : st'.Ok := by
  obtain ⟨e, ⟨hpossible, hsafe⟩, rfl⟩ := hstep
  cases e with
  | spawn t n => exact RunOk.addToCpuNReadyList h hpossible.1 hpossible.2.1 hpossible.2.2
  | yield c => exact RunOk.sysYield h hpossible.1 hpossible.2.1
  | tick c => exact RunOk.tick h hpossible
  | loadBalance c => exact RunOk.loadBalance h hpossible
  | sleepOn c q => exact h.sleepOn hpossible q
  | wakeUpAll q => exact h.wakeUpAll q
  | wakeUpFirst q => exact h.wakeUpFirst q
  | mutexLock c m => exact h.mutexLock hpossible m
  | mutexRetry c m => exact h.mutexRetry hsafe c
  | mutexUnlock m => exact h.mutexUnlock m

/-- A waiter that is turned away is in no list any more. -/
theorem Sched.Ok.lost (hretry : (Event.mutexRetry c m).Possible st)
    (hlocked : (st.mutex m).locked = true) (p : Place Waiting) :
    st.current c ∉ (st.mutexRetry c m).rq.lists (st.mutexRetry c m).wait p := by
  obtain ⟨hc, hcur, -⟩ := hretry
  have hdrop : RunOk (st.rq.scheduleLocked c) st.wait (st.live.erase (st.current c)) :=
    (RunOk.drop h hc hcur).scheduleLocked hc
  unfold Sched.mutexRetry
  rw [if_pos hlocked]
  intro hmem
  exact Finset.notMem_erase _ _ (hdrop.placed.mem_live hmem)

end

end Calls

/-! ## Runs -/

variable {totalNum : Nat} {idle : Nat → Nat}

theorem ok_of_safe_run {st : Sched}
    (h : ReflTransGen SafeSchedStep (Sched.initial totalNum idle) st) : st.Ok := by
  induction h with
  | refl => exact Sched.ok_initial totalNum idle
  | tail _ hstep ih => exact ih.step hstep

/-- Every task is in exactly one place, and stands there once. -/
theorem one_place_of_safe_run {st : Sched}
    (h : Relation.ReflTransGen SafeSchedStep (Sched.initial totalNum idle) st) :
    (∀ t ∈ st.live, ∃! p : Place Waiting, t ∈ st.rq.lists st.wait p) ∧
      (∀ p : Place Waiting, (st.rq.lists st.wait p).Nodup) ∧
      ∀ c, (st.rq.cpu c).totalReadyNum = (st.rq.cpu c).ready.length := by
  have hok := ok_of_safe_run h
  exact ⟨fun t ht => hok.placed.existsUnique ht, hok.placed.nodup, hok.num⟩

/-! ## Runs of a list of events -/

instance Event.decidablePossible (st : Sched) : (e : Event) → Decidable (e.Possible st)
  | .spawn t n => inferInstanceAs (Decidable
      (t ∉ st.live ∧ (∀ c < st.rq.totalNum, t ≠ (st.rq.cpu c).idle) ∧ n < st.rq.totalNum))
  | .yield c | .sleepOn c _ | .mutexLock c _ => inferInstanceAs (Decidable (st.Calls c))
  | .tick c | .loadBalance c => inferInstanceAs (Decidable (c < st.rq.totalNum))
  | .wakeUpAll _ | .wakeUpFirst _ | .mutexUnlock _ => inferInstanceAs (Decidable True)
  | .mutexRetry c m => inferInstanceAs (Decidable (c < st.rq.totalNum ∧
      st.current c ≠ (st.rq.cpu c).idle ∧ st.retry (st.current c) = some m))

instance Event.decidableSafe (st : Sched) : (e : Event) → Decidable (e.Safe st)
  | .mutexRetry _ m => inferInstanceAs (Decidable ((st.mutex m).locked = false))
  | .spawn .. | .yield .. | .tick .. | .loadBalance .. | .sleepOn .. | .wakeUpAll ..
    | .wakeUpFirst ..
  | .mutexLock .. | .mutexUnlock .. => inferInstanceAs (Decidable True)

theorem SafeSchedStep.step {st st' : Sched} (h : SafeSchedStep st st') : SchedStep st st' := by
  obtain ⟨e, ⟨hpossible, -⟩, hexec⟩ := h
  exact ⟨e, hpossible, hexec⟩

/-- Task 1 has the mutex when task 2 comes, gives it up, and takes it again before task 2 runs. -/
def overtaken : List Event := [.spawn 2 0, .spawn 1 0, .tick 0, .mutexLock 0 0, .tick 0,
  .mutexLock 0 0, .mutexUnlock 0, .mutexLock 0 0, .tick 0]

/-- Up to that point every task is in one place: task 1 is ready again and task 2 runs. -/
theorem one_place_overtaken : ∃ st,
    Relation.ReflTransGen SafeSchedStep (Sched.initial 1 fun _ => 0) st ∧ st.live = {2, 1} ∧
      st.current 0 = 2 ∧ ∃! p : Place Waiting, 2 ∈ st.rq.lists st.wait p := by
  obtain ⟨st, hsteps, hlive, hcur⟩ :
    ∃ st, ReflTransGen SafeSchedStep (Sched.initial 1 fun _ => 0) st ∧
      st.live = {2, 1} ∧ st.current 0 = 2 := exists_of_guarded overtaken (by decide +kernel)
  refine ⟨st, hsteps, hlive, hcur, (one_place_of_safe_run hsteps).1 2 ?_⟩
  rw [hlive]
  decide

/-- Task 2 then finds the mutex locked, and is in no list any more. -/
theorem waiter_lost : ∃ st, Relation.ReflTransGen SchedStep (Sched.initial 1 fun _ => 0) st ∧
    2 ∈ st.live ∧ ∀ p : Place Waiting, 2 ∉ st.rq.lists st.wait p := by
  obtain ⟨st, hsteps, hlive, hcur, hpossible, hlocked⟩ :
      ∃ st, ReflTransGen SafeSchedStep (Sched.initial 1 fun _ => 0) st ∧ 2 ∈ st.live ∧
        st.current 0 = 2 ∧ (Event.mutexRetry 0 0).Possible st ∧ (st.mutex 0).locked = true :=
    exists_of_guarded overtaken (by decide +kernel)
  refine ⟨st.mutexRetry 0 0, ?_, ?_, fun p => ?_⟩
  · have hreach := ReflTransGen.mono (fun _ _ h => SafeSchedStep.step h) _ _ hsteps
    exact hreach.tail ⟨.mutexRetry 0 0, hpossible, rfl⟩
  · unfold Sched.mutexRetry
    rw [if_pos hlocked]
    exact hlive
  · have hlost := (ok_of_safe_run hsteps).lost hpossible hlocked p
    rw [hcur] at hlost
    exact hlost

end Osx64.Task
