import Mathlib.Logic.Function.Basic

/-!
# Wait queues

A task that has to wait takes the lock of a queue, appends itself to the list of the queue
and gives the lock back when it is off the processor (`sleep_on_locked`).  Waking up empties
the list under the lock (`wake_up_all`).

What each task is doing with regard to one queue is a function `wait`.  `QueueOk` says that
the queue knows its tasks: a sleeping task is on the list and a task on its way to sleep
holds the lock.  So whoever empties the list under the lock leaves nobody behind.

A program with several queues is described by a `Discipline`: what a task does with each
queue, and how it goes on when it is woken.
-/

namespace Osx64

open Function

/-- `wait_queue_t`: the holder of the lock, and the tasks on the list. -/
structure WaitQueue where
  lock : Option Nat
  list : List Nat

namespace WaitQueue

/-- `wait_queue_init` -/
def init : WaitQueue := ⟨none, []⟩

/-- What a task is doing with regard to a queue: nothing, holding its lock in order to sleep,
or sleeping on it. -/
inductive Wait where
  | running
  | entering
  | asleep
deriving DecidableEq

/-- The queue knows its tasks. -/
structure QueueOk (q : WaitQueue) (wait : Nat → Wait) : Prop where
  listed : ∀ i, wait i = .asleep ↔ i ∈ q.list
  holder : ∀ i, wait i = .entering → q.lock = some i

variable {q : WaitQueue} {wait wait' : Nat → Wait} {i : Nat}

theorem queueOk_init (h : ∀ j, wait j = .running) : QueueOk init wait := by
  refine ⟨fun j => ?_, fun j hj => ?_⟩
  · rw [h j]
    simp [init]
  · rw [h j] at hj
    cases hj

section

variable (h : QueueOk q wait)
include h

/-- Tasks that have nothing to do with the queue may do anything else. -/
theorem QueueOk.congr (heq : ∀ j, wait' j = wait j) : QueueOk q wait' := by
  obtain rfl : wait' = wait := funext heq
  exact h

/-- A task takes the lock of the queue in order to sleep. -/
theorem QueueOk.enter (hfree : q.lock = none) (hwas : wait i = .running)
    (hself : wait' i = .entering) (hother : ∀ j, j ≠ i → wait' j = wait j) :
    QueueOk { q with lock := some i } wait' := by
  refine ⟨fun j => ?_, fun j hj => ?_⟩
  · show _ ↔ j ∈ q.list
    rw [← h.listed j]
    by_cases hji : j = i
    · rw [hji, hself, hwas]
      decide
    · rw [hother j hji]
  · by_cases hji : j = i
    · rw [hji]
    · have hheld := h.holder j (hother j hji ▸ hj)
      rw [hfree] at hheld
      cases hheld

/-- The holder of the lock goes to sleep. -/
theorem QueueOk.sleep (hwas : wait i = .entering)
    (hself : wait' i = .asleep) (hother : ∀ j, j ≠ i → wait' j = wait j) :
    QueueOk ⟨none, q.list ++ [i]⟩ wait' := by
  refine ⟨fun j => ?_, fun j hj => ?_⟩
  · rw [List.mem_append, List.mem_singleton, ← h.listed j]
    by_cases hji : j = i
    · simp [hji, hself]
    · rw [hother j hji]
      simp [hji]
  · have hji : j ≠ i := by
      rintro rfl
      rw [hself] at hj
      cases hj
    -- there is one holder only, and it has just fallen asleep
    have hheld := (h.holder j (hother j hji ▸ hj)).symm.trans (h.holder i hwas)
    exact absurd (Option.some_inj.mp hheld) hji

/-- Emptying the list under the lock wakes everybody. -/
theorem QueueOk.running_of_wake (hfree : q.lock = none)
    (hwoken : ∀ j ∈ q.list, wait' j = .running) (hother : ∀ j, j ∉ q.list → wait' j = wait j)
    (j : Nat) : wait' j = .running := by
  by_cases hj : j ∈ q.list
  · exact hwoken j hj
  · rw [hother j hj]
    cases hwait : wait j with
    | running => rfl
    | entering =>
      have hheld := h.holder j hwait
      rw [hfree] at hheld
      cases hheld
    | asleep => exact absurd ((h.listed j).mp hwait) hj

end

/-! ## Several queues -/

/-- How the tasks of a program use its queues.  A task waits on one queue at a time, and on
none when it has been woken. -/
structure Discipline (ε τ : Type*) where
  wait : ε → τ → Wait
  wake : τ → τ
  wait_wake : ∀ e t, wait e (wake t) = .running
  one : ∀ {e e' t}, wait e t ≠ .running → wait e' t ≠ .running → e' = e

namespace Discipline

variable {ε τ : Type*} (D : Discipline ε τ)

/-- What task `i` does with queue `e`. -/
def waitOn (task : Nat → Option τ) (e : ε) (i : Nat) : Wait :=
  ((task i).map (D.wait e)).getD .running

/-- The tasks on a list are woken. -/
def wakeAll (list : List Nat) (task : Nat → Option τ) (i : Nat) : Option τ :=
  if i ∈ list then (task i).map D.wake else task i

/-- Every queue knows its tasks. -/
def QueuesOk (wq : ε → WaitQueue) (task : Nat → Option τ) : Prop :=
  ∀ e, QueueOk (wq e) (D.waitOn task e)

/-- Tasks other than `i` do not change, except that sleepers may have been woken. -/
def Others (task : Nat → Option τ) (i : Nat) (task' : Nat → Option τ) : Prop :=
  ∀ j, j ≠ i → task' j = task j ∨
    ∃ e t, task j = some t ∧ D.wait e t = .asleep ∧ task' j = some (D.wake t)

variable {D} {wq : ε → WaitQueue} {task task' : Nat → Option τ} {e e' : ε} {i j : Nat} {t t' : τ}

theorem waitOn_eq (h : task i = some t) : D.waitOn task e i = D.wait e t := by
  rw [waitOn, h]
  rfl

theorem waitOn_of_none (h : task i = none) : D.waitOn task e i = .running := by
  rw [waitOn, h]
  rfl

theorem waitOn_congr (h : task' i = task i) : D.waitOn task' e i = D.waitOn task e i := by
  rw [waitOn, waitOn, h]

/-- A task that does something with a queue exists. -/
theorem exists_of_waitOn (h : D.waitOn task e i ≠ .running) :
    ∃ t, task i = some t ∧ D.waitOn task e i = D.wait e t := by
  cases htask : task i with
  | none => exact absurd (waitOn_of_none htask) h
  | some t => exact ⟨t, rfl, waitOn_eq htask⟩

theorem waitOn_update_self :
    D.waitOn (update task i (some t)) e i = D.wait e t :=
  waitOn_eq (update_self _ _ _)

theorem waitOn_update_of_ne (h : j ≠ i) :
    D.waitOn (update task i (some t)) e j = D.waitOn task e j :=
  waitOn_congr (update_of_ne h _ _)

theorem waitOn_wakeAll_of_mem {list : List Nat} (h : i ∈ list) :
    D.waitOn (D.wakeAll list task) e i = .running := by
  rw [waitOn, wakeAll, if_pos h]
  cases task i with
  | none => rfl
  | some t => exact D.wait_wake e t

theorem wakeAll_of_not_mem {list : List Nat} (h : i ∉ list) : D.wakeAll list task i = task i :=
  if_neg h

section

variable (h : D.QueuesOk wq task)
include h

/-- A task that waits on no queue goes on without waiting. -/
theorem QueuesOk.put (hold : ∀ e, D.waitOn task e i = .running)
    (hnew : ∀ e, D.wait e t = .running) : D.QueuesOk wq (update task i (some t)) := by
  intro e
  refine (h e).congr fun j => ?_
  by_cases hj : j = i
  · rw [hj, hold, waitOn_update_self, hnew]
  · exact waitOn_update_of_ne hj

/-- A task wakes a queue.  Nobody waits on this queue afterwards. -/
theorem QueuesOk.running_of_wake (hfree : (wq e).lock = none)
    (hnew : D.wait e t = .running) (j : Nat) :
    D.waitOn (update (D.wakeAll (wq e).list task) i (some t)) e j = .running := by
  by_cases hj : j = i
  · rw [hj, waitOn_update_self, hnew]
  · rw [waitOn_update_of_ne hj]
    refine (h e).running_of_wake hfree (fun k hk => ?_) (fun k hk => ?_) j
    · exact waitOn_wakeAll_of_mem hk
    · exact waitOn_congr (wakeAll_of_not_mem hk)

section

variable (hfree : (wq e).lock = none) (hold : ∀ e, D.waitOn task e i = .running)
include hfree hold

theorem QueuesOk.wake [DecidableEq ε] (hnew : ∀ e, D.wait e t = .running) :
    D.QueuesOk (update wq e ⟨none, []⟩)
      (update (D.wakeAll (wq e).list task) i (some t)) := by
  intro e'
  by_cases he : e' = e
  · subst he
    rw [update_self]
    exact queueOk_init fun j => h.running_of_wake hfree (hnew e') j
  · rw [update_of_ne he]
    refine (h e').congr fun j => ?_
    by_cases hj : j = i
    · rw [hj, hold, waitOn_update_self, hnew]
    rw [waitOn_update_of_ne hj]
    by_cases hmem : j ∈ (wq e).list
    · -- a sleeper of the queue that is woken does not wait on this one
      rw [waitOn_wakeAll_of_mem hmem]
      have hasleep := ((h e).listed j).mpr hmem
      obtain ⟨t, htask, hwait⟩ := exists_of_waitOn (by rw [hasleep]; decide)
      rw [waitOn_eq htask]
      by_contra hne
      exact he (D.one (by rw [← hwait, hasleep]; decide) (Ne.symm hne))
    · exact waitOn_congr (wakeAll_of_not_mem hmem)

/-- A task takes the lock of a queue in order to sleep on it. -/
theorem QueuesOk.enter [DecidableEq ε] (hnew : D.wait e t = .entering) :
    D.QueuesOk (update wq e { wq e with lock := some i })
      (update task i (some t)) := by
  intro e'
  by_cases he : e' = e
  · subst he
    rw [update_self]
    exact (h e').enter hfree (hold e') (waitOn_update_self.trans hnew) fun j hj =>
      waitOn_update_of_ne hj
  · rw [update_of_ne he]
    refine (h e').congr fun j => ?_
    by_cases hj : j = i
    · rw [hj, hold, waitOn_update_self]
      by_contra hne
      exact he (D.one (by rw [hnew]; decide) hne)
    · exact waitOn_update_of_ne hj

end

/-- The holder of the lock of a queue goes to sleep. -/
theorem QueuesOk.sleep [DecidableEq ε] (htask : task i = some t)
    (hold : D.wait e t = .entering) (hnew : D.wait e t' = .asleep) :
    D.QueuesOk (update wq e ⟨none, (wq e).list ++ [i]⟩)
      (update task i (some t')) := by
  intro e'
  by_cases he : e' = e
  · subst he
    rw [update_self]
    exact (h e').sleep ((waitOn_eq htask).trans hold) (waitOn_update_self.trans hnew)
      fun j hj => waitOn_update_of_ne hj
  · have hrunning : ∀ t, D.wait e t ≠ .running → D.wait e' t = .running := by
      intro t hwait
      by_contra hne
      exact he (D.one hwait hne)
    rw [update_of_ne he]
    refine (h e').congr fun j => ?_
    by_cases hj : j = i
    · rw [hj, waitOn_update_self, waitOn_eq htask, hrunning t (by rw [hold]; decide),
        hrunning t' (by rw [hnew]; decide)]
    · exact waitOn_update_of_ne hj

end

/-! ## The tasks a step is not about -/

theorem others_put : D.Others task i (update task i (some t)) :=
  fun _ hj => .inl (update_of_ne hj _ _)

theorem QueuesOk.others_wake (h : D.QueuesOk wq task) (e : ε) :
    D.Others task i (update (D.wakeAll (wq e).list task) i (some t)) := by
  intro j hj
  rw [update_of_ne hj]
  by_cases hmem : j ∈ (wq e).list
  · have hasleep := ((h e).listed j).mpr hmem
    obtain ⟨t, htask, hwait⟩ := exists_of_waitOn (by rw [hasleep]; decide)
    refine .inr ⟨e, t, htask, hwait.symm.trans hasleep, ?_⟩
    rw [wakeAll, if_pos hmem, htask]
    rfl
  · exact .inl (wakeAll_of_not_mem hmem)

section

variable (h : D.Others task i task') (hj : j ≠ i)
include h hj

/-- A task that has not just been woken is as it was. -/
theorem Others.back (htask : task' j = some t)
    (hawake : ∀ t₀, t ≠ D.wake t₀) : task j = some t := by
  rcases h j hj with heq | ⟨e, t₀, -, -, heq⟩
  · exact heq ▸ htask
  · exact absurd (Option.some_inj.mp (htask.symm.trans heq)) (hawake t₀)

/-- A task that does not sleep stays as it is. -/
theorem Others.keep (htask : task j = some t)
    (hawake : ∀ e, D.wait e t ≠ .asleep) : task' j = some t := by
  rcases h j hj with heq | ⟨e, t₀, htask₀, hasleep, -⟩
  · exact heq.trans htask
  · cases htask.symm.trans htask₀
    exact absurd hasleep (hawake e)

theorem Others.waitOn
    (hwait : D.waitOn task' e j ≠ .running) : D.waitOn task e j ≠ .running := by
  rcases h j hj with heq | ⟨e₀, t₀, -, -, heq⟩
  · rwa [waitOn_congr heq] at hwait
  · refine absurd ?_ hwait
    rw [waitOn_eq heq, D.wait_wake]

end

end Discipline

end WaitQueue

end Osx64
