import Mathlib.Data.Finset.Card
import Mathlib.Data.Multiset.Range
import Osx64.Task.Sched

/-!
# Mutexes and read-write locks

`lib/lock.c` without the scheduler: who holds a lock, and who is inside a call of it.  A section
under `queue_lock` or `lock` is one step, and so is an attempt in the loop of `mutex_lock`.

`mutex_unlock` opens the mutex and takes the first task out of the queue, but that task has to
try again, and any other may come first.  Nobody is forgotten all the same: a task joins the
queue only while the mutex is held, and it is left there with the mutex open only if another has
been taken out and still tries.

The readers are counted in an `int`, and no caller takes a lock for reading twice.  Every task
has its PCB, so the memory bounds their number and the count does not overflow.
-/

namespace Osx64.Task

open Relation Multiset Bool Int

/-! ## Mutexes -/

/-- A mutex, with the tasks taken out of its queue that are still in `mutex_lock`, and those
that hold it. -/
structure MutexUse extends Mutex where
  woken : Multiset Nat
  holding : Multiset Nat

inductive MutexCall where
  | lock (t : Nat)
  | trylock (t : Nat)
  /-- `__sync_lock_test_and_set`, in the loop of `mutex_lock` -/
  | retry (t : Nat)
  | unlock (t : Nat)

namespace MutexUse

variable (mu : MutexUse)

/-- `__sync_bool_compare_and_swap`, when it finds 0 -/
def take (t : Nat) : MutexUse := { mu with locked := true, holding := t ::ₘ mu.holding }

/-- The list entry of a waiting task is on its stack, so a task in the call is in it once. -/
def Possible : MutexCall → Prop
  | .lock t | .trylock t => t ∉ mu.waitQueue ∧ t ∉ mu.woken
  | .retry t => t ∈ mu.woken
  | .unlock t => t ∈ mu.holding ∧ t ∉ mu.waitQueue ∧ t ∉ mu.woken

def exec : MutexCall → MutexUse
  | .lock t => if mu.locked then { mu with waitQueue := mu.waitQueue ++ [t] } else mu.take t
  | .trylock t => if mu.locked then mu else mu.take t
  | .retry t => if mu.locked then mu else { mu.take t with woken := mu.woken.erase t }
  | .unlock t =>
    { locked := false
      waitQueue := mu.waitQueue.tail
      woken := mu.waitQueue.head?.elim mu.woken (· ::ₘ mu.woken)
      holding := mu.holding.erase t }

/-- `mutex_init` -/
def init : MutexUse := ⟨⟨false, []⟩, 0, 0⟩

/-- At most one task holds the mutex, it is locked exactly then, and nobody is stranded. -/
structure Ok : Prop where
  holder : mu.holding.card = mu.locked.toNat
  progress : mu.waitQueue ≠ [] → mu.holding ≠ 0 ∨ mu.woken ≠ 0

variable {mu}

theorem Ok.take (h : mu.Ok) (hfree : mu.locked = false) (t : Nat) : (mu.take t).Ok := by
  refine ⟨?_, fun _ => .inl (cons_ne_zero)⟩
  simp [MutexUse.take, h.holder, hfree]

theorem Ok.exec (h : mu.Ok) {call : MutexCall} (hcall : mu.Possible call) : (mu.exec call).Ok := by
  have hlocked : mu.locked = true → mu.holding ≠ 0 := by
    intro hlock hnone
    have := h.holder
    simp [hlock, hnone] at this
  cases call with
  | lock t =>
    cases hfree : mu.locked with
    | false => simpa [MutexUse.exec, hfree] using h.take hfree t
    | true =>
      simp only [MutexUse.exec, hfree, if_true]
      exact ⟨h.holder.trans (by rw [hfree]), fun _ => .inl (hlocked hfree)⟩
  | trylock t =>
    cases hfree : mu.locked with
    | false => simpa [MutexUse.exec, hfree] using h.take hfree t
    | true => simpa [MutexUse.exec, hfree] using h
  | retry t =>
    cases hfree : mu.locked with
    | false =>
      simp only [MutexUse.exec, hfree, false_eq_true, if_false]
      exact ⟨(h.take hfree t).holder, fun _ => .inl cons_ne_zero⟩
    | true => simpa [MutexUse.exec, hfree] using h
  | unlock t =>
    have hone := h.holder.trans_le (toNat_le _)
    have hleft := card_erase_add_one hcall.1
    refine ⟨?_, ?_⟩
    · simp only [MutexUse.exec, toNat_false]
      omega
    · -- whoever stays in the queue stays behind the task that is taken out
      intro hne
      cases hq : mu.waitQueue with
      | nil => simp [MutexUse.exec, hq] at hne
      | cons w rest => exact .inr (by simp [MutexUse.exec, hq])

end MutexUse

/-! ## Read-write locks -/

/-- `rwlock_t`, with a copy of a task for each `read_lock` and `write_lock` that it has not
undone. -/
structure RwLock where
  readers : Int
  writer : Bool
  reading : Multiset Nat
  writing : Multiset Nat

inductive RwCall where
  | readLock (t : Nat)
  | readUnlock (t : Nat)
  | writeLock (t : Nat)
  | writeUnlock (t : Nat)

/-- `DEFAULT_PCB_SIZE` -/
def defaultPcbSize : Nat := 16 * 1024

/-- `MAX_MEM_SUPPORTED` -/
def maxMemSupported : Nat := 2 ^ 40

namespace RwLock

variable (tasks : Finset Nat) (rw : RwLock)

def Possible : RwCall → Prop
  | .readLock t => t ∈ tasks ∧ t ∉ rw.reading
  | .writeLock t => t ∈ tasks
  | .readUnlock t => t ∈ rw.reading
  | .writeUnlock t => t ∈ rw.writing

/-- One round of the loops of `read_lock` and `write_lock`, and the unlocks. -/
def exec : RwCall → RwLock
  | .readLock t =>
    if rw.writer then rw
    else { rw with readers := bmod (rw.readers + 1) (2 ^ 32), reading := t ::ₘ rw.reading }
  | .readUnlock t =>
    { rw with readers := bmod (rw.readers - 1) (2 ^ 32), reading := rw.reading.erase t }
  | .writeLock t =>
    if !rw.writer && rw.readers = 0 then { rw with writer := true, writing := t ::ₘ rw.writing }
    else rw
  | .writeUnlock t => { rw with writer := false, writing := rw.writing.erase t }

/-- `rwlock_init` -/
def init : RwLock := ⟨0, false, 0, 0⟩

structure Ok : Prop where
  reader : ∀ t ∈ rw.reading, t ∈ tasks
  nodup : rw.reading.Nodup
  readers : rw.readers = rw.reading.card
  writer : rw.writing.card = rw.writer.toNat
  apart : rw.writing ≠ 0 → rw.reading = 0

variable {tasks rw}

theorem Ok.card_le (h : rw.Ok tasks) : rw.reading.card ≤ tasks.card :=
  Multiset.card_le_card ((Multiset.le_iff_subset h.nodup).mpr fun t ht => h.reader t ht)

theorem Ok.exec (h : rw.Ok tasks) (hfew : tasks.card < 2 ^ 31) {call : RwCall}
    (hcall : rw.Possible tasks call) : (rw.exec call).Ok tasks := by
  have hle := h.card_le
  obtain ⟨hreader, hnodup, hreaders, hwriter, hapart⟩ := h
  cases call with
  | readLock t =>
    cases hw : rw.writer with
    | true => simpa [RwLock.exec, hw] using ⟨hreader, hnodup, hreaders, hwriter, hapart⟩
    | false =>
      have hnone : rw.writing = 0 := by simpa [hw] using hwriter
      have hmem : ∀ u ∈ t ::ₘ rw.reading, u ∈ tasks := by
        simpa using ⟨hcall.1, hreader⟩
      have hnodup' : (t ::ₘ rw.reading).Nodup := nodup_cons.mpr ⟨hcall.2, hnodup⟩
      have hle' := Multiset.card_le_card ((Multiset.le_iff_subset hnodup').mpr hmem)
      simp only [RwLock.exec, hw, false_eq_true, if_false]
      refine ⟨hmem, hnodup', ?_, by simpa [hw] using hwriter, fun hsome => absurd hnone hsome⟩
      rw [card_cons] at hle'
      simp only [hreaders, card_cons, bmod_def]
      have : tasks.val.card < 2 ^ 31 := hfew
      omega
  | readUnlock t =>
    have hleft := card_erase_add_one hcall
    refine ⟨fun u hu => hreader u (mem_of_mem_erase hu), hnodup.erase t, ?_, hwriter,
      fun hsome => ?_⟩
    · simp only [RwLock.exec, hreaders, ← hleft, bmod_def]
      omega
    · simp [RwLock.exec, hapart hsome]
  | writeLock t =>
    by_cases hfree : rw.writer = false ∧ rw.readers = 0
    · have hnone : rw.reading = 0 := by simpa [hfree.2] using hreaders.symm
      have hexec : rw.exec (.writeLock t) =
          { rw with writer := true, writing := t ::ₘ rw.writing } := by
        simp [RwLock.exec, hfree]
      rw [hexec]
      exact ⟨hreader, hnodup, hreaders, by simp [hwriter, hfree.1], fun _ => hnone⟩
    · simpa [RwLock.exec, hfree] using ⟨hreader, hnodup, hreaders, hwriter, hapart⟩
  | writeUnlock t =>
    have hone := hwriter.trans_le (toNat_le _)
    have hleft := card_erase_add_one hcall
    have hnone : (rw.writing.erase t).card = 0 := by omega
    exact ⟨hreader, hnodup, hreaders, hnone, fun hsome => absurd (card_eq_zero.mp hnone) hsome⟩

end RwLock

/-- Both locks exclude and a mutex strands nobody, in any run of as many tasks as the memory has
room for. -/
theorem locks_exclude {tasks : Finset Nat} {mu : MutexUse} {rw : RwLock}
    (hroom : tasks.card * defaultPcbSize ≤ maxMemSupported)
    (hmu : ReflTransGen (fun mu mu' => ∃ call, mu.Possible call ∧ mu.exec call = mu') .init mu)
    (hrw : ReflTransGen (fun rw rw' => ∃ call, rw.Possible tasks call ∧
      rw.exec call = rw') .init rw) :
    mu.Ok ∧ rw.Ok tasks := by
  constructor
  · induction hmu with
    | refl => exact ⟨rfl, fun hne => absurd rfl hne⟩
    | tail _ hstep ih =>
      obtain ⟨call, hcall, rfl⟩ := hstep
      exact ih.exec hcall
  · have hfew : tasks.card < 2 ^ 31 := by
      unfold defaultPcbSize maxMemSupported at hroom
      omega
    induction hrw with
    | refl =>
      exact ⟨fun t ht => absurd ht (notMem_zero t), nodup_zero, rfl, rfl, fun hne => absurd rfl hne⟩
    | tail _ hstep ih =>
      obtain ⟨call, hcall, rfl⟩ := hstep
      exact ih.exec hfew hcall

/-- Task 0 holds the mutex and task 1 waits for it; both read. -/
theorem locks_exclude_taken :
    ((MutexUse.init.exec (.lock 0)).exec (.lock 1)).Ok ∧
      ((RwLock.init.exec (.readLock 0)).exec (.readLock 1)).Ok {0, 1} :=
  locks_exclude (by simp [defaultPcbSize, maxMemSupported])
    (.tail (.single ⟨.lock 0, ⟨List.not_mem_nil, notMem_zero 0⟩, rfl⟩)
      ⟨.lock 1, ⟨List.not_mem_nil, notMem_zero 1⟩, rfl⟩)
    (.tail (.single ⟨.readLock 0, ⟨by decide, by decide⟩, rfl⟩)
      ⟨.readLock 1, ⟨by decide, by decide⟩, rfl⟩)

end Osx64.Task
