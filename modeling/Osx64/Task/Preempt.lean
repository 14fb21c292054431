import Mathlib.Data.Finset.Card
import Osx64.Lib.Run
import Osx64.Task.RunQueue

/-!
# Who is running, and who may not be interrupted

A task that holds a spinlock must not be switched away by the timer.  `spin_lock` therefore adds
one to the `preempt_count` of the current task and `spin_unlock` takes one off (`lib/lock.c`,
`task.h`), and `timer_intr_soft` does nothing while the count of the current task is positive.

The current task is found in two loads: the number of the CPU, and `now_running` of that CPU.
Here each of them is a step, and so is each change of a count and of a lock.  A timer tick or the
load balancing of another CPU can come between any two of them.  Interrupts that are switched off
keep the tick away; a switch with which a task gives up its CPU is one step, since it is done
with interrupts off.
-/

namespace Osx64.Task

open Function Finset Option

/-- The spinlocks: those of the ready lists, and all others. -/
inductive Lock where
  | ready (c : Nat)
  | other (n : Nat)
deriving DecidableEq

/-- What the current task is wanted for. -/
inductive Purpose where
  /-- `get_current` itself -/
  | call
  /-- `preempt_disable` in `spin_lock` -/
  | disable (l : Lock)
  /-- `preempt_enable` in `spin_unlock` -/
  | enable
deriving DecidableEq

/-- Where a task is. -/
inductive Pc where
  | between
  /-- `spin_unlock` has opened the lock -/
  | released
  /-- `get_current` has the number of the CPU -/
  | gotId (d : Nat) (p : Purpose)
  /-- `get_current` has returned a task -/
  | gotCurrent (u : Nat) (p : Purpose)
  /-- `spin_lock` has changed the count and tries to take the lock -/
  | spinning (l : Lock)
deriving DecidableEq

/-- By how much the count is ahead of the locks. -/
def Pc.pending : Pc → Int
  | .released | .gotId _ .enable | .gotCurrent _ .enable | .spinning _ => 1
  | _ => 0

/-- The task is between the two loads of `get_current`. -/
def Pc.isGotId : Pc → Bool
  | .gotId .. => true
  | _ => false

/-- `held` are the locks a task has taken; the source has only the flag of each lock. -/
structure Smp where
  rq : RunQueue
  wq : Nat → List Nat
  live : Finset Nat
  pc : Nat → Pc
  preemptCount : Nat → Int
  locked : Lock → Bool
  held : Nat → Finset Lock
  intrOff : Nat → Bool

namespace Smp

variable (st : Smp)

def current (c : Nat) : Nat := (st.rq.cpu c).nowRunning

def setPc (t : Nat) (pc : Pc) : Smp := { st with pc := update st.pc t pc }

def addCount (t : Nat) (n : Int) : Smp :=
  { st with preemptCount := update st.preemptCount t (st.preemptCount t + n) }

/-- The lock is taken for a task. -/
def take (t : Nat) (l : Lock) : Smp :=
  { st with
    locked := update st.locked l true
    held := update st.held t (insert l (st.held t)) }

/-- The lock of a task is opened. -/
def drop (t : Nat) (l : Lock) : Smp :=
  { st with
    locked := update st.locked l false
    held := update st.held t ((st.held t).erase l) }

/-- What is done with the task that `get_current` has returned. -/
def useCurrent (t u : Nat) : Purpose → Smp
  | .call => st.setPc t .between
  | .disable l => (st.addCount u 1).setPc t (.spinning l)
  | .enable => (st.addCount u (-1)).setPc t .between

/-- `task_switch_unlock`, without the stacks -/
def switchUnlock (c : Nat) : Smp := (st.addCount (st.current c) (-1)).drop (st.current c) (.ready c)

/-- `task_switch_double_unlock`, without the stacks -/
def switchDoubleUnlock (c l : Nat) : Smp :=
  ((st.addCount (st.current c) (-2)).drop (st.current c) (.ready c)).drop (st.current c) (.other l)

/-- `timer_intr_soft`, without load balancing; whether the time of the task has run out is
`needSchedule`. -/
def tick (c : Nat) (needSchedule : Bool) : Smp :=
  if 0 < st.preemptCount (st.current c) then st
  else
    -- a negative count is set to zero
    let st := { st with preemptCount := update st.preemptCount (st.current c) 0 }
    if needSchedule then { st with rq := st.rq.tick c } else st

end Smp

/-! ## Steps -/

inductive SmpEvent where
  | readId (c : Nat) (p : Purpose)
  | loadCurrent (c d : Nat) (p : Purpose)
  | useCurrent (c u : Nat) (p : Purpose)
  | acquire (c : Nat) (l : Lock)
  | release (c : Nat) (l : Lock)
  /-- `io_cli` and `io_set_intr` -/
  | setIntr (c : Nat) (off : Bool)
  | tick (c : Nat) (needSchedule : Bool)
  | loadBalance (c : Nat)
  /-- `sys_yield` behind the lock of the ready list -/
  | yield (c : Nat)
  /-- `schedule` by a task that has put itself nowhere: it has ended, for instance -/
  | schedule (c : Nat)
  /-- the switch of `sleep_on` and `mutex_lock`, with the lock of the queue -/
  | sleep (c q l : Nat)
  /-- the first task of a queue is made ready -/
  | wake (q : Nat)
  | spawn (t n : Nat)

/-- `__schedule_locked` and `__schedule_other_locked` can switch: interrupts are off, and the lock
of the ready list is taken. -/
def Smp.CanSwitch (st : Smp) (c : Nat) : Prop :=
  c < st.rq.totalNum ∧ st.current c ≠ (st.rq.cpu c).idle ∧ st.pc (st.current c) = .between ∧
    st.intrOff (st.current c) = true ∧ .ready c ∈ st.held (st.current c)
deriving Decidable

def SmpEvent.Possible (st : Smp) : SmpEvent → Prop
  | .readId c p => c < st.rq.totalNum ∧
      st.pc (st.current c) = if p = .enable then .released else .between
  | .loadCurrent c d p => c < st.rq.totalNum ∧ st.pc (st.current c) = .gotId d p
  | .useCurrent c u p => c < st.rq.totalNum ∧ st.pc (st.current c) = .gotCurrent u p
  | .acquire c l => c < st.rq.totalNum ∧ st.pc (st.current c) = .spinning l ∧ st.locked l = false
  | .release c l => c < st.rq.totalNum ∧ st.pc (st.current c) = .between ∧
      l ∈ st.held (st.current c)
  | .setIntr c _ => c < st.rq.totalNum ∧ st.pc (st.current c) = .between
  | .tick c _ => c < st.rq.totalNum ∧ st.intrOff (st.current c) = false
  | .loadBalance c => c < st.rq.totalNum ∧ st.intrOff (st.current c) = false ∧
      st.preemptCount (st.current c) ≤ 0
  | .yield c | .schedule c => st.CanSwitch c
  | .sleep c _ l => st.CanSwitch c ∧ .other l ∈ st.held (st.current c)
  | .wake q => st.wq q ≠ []
  | .spawn t n => t ∉ st.live ∧ (∀ c < st.rq.totalNum, t ≠ (st.rq.cpu c).idle) ∧
      n < st.rq.totalNum ∧ st.pc t = .between ∧ st.held t = ∅

def Smp.exec (st : Smp) : SmpEvent → Smp
  | .readId c p => st.setPc (st.current c) (.gotId c p)
  | .loadCurrent c d p => st.setPc (st.current c) (.gotCurrent (st.current d) p)
  | .useCurrent c u p => st.useCurrent (st.current c) u p
  | .acquire c l => (st.take (st.current c) l).setPc (st.current c) .between
  | .release c l => (st.drop (st.current c) l).setPc (st.current c) .released
  | .setIntr c off => { st with intrOff := update st.intrOff (st.current c) off }
  | .tick c needSchedule => st.tick c needSchedule
  | .loadBalance c => { st with rq := st.rq.loadBalance c }
  | .yield c => { st.switchUnlock c with rq := st.rq.sysYield c }
  | .schedule c => { st.switchUnlock c with
      rq := st.rq.scheduleLocked c, live := st.live.erase (st.current c) }
  | .sleep c q l => { st.switchDoubleUnlock c l with
      rq := st.rq.sleep c, wq := update st.wq q (st.wq q ++ [st.current c]) }
  | .wake q => { st with
      rq := (st.wq q).head?.elim st.rq st.rq.putToReadyListFirst
      wq := update st.wq q (st.wq q).tail }
  | .spawn t n => { st with
      rq := st.rq.addToCpuNReadyList t n
      live := insert t st.live
      preemptCount := update st.preemptCount t 0
      intrOff := update st.intrOff t false }

def SmpStep (st st' : Smp) : Prop := ∃ e : SmpEvent, e.Possible st ∧ st.exec e = st'

/-- Load balancing does not move a task that is between the two loads of `get_current`. -/
def SmpEvent.Safe (st : Smp) : SmpEvent → Prop
  | .loadBalance c => ∀ t ∈ st.live, ((st.rq.loadBalance c).pcb t).cpuid = (st.rq.pcb t).cpuid ∨
      (st.pc t).isGotId = false
  | _ => True

def SafeSmpStep (st st' : Smp) : Prop :=
  ∃ e : SmpEvent, (e.Possible st ∧ e.Safe st) ∧ st.exec e = st'

/-- All CPUs have passed `cpu_task_start`. -/
def Smp.initial (totalNum : Nat) (idle : Nat → Nat) : Smp where
  rq := RunQueue.initial totalNum idle
  wq := fun _ => []
  live := ∅
  pc := fun _ => .between
  preemptCount := fun _ => 0
  locked := fun _ => false
  held := fun _ => ∅
  intrOff := fun _ => false

/-! ## The invariant -/

/-- A lock is locked while a task holds it, and one task only. -/
structure LocksOk (locked : Lock → Bool) (held : Nat → Finset Lock) : Prop where
  locked : ∀ t, ∀ l ∈ held t, locked l = true
  owner : ∀ t u l, l ∈ held t → l ∈ held u → t = u

/-- A task that has read the number of its CPU is still on that CPU, `get_current` returns the
task that calls it, and the counts are right. -/
structure Smp.Ok (st : Smp) : Prop where
  run : RunOk st.rq st.wq st.live
  idle : ∀ c < st.rq.totalNum, ∀ d < st.rq.totalNum, (st.rq.cpu c).idle = (st.rq.cpu d).idle → c = d
  gotId : ∀ t ∈ st.live, ∀ d p, st.pc t = .gotId d p → (st.rq.pcb t).cpuid = d
  idleId : ∀ c < st.rq.totalNum, ∀ d p, st.pc (st.rq.cpu c).idle = .gotId d p → d = c
  gotCurrent : ∀ t u p, st.pc t = .gotCurrent u p → u = t
  count : ∀ t, st.preemptCount t = (st.held t).card + (st.pc t).pending
  locks : LocksOk st.locked st.held

variable {u q : Nat} {rq : RunQueue} {wq : Nat → List Nat} {live : Finset Nat}

section Locks

variable {locked : Lock → Bool} {held : Nat → Finset Lock} {t : Nat} {l : Lock}

theorem mem_held_of_update {s : Finset Lock} {m : Lock}
    (hm : m ∈ update held t s u) : u = t ∧ m ∈ s ∨ u ≠ t ∧ m ∈ held u := by
  by_cases hu : u = t
  · rw [hu, update_self] at hm
    exact .inl ⟨hu, hm⟩
  · rw [update_of_ne hu] at hm
    exact .inr ⟨hu, hm⟩

/-- A free lock is held by nobody. -/
theorem LocksOk.take (h : LocksOk locked held) (hfree : locked l = false) (t : Nat) :
    LocksOk (update locked l true) (update held t (insert l (held t))) := by
  have hnone : ∀ u, l ∉ held u := fun u hu => by simp [h.locked u l hu] at hfree
  have hsub : ∀ u m, m ∈ update held t (insert l (held t)) u →
      u = t ∧ m = l ∨ m ≠ l ∧ m ∈ held u := by
    intro u m hm
    rcases mem_held_of_update hm with ⟨rfl, hmem⟩ | ⟨-, hmem⟩
    · rcases mem_insert.mp hmem with heq | hold
      · exact .inl ⟨rfl, heq⟩
      · exact .inr ⟨fun heq => hnone u (heq ▸ hold), hold⟩
    · exact .inr ⟨fun heq => hnone u (heq ▸ hmem), hmem⟩
  refine ⟨fun u m hm => ?_, fun u v m hu hv => ?_⟩
  · rcases hsub u m hm with ⟨-, rfl⟩ | ⟨hne, hmem⟩
    · exact update_self ..
    · rw [update_of_ne hne]
      exact h.locked u m hmem
  · rcases hsub u m hu with ⟨hut, hm⟩ | ⟨hne, hmem⟩
    · rcases hsub v m hv with ⟨hvt, -⟩ | ⟨hne, -⟩
      · exact hut.trans hvt.symm
      · exact absurd hm hne
    · rcases hsub v m hv with ⟨-, hm⟩ | ⟨-, hmem'⟩
      · exact absurd hm hne
      · exact h.owner u v m hmem hmem'

theorem LocksOk.drop (h : LocksOk locked held) (hl : l ∈ held t) :
    LocksOk (update locked l false) (update held t ((held t).erase l)) := by
  have hsub : ∀ u m, m ∈ update held t ((held t).erase l) u → m ∈ held u ∧ m ≠ l := by
    intro u m hm
    rcases mem_held_of_update hm with ⟨rfl, hm⟩ | ⟨hut, hm⟩
    · exact ⟨mem_of_mem_erase hm, ne_of_mem_erase hm⟩
    · exact ⟨hm, fun heq => hut (h.owner u t l (heq ▸ hm) hl)⟩
  refine ⟨fun u m hm => ?_, fun u v m hu hv => h.owner u v m (hsub u m hu).1 (hsub v m hv).1⟩
  obtain ⟨hmem, hne⟩ := hsub u m hm
  rw [update_of_ne hne]
  exact h.locked u m hmem

end Locks

section Steps

variable {st st' : Smp} {c d t : Nat} {l : Lock} {p : Purpose}

theorem Smp.ok_initial (totalNum : Nat) {idle : Nat → Nat} (hidle : Function.Injective idle) :
    (initial totalNum idle).Ok where
  run := runOk_initial totalNum idle
  idle _ _ _ _ heq := hidle heq
  gotId t ht := absurd ht (notMem_empty t)
  idleId _ _ _ _ hpc := nomatch hpc
  gotCurrent _ _ _ hpc := nomatch hpc
  count _ := rfl
  locks := ⟨fun _ l hl => absurd hl (notMem_empty l),
    fun _ _ l hl => absurd hl (notMem_empty l)⟩

section

variable (h : st.Ok)
include h

/-- The current task of a CPU is its idle task, or a task that has this CPU as `cpuid`. -/
theorem Smp.Ok.current_cases (hc : c < st.rq.totalNum) :
    st.current c = (st.rq.cpu c).idle ∨ st.current c ∈ st.live ∧
    (st.rq.pcb (st.current c)).cpuid = c := by
  by_cases hcur : st.current c = (st.rq.cpu c).idle
  · exact .inl hcur
  · exact .inr (h.run.current_mem hc hcur).2

/-- The number that the current task has read is that of its CPU. -/
theorem Smp.Ok.gotId_current (hc : c < st.rq.totalNum)
    (hpc : st.pc (st.current c) = .gotId d p) : d = c := by
  rcases h.current_cases hc with hidle | ⟨hlive, hcpuid⟩
  · rw [hidle] at hpc
    exact h.idleId c hc d p hpc
  · rw [← hcpuid]
    exact (h.gotId _ hlive d p hpc).symm

/-- The current task moves on, and the others and the ready lists stay as they are. -/
theorem Smp.Ok.act (pc : Pc) (hc : c < st.rq.totalNum) (hrq : st'.rq = st.rq)
    (hwq : st'.wq = st.wq) (hlive : st'.live = st.live)
    (hpc : st'.pc = update st.pc (st.current c) pc) (hgotId : ∀ d p, pc = .gotId d p → d = c)
    (hgotCurrent : ∀ u p, pc = .gotCurrent u p → u = st.current c)
    (hcount : st'.preemptCount (st.current c) = (st'.held (st.current c)).card + pc.pending)
    (hcounts : ∀ t, t ≠ st.current c → st'.preemptCount t = st.preemptCount t)
    (hheld : ∀ t, t ≠ st.current c → st'.held t = st.held t)
    (hlocks : LocksOk st'.locked st'.held) : st'.Ok := by
  have hself : st'.pc (st.current c) = pc := by rw [hpc, update_self]
  have hother : ∀ t, t ≠ st.current c → st'.pc t = st.pc t := by
    intro t ht
    rw [hpc, update_of_ne ht]
  refine ⟨hrq ▸ hwq ▸ hlive ▸ h.run, hrq ▸ h.idle, fun t ht d p htpc => ?_, fun e he d p htpc => ?_,
    fun t u p htpc => ?_, fun t => ?_, hlocks⟩
  · rw [hrq]
    rw [hlive] at ht
    by_cases heq : t = st.current c
    · rw [heq, hself] at htpc
      rw [hgotId d p htpc, heq]
      rcases h.current_cases hc with hidle | ⟨-, hcpuid⟩
      · exact absurd (hidle ▸ heq ▸ ht) (h.run.idle c hc)
      · exact hcpuid
    · rw [hother t heq] at htpc
      exact h.gotId t ht d p htpc
  · rw [hrq] at he htpc
    by_cases heq : (st.rq.cpu e).idle = st.current c
    · rw [heq, hself] at htpc
      rw [hgotId d p htpc]
      rcases h.current_cases hc with hidle | ⟨hmem, -⟩
      · exact h.idle c hc e he (hidle ▸ heq.symm)
      · exact absurd (heq ▸ hmem) (h.run.idle e he)
    · rw [hother _ heq] at htpc
      exact h.idleId e he d p htpc
  · by_cases heq : t = st.current c
    · rw [heq, hself] at htpc
      rw [hgotCurrent u p htpc, heq]
    · rw [hother t heq] at htpc
      exact h.gotCurrent t u p htpc
  · by_cases heq : t = st.current c
    · rw [heq, hself, hcount]
    · rw [hother t heq, hcounts t heq, hheld t heq]
      exact h.count t

/-- Tasks change their places, and go on where they were. -/
theorem Smp.Ok.reschedule (hrun : RunOk rq wq live) (hsteady : Steady st.rq rq)
    (hgotId : ∀ t ∈ live, ∀ d p, st.pc t = .gotId d p → (rq.pcb t).cpuid = d) :
    Smp.Ok { st with rq := rq, wq := wq, live := live } where
  run := hrun
  idle c hc d hd heq := by
    rw [hsteady.totalNum] at hc hd
    rw [hsteady.idle, hsteady.idle] at heq
    exact h.idle c hc d hd heq
  gotId := hgotId
  idleId c hc d p hpc := by
    rw [hsteady.totalNum] at hc
    rw [hsteady.idle] at hpc
    exact h.idleId c hc d p hpc
  gotCurrent := h.gotCurrent
  count := h.count
  locks := h.locks

/-- A switch after which all tasks have their `cpuid` is no harm. -/
theorem Smp.Ok.reschedule_of_cpuid (hrun : RunOk rq wq live) (hsteady : Steady st.rq rq)
    (hsub : live ⊆ st.live) (hcpuid : ∀ t ∈ live, (rq.pcb t).cpuid = (st.rq.pcb t).cpuid) :
    Smp.Ok { st with rq := rq, wq := wq, live := live } := by
  refine h.reschedule hrun hsteady fun t ht d p hpc => ?_
  rw [hcpuid t ht]
  exact h.gotId t (hsub ht) d p hpc

/-! ### The locks that a switch opens -/

theorem Smp.Ok.switchUnlock (hcan : st.CanSwitch c) : (st.switchUnlock c).Ok := by
  obtain ⟨hc, -, hpc, -, hready⟩ := hcan
  refine h.act .between hc rfl rfl rfl ?_ nofun nofun ?_ (fun t ht => ?_) (fun t ht => ?_)
    (h.locks.drop hready)
  · rw [← hpc, update_eq_self]
    rfl
  · have hcount := h.count (st.current c)
    have hcard := card_erase_add_one hready
    simp only [Smp.switchUnlock, Smp.drop, Smp.addCount, update_self, hpc] at hcount ⊢
    omega
  · exact update_of_ne ht _ _
  · exact update_of_ne ht _ _

theorem Smp.Ok.switchDoubleUnlock {l : Nat} (hcan : st.CanSwitch c)
    (hother : .other l ∈ st.held (st.current c)) : (st.switchDoubleUnlock c l).Ok := by
  obtain ⟨hc, -, hpc, -, hready⟩ := hcan
  have hother' : .other l ∈ (st.held (st.current c)).erase (.ready c) :=
    mem_erase.mpr ⟨nofun, hother⟩
  have hlocks := h.locks.drop hready
  refine h.act .between hc rfl rfl rfl ?_ nofun nofun ?_ (fun t ht => ?_) (fun t ht => ?_)
    (hlocks.drop (t := st.current c) (l := .other l) ?_)
  · rw [← hpc, update_eq_self]
    rfl
  · have hcount := h.count (st.current c)
    have hcard := card_erase_add_one hready
    have hcard' := card_erase_add_one hother'
    simp only [Smp.switchDoubleUnlock, Smp.drop, Smp.addCount, update_self, hpc] at hcount ⊢
    omega
  · exact update_of_ne ht _ _
  · exact (update_of_ne ht _ _).trans (update_of_ne ht _ _)
  · rw [update_self]
    exact hother'

/-! ### Each step -/

theorem Smp.Ok.readId (hstep : (SmpEvent.readId c p).Possible st) :
    (st.exec (.readId c p)).Ok := by
  obtain ⟨hc, hpc⟩ := hstep
  refine h.act _ hc rfl rfl rfl rfl (fun d q heq => ?_) nofun ?_ (fun _ _ => rfl)
    (fun _ _ => rfl) h.locks
  · cases heq
    rfl
  · change st.preemptCount (st.current c) = _
    rw [h.count, hpc]
    cases p <;> rfl

theorem Smp.Ok.loadCurrent (hstep : (SmpEvent.loadCurrent c d p).Possible st) :
    (st.exec (.loadCurrent c d p)).Ok := by
  obtain ⟨hc, hpc⟩ := hstep
  obtain rfl := h.gotId_current hc hpc
  refine h.act _ hc rfl rfl rfl rfl nofun (fun u q heq => ?_) ?_ (fun _ _ => rfl)
    (fun _ _ => rfl) h.locks
  · cases heq
    rfl
  · change st.preemptCount (st.current d) = _
    rw [h.count, hpc]
    cases p <;> rfl

theorem Smp.Ok.useCurrent (hstep : (SmpEvent.useCurrent c u p).Possible st) :
    (st.exec (.useCurrent c u p)).Ok := by
  obtain ⟨hc, hpc⟩ := hstep
  obtain rfl := h.gotCurrent _ u p hpc
  have hcount := h.count (st.current c)
  rw [hpc] at hcount
  cases p with
  | call =>
    exact h.act _ hc rfl rfl rfl rfl nofun nofun hcount (fun _ _ => rfl) (fun _ _ => rfl) h.locks
  | disable l =>
    refine h.act _ hc rfl rfl rfl rfl nofun nofun ?_ (fun t ht => update_of_ne ht _ _)
      (fun _ _ => rfl) h.locks
    simp only [Smp.exec, Smp.useCurrent, Smp.setPc, Smp.addCount, update_self]
    rw [hcount]
    simp only [Pc.pending, Int.add_zero]
  | enable =>
    refine h.act _ hc rfl rfl rfl rfl nofun nofun ?_ (fun t ht => update_of_ne ht _ _)
      (fun _ _ => rfl) h.locks
    simp only [Smp.exec, Smp.useCurrent, Smp.setPc, Smp.addCount, update_self]
    rw [hcount]
    simp only [Pc.pending]
    omega

theorem Smp.Ok.acquire (hstep : (SmpEvent.acquire c l).Possible st) :
    (st.exec (.acquire c l)).Ok := by
  obtain ⟨hc, hpc, hfree⟩ := hstep
  have hnew : l ∉ st.held (st.current c) := fun hl => by simp [h.locks.locked _ l hl] at hfree
  refine h.act _ hc rfl rfl rfl rfl nofun nofun ?_ (fun _ _ => rfl)
    (fun t ht => update_of_ne ht _ _) (h.locks.take hfree _)
  have hcount := h.count (st.current c)
  have hcard := card_insert_of_notMem hnew
  simp only [Smp.exec, Smp.setPc, Smp.take, update_self, hpc, Pc.pending] at hcount ⊢
  omega

theorem Smp.Ok.release (hstep : (SmpEvent.release c l).Possible st) :
    (st.exec (.release c l)).Ok := by
  obtain ⟨hc, hpc, hmem⟩ := hstep
  refine h.act _ hc rfl rfl rfl rfl nofun nofun ?_ (fun _ _ => rfl)
    (fun t ht => update_of_ne ht _ _) (h.locks.drop hmem)
  have hcount := h.count (st.current c)
  have hcard := card_erase_add_one hmem
  simp only [Smp.exec, Smp.setPc, Smp.drop, update_self, hpc, Pc.pending] at hcount ⊢
  omega

end

theorem Pc.pending_nonneg (pc : Pc) : 0 ≤ pc.pending := by
  unfold Pc.pending
  split <;> decide

section

variable (h : st.Ok)
include h

/-- A tick never finds a negative count. -/
theorem Smp.Ok.tick (hc : c < st.rq.totalNum) (needSchedule : Bool) :
    (st.tick c needSchedule).Ok := by
  unfold Smp.tick
  split
  · exact h
  next hpos =>
  have hzero : st.preemptCount (st.current c) = 0 := by
    have hcount := h.count (st.current c)
    have hpending := (st.pc (st.current c)).pending_nonneg
    omega
  rw [← hzero, update_eq_self]
  cases needSchedule with
  | false => exact h
  | true =>
    exact h.reschedule_of_cpuid (h.run.tick hc) (steady_tick st.rq c) (Finset.Subset.refl _)
      fun t ht => h.run.cpuid_tick hc ht

theorem Smp.Ok.loadBalance (hc : c < st.rq.totalNum)
    (hsafe : (SmpEvent.loadBalance c).Safe st) : (st.exec (.loadBalance c)).Ok := by
  refine h.reschedule (h.run.loadBalance hc) (steady_loadBalance st.rq c) fun t ht d p hpc => ?_
  rcases hsafe t ht with hcpuid | hnot
  · rw [hcpuid]
    exact h.gotId t ht d p hpc
  · rw [hpc] at hnot
    cases hnot

theorem Smp.Ok.yield (hcan : st.CanSwitch c) : (st.exec (.yield c)).Ok := by
  have hc := hcan.1
  have hcur := hcan.2.1
  exact (h.switchUnlock hcan).reschedule_of_cpuid (h.run.sysYield hc hcur) (steady_sysYield st.rq c)
    (Finset.Subset.refl _) fun t ht => h.run.cpuid_sysYield hc hcur ht

theorem Smp.Ok.schedule (hcan : st.CanSwitch c) : (st.exec (.schedule c)).Ok := by
  have hc := hcan.1
  have hcur := hcan.2.1
  have hvacant := h.run.drop hc hcur
  exact (h.switchUnlock hcan).reschedule_of_cpuid (hvacant.scheduleLocked hc)
    ((Steady.refl st.rq).scheduleLocked c) (erase_subset _ _)
    fun t ht => hvacant.cpuid_scheduleLocked hc ht

theorem Smp.Ok.sleep {l : Nat} (hstep : (SmpEvent.sleep c q l).Possible st) :
    (st.exec (.sleep c q l)).Ok := by
  obtain ⟨hcan, hother⟩ := hstep
  have hc := hcan.1
  have hcur := hcan.2.1
  have hwq : (update st.wq q (st.wq q ++ [st.current c]) q).Perm (st.current c :: st.wq q) := by
    rw [update_self]
    exact List.perm_append_singleton _ _
  have hrest : ∀ v, v ≠ q → update st.wq q (st.wq q ++ [st.current c]) v = st.wq v :=
    fun v hv => update_of_ne hv _ _
  refine (h.switchDoubleUnlock hcan hother).reschedule_of_cpuid (h.run.sleep hc hcur hwq hrest)
    (steady_sleep st.rq c) (Finset.Subset.refl _) fun t ht => ?_
  rw [RunQueue.sleep, (h.run.leave hc hcur _ hwq hrest).cpuid_scheduleLocked hc ht, cpuid_setState]
  rfl

theorem Smp.Ok.wake (hstep : (SmpEvent.wake q).Possible st) :
    (st.exec (.wake q)).Ok := by
  obtain ⟨t, rest, hqueue⟩ := List.exists_cons_of_ne_nil hstep
  simp only [Smp.exec, hqueue, List.head?_cons, elim_some, List.tail_cons]
  refine h.reschedule_of_cpuid (RunOk.putToReadyListFirst (w := q) h.run ?_ fun v hv => ?_)
    (steady_putToReadyListFirst st.rq t) (Finset.Subset.refl _) fun u _ => cpuid_putToReadyListFirst
  · rw [hqueue, update_self]
  · exact update_of_ne hv _ _

/-- A task that has just been made has no locks, and its count is zero. -/
theorem Smp.Ok.spawn {n : Nat} (hstep : (SmpEvent.spawn t n).Possible st) :
    (st.exec (.spawn t n)).Ok := by
  obtain ⟨hnew, hidle, hn, hpc, hheld⟩ := hstep
  have hzero : st.preemptCount t = 0 := by
    rw [h.count t, hpc, hheld]
    rfl
  have hnext : Smp.Ok { st with
      rq := st.rq.addToCpuNReadyList t n, wq := st.wq, live := insert t st.live } := by
    refine h.reschedule (h.run.addToCpuNReadyList hnew hidle hn)
      (steady_addToCpuNReadyList st.rq t n)
      fun u hu d p hupc => ?_
    rcases mem_insert.mp hu with rfl | hu
    · rw [hpc] at hupc
      cases hupc
    · have hne : u ≠ t := fun heq => hnew (heq ▸ hu)
      rw [RunQueue.addToCpuNReadyList, RunQueue.pushFront, pcb_setCpu, pcb_setPcb, if_neg hne]
      exact h.gotId u hu d p hupc
  simp only [Smp.exec]
  rw [← hzero, update_eq_self]
  exact { hnext with }

theorem Smp.Ok.step (hstep : SafeSmpStep st st') : st'.Ok := by
  obtain ⟨e, ⟨hpossible, hsafe⟩, rfl⟩ := hstep
  cases e with
  | readId c p => exact h.readId hpossible
  | loadCurrent c d p => exact h.loadCurrent hpossible
  | useCurrent c u p => exact h.useCurrent hpossible
  | acquire c l => exact h.acquire hpossible
  | release c l => exact h.release hpossible
  | setIntr c off => exact { h with }
  | tick c needSchedule => exact h.tick hpossible.1 needSchedule
  | loadBalance c => exact h.loadBalance hpossible.1 hsafe
  | yield c => exact h.yield hpossible
  | schedule c => exact h.schedule hpossible
  | sleep c q l => exact h.sleep hpossible
  | wake q => exact h.wake hpossible
  | spawn t n => exact h.spawn hpossible

end

end Steps

/-! ## Runs -/

variable {totalNum : Nat} {idle : Nat → Nat}

theorem smpOk_of_safe_run {st : Smp} (hidle : Function.Injective idle)
    (h : Relation.ReflTransGen SafeSmpStep (Smp.initial totalNum idle) st) : st.Ok := by
  induction h with
  | refl => exact Smp.ok_initial totalNum hidle
  | tail _ hstep ih => exact ih.step hstep

/-- `get_current` returns its caller, the counts are the numbers of locks, and a tick leaves a
task that holds a lock where it is. -/
theorem not_preempted_of_safe_run {st : Smp} (hidle : Function.Injective idle)
    (h : Relation.ReflTransGen SafeSmpStep (Smp.initial totalNum idle) st) :
    (∀ t u p, st.pc t = .gotCurrent u p → u = t) ∧
      (∀ t, st.pc t = .between → st.preemptCount t = (st.held t).card) ∧
      ∀ c needSchedule, st.held (st.current c) ≠ ∅ → (st.tick c needSchedule).rq = st.rq := by
  have hok := smpOk_of_safe_run hidle h
  refine ⟨hok.gotCurrent, fun t hpc => ?_, fun c needSchedule hheld => ?_⟩
  · rw [hok.count t, hpc]
    exact Int.add_zero _
  · have hcard := card_pos.mpr (nonempty_iff_ne_empty.mpr hheld)
    have hcount := hok.count (st.current c)
    have hpending := (st.pc (st.current c)).pending_nonneg
    rw [Smp.tick, if_pos]
    omega

/-! ## Runs of a list of events -/

instance SmpEvent.decidablePossible (st : Smp) : (e : SmpEvent) → Decidable (e.Possible st)
  | .readId .. | .loadCurrent .. | .useCurrent .. | .acquire .. | .release ..
    | .setIntr .. | .tick ..
  | .loadBalance _ | .sleep .. | .spawn .. => inferInstanceAs (Decidable (_ ∧ _))
  | .yield c | .schedule c => inferInstanceAs (Decidable (st.CanSwitch c))
  | .wake q => inferInstanceAs (Decidable (st.wq q ≠ []))

instance SmpEvent.decidableSafe (st : Smp) : (e : SmpEvent) → Decidable (e.Safe st)
  | .loadBalance _ => inferInstanceAs (Decidable (∀ t ∈ st.live, _ ∨ _))
  | .readId .. | .loadCurrent .. | .useCurrent .. | .acquire .. | .release ..
    | .setIntr .. | .tick ..
  | .yield _ | .schedule _ | .sleep .. | .wake _ | .spawn .. => inferInstanceAs (Decidable True)

def smpStep : Smp → SmpEvent → Option Smp := guarded (fun st e => e.Possible st) Smp.exec

/-- Two CPUs with the idle tasks 0 and 1; three tasks are made for CPU 0 and the last one runs. -/
def threeTasks : List SmpEvent := [.spawn 10 0, .spawn 11 0, .spawn 12 0, .tick 0 true]

/-- Task 12 takes a lock. -/
def takeLock (c : Nat) (l : Lock) : List SmpEvent :=
  [.readId c (.disable l), .loadCurrent c c (.disable l),
    .useCurrent c 12 (.disable l), .acquire c l]

/-- With its lock, task 12 stays where it is when its time has run out. -/
theorem not_preempted_threeTasks : ∃ st,
    Relation.ReflTransGen SafeSmpStep (Smp.initial 2 id) st ∧ st.current 0 = 12 ∧
      st.held 12 = {.other 0} ∧ (st.tick 0 true).rq = st.rq := by
  obtain ⟨st, hsteps, hcur, hheld⟩ : ∃ st, Relation.ReflTransGen SafeSmpStep (Smp.initial 2 id) st ∧
      st.current 0 = 12 ∧ st.held 12 = {.other 0} :=
    exists_of_guarded (threeTasks ++ takeLock 0 (.other 0)) (by decide +kernel)
  refine ⟨st, hsteps, hcur, hheld,
    (not_preempted_of_safe_run injective_id hsteps).2.2 0 true ?_⟩
  rw [hcur, hheld]
  decide

/-- Task 12 reads the number of CPU 0, loses its time, is moved to CPU 1 and goes on there: it finds
task 11, takes its lock with a count of zero, and the next tick switches to another task. -/
def movedBetween : List SmpEvent := threeTasks ++
  [.readId 0 (.disable (.other 0)), .tick 0 true, .loadBalance 1, .tick 1 true,
    .loadCurrent 1 0 (.disable (.other 0))]

theorem get_current_wrong : ∃ st₁ st₂,
    Relation.ReflTransGen SmpStep (Smp.initial 2 id) st₁ ∧
      st₁.pc 12 = .gotCurrent 11 (.disable (.other 0)) ∧ Relation.ReflTransGen SmpStep st₁ st₂ ∧
      st₂.pc 12 = .between ∧ st₂.preemptCount 12 = 0 ∧ st₂.held 12 = {.other 0} ∧
      st₂.current 1 = 12 ∧ (st₂.tick 1 true).current 1 = 13 := by
  obtain ⟨st₁, hrun₁, hview₁⟩ := (any_eq_true _ _).mp
    (by decide +kernel : (runEvents smpStep (Smp.initial 2 id) movedBetween).any (fun st =>
      decide (st.pc 12 = .gotCurrent 11 (.disable (.other 0))) &&
        (runEvents smpStep st [.useCurrent 1 11 (.disable (.other 0)), .acquire 1 (.other 0),
          .spawn 13 1]).any fun st => decide (st.pc 12 = .between ∧ st.preemptCount 12 = 0 ∧
            st.held 12 = {.other 0} ∧ st.current 1 = 12 ∧ (st.tick 1 true).current 1 = 13)) = true)
  rw [Bool.and_eq_true, any_eq_true] at hview₁
  obtain ⟨hpc, st₂, hrun₂, hview₂⟩ := hview₁
  exact ⟨st₁, st₂, steps_of_guarded hrun₁, of_decide_eq_true hpc, steps_of_guarded hrun₂,
    of_decide_eq_true hview₂⟩

end Osx64.Task
