import Mathlib.Algebra.Ring.Nat
import Osx64.Lib.Places

/-!
# Ready lists

The part of the scheduler (`task/task.c`, `machine/time.c`) that moves tasks: every CPU has a
current task, a list of ready tasks and a count of them, and an idle task that runs when the
list is empty.  A function that holds the lock of a ready list is one step.  Registers, page
tables and timers are left out, since they do not decide which task goes where.

The tasks that wait are in lists of a family `wait`; which lists these are is left to the
modules that use this one.
-/

namespace Osx64.Task

open Function List

inductive TaskState where
  | ready
  | running
  | sleepInterruptable
  | sleepNotIntrAble
  | zombie
  | dead
deriving DecidableEq

/-- The fields of `pcb_t` that the scheduler uses. -/
structure Pcb where
  cpuid : Nat
  state : TaskState

/-- `CPU_ITEM`.  A PCB takes 16 KiB, so there are never enough for `total_ready_num` to wrap. -/
structure Cpu where
  nowRunning : Nat
  idle : Nat
  ready : List Nat
  totalReadyNum : Nat

structure RunQueue where
  totalNum : Nat
  cpu : Nat → Cpu
  pcb : Nat → Pcb

namespace RunQueue

variable (rq : RunQueue)

def setCpu (c : Nat) (cpu : Cpu) : RunQueue := { rq with cpu := update rq.cpu c cpu }

def setPcb (t : Nat) (pcb : Pcb) : RunQueue := { rq with pcb := update rq.pcb t pcb }

def setState (t : Nat) (state : TaskState) : RunQueue :=
  rq.setPcb t { rq.pcb t with state := state }

/-- `list_add(&task->ready_list_item, ...)` -/
def pushFront (c t : Nat) : RunQueue :=
  rq.setCpu c { rq.cpu c with
    ready := t :: (rq.cpu c).ready, totalReadyNum := (rq.cpu c).totalReadyNum + 1 }

/-- `list_add_tail(&task->ready_list_item, ...)` -/
def pushBack (c t : Nat) : RunQueue :=
  rq.setCpu c { rq.cpu c with
    ready := (rq.cpu c).ready ++ [t], totalReadyNum := (rq.cpu c).totalReadyNum + 1 }

/-- `add_to_cpu_n_ready_list`, for a CPU that exists -/
def addToCpuNReadyList (t n : Nat) : RunQueue :=
  (rq.setPcb t ⟨n, .ready⟩).pushFront n t

/-- `put_to_ready_list_first` -/
def putToReadyListFirst (t : Nat) : RunQueue :=
  (rq.setState t .ready).pushFront (rq.pcb t).cpuid t

/-- The loop of `wake_up_all`. -/
def wakeUpAll (ts : List Nat) : RunQueue := ts.foldl (fun rq t => rq.putToReadyListFirst t) rq

/-- `__schedule_locked`, and `__schedule_other_locked` behind the lock: the first ready task
runs, or the idle task. -/
def scheduleLocked (c : Nat) : RunQueue :=
  match (rq.cpu c).ready with
  | [] => (rq.setCpu c { rq.cpu c with nowRunning := (rq.cpu c).idle }).setPcb (rq.cpu c).idle
      ⟨c, .running⟩
  | t :: rest =>
    (rq.setCpu c { rq.cpu c with
      nowRunning := t, ready := rest, totalReadyNum := (rq.cpu c).totalReadyNum - 1 }).setPcb t
        ⟨c, .running⟩

/-- `sys_yield`, and the reschedule of a timer tick that does not find the idle task. -/
def sysYield (c : Nat) : RunQueue :=
  ((rq.setState (rq.cpu c).nowRunning .ready).pushBack c (rq.cpu c).nowRunning).scheduleLocked c

/-- The reschedule of `timer_intr_soft`. -/
def tick (c : Nat) : RunQueue :=
  if (rq.cpu c).nowRunning ≠ (rq.cpu c).idle then rq.sysYield c else rq.scheduleLocked c

/-- The end of `sleep_on`, behind the list of the wait queue. -/
def sleep (c : Nat) : RunQueue :=
  (rq.setState (rq.cpu c).nowRunning .sleepNotIntrAble).scheduleLocked c

/-! ## Load balance -/

/-- `MULTI_CORE_BALANCE_DELTA` -/
def multiCoreBalanceDelta : Nat := 1

/-- `task_timer_travel` for the last task of the list. -/
def travelOne (source target : Nat) : RunQueue :=
  match (rq.cpu source).ready.getLast? with
  -- the list is never empty here
  | none => rq
  | some t =>
    let rq := rq.setPcb t { rq.pcb t with cpuid := target }
    let rq := rq.setCpu source { rq.cpu source with
      ready := (rq.cpu source).ready.dropLast
      totalReadyNum := (rq.cpu source).totalReadyNum - 1 }
    rq.pushBack target t

/-- `tasks_travel` -/
def tasksTravel (source target : Nat) : RunQueue :=
  if source = target then rq
  else
    let fromLoad := (rq.cpu source).totalReadyNum
    let toLoad := (rq.cpu target).totalReadyNum
    if fromLoad ≤ toLoad ∨ (fromLoad - toLoad) / 2 < multiCoreBalanceDelta then rq
    else (range multiCoreBalanceDelta).foldl (fun rq _ => rq.travelOne source target) rq

/-- The results of the loop in `load_balance`. -/
structure Loads where
  busiestCpu : Option Nat
  maxLoad : Nat
  minCpu : Option Nat
  minLoad : Nat

/-- One round of the loop. -/
def Loads.see (loads : Loads) (i nr : Nat) : Loads :=
  let loads :=
    if loads.maxLoad < nr then { loads with maxLoad := nr, busiestCpu := some i } else loads
  if nr < loads.minLoad then { loads with minLoad := nr, minCpu := some i } else loads

def loads : Loads :=
  (range rq.totalNum).foldl (fun loads i => loads.see i (rq.cpu i).totalReadyNum)
    ⟨none, 0, none, 2 ^ 32 - 1⟩

/-- `load_balance` -/
def loadBalance (c : Nat) : RunQueue :=
  let nowLoad := (rq.cpu c).totalReadyNum
  if rq.loads.maxLoad - rq.loads.minLoad < multiCoreBalanceDelta then rq
  else if nowLoad = rq.loads.maxLoad then rq.loads.minCpu.elim rq (rq.tasksTravel c)
  else if nowLoad = rq.loads.minLoad then
    rq.loads.busiestCpu.elim rq fun source => rq.tasksTravel source c
  else rq

/-- All CPUs run their idle tasks. -/
def initial (totalNum : Nat) (idle : Nat → Nat) : RunQueue where
  totalNum := totalNum
  cpu := fun c => ⟨idle c, idle c, [], 0⟩
  pcb := fun _ => ⟨0, .ready⟩

end RunQueue

/-! ## Where the tasks are -/

/-- The places of a task: running on a CPU, ready, or waiting. -/
inductive Place (ω : Type) where
  | running (c : Nat)
  | ready (c : Nat)
  | waiting (w : ω)
deriving DecidableEq

variable {ω : Type}

/-- The tasks in each place; idle tasks do not count. -/
def RunQueue.lists (rq : RunQueue) (wait : ω → List Nat) : Place ω → List Nat
  | .running c =>
    if c < rq.totalNum ∧ (rq.cpu c).nowRunning ≠ (rq.cpu c).idle then [(rq.cpu c).nowRunning]
    else []
  | .ready c => (rq.cpu c).ready
  | .waiting w => wait w

/-- No task is lost or duplicated, the counts are right, and a task that is on a CPU or ready for
one has it as `cpuid`. -/
structure RunOk (rq : RunQueue) (wait : ω → List Nat) (live : Finset Nat) : Prop where
  placed : Placed (rq.lists wait) live
  num : ∀ c, (rq.cpu c).totalReadyNum = (rq.cpu c).ready.length
  idle : ∀ c < rq.totalNum, (rq.cpu c).idle ∉ live
  cpuid : ∀ t ∈ live, (rq.pcb t).cpuid < rq.totalNum
  running : ∀ c, ∀ t ∈ rq.lists wait (.running c), (rq.pcb t).cpuid = c
  ready : ∀ c, ∀ t ∈ (rq.cpu c).ready, (rq.pcb t).cpuid = c

theorem runOk_initial (totalNum : Nat) (idle : Nat → Nat) :
    RunOk (RunQueue.initial totalNum idle) (fun _ : ω => []) ∅ := by
  have hlists : ∀ p, (RunQueue.initial totalNum idle).lists (fun _ : ω => []) p = [] := by
    intro p
    cases p with
    | running c => exact if_neg fun h => h.2 rfl
    | ready c => rfl
    | waiting w => rfl
  refine ⟨⟨fun p => ?_, fun p r t ht => ?_, fun t => ?_⟩, fun _ => rfl,
    fun c _ => Finset.notMem_empty _, fun t ht => absurd ht (Finset.notMem_empty t),
      fun c t ht => ?_,
    fun c t ht => absurd ht not_mem_nil⟩
  · rw [hlists]
    exact nodup_nil
  · rw [hlists] at ht
    cases ht
  · refine ⟨fun ht => absurd ht (Finset.notMem_empty t), fun ⟨p, ht⟩ => ?_⟩
    rw [hlists] at ht
    cases ht
  · rw [hlists] at ht
    cases ht

section Fields

variable {rq : RunQueue} {c d t u : Nat} {cpu : Cpu} {pcb : Pcb} {state : TaskState}

@[simp]
theorem cpu_setCpu : (rq.setCpu c cpu).cpu d = if d = c then cpu else rq.cpu d :=
  update_apply ..

@[simp]
theorem pcb_setCpu : (rq.setCpu c cpu).pcb = rq.pcb := rfl

@[simp]
theorem totalNum_setCpu : (rq.setCpu c cpu).totalNum = rq.totalNum := rfl

@[simp]
theorem cpu_setPcb : (rq.setPcb t pcb).cpu = rq.cpu := rfl

@[simp]
theorem pcb_setPcb : (rq.setPcb t pcb).pcb u = if u = t then pcb else rq.pcb u :=
  update_apply ..

@[simp]
theorem totalNum_setPcb : (rq.setPcb t pcb).totalNum = rq.totalNum := rfl

@[simp]
theorem cpu_setState : (rq.setState t state).cpu = rq.cpu := rfl

@[simp]
theorem totalNum_setState : (rq.setState t state).totalNum = rq.totalNum := rfl

@[simp]
theorem cpuid_setState : ((rq.setState t state).pcb u).cpuid = (rq.pcb u).cpuid := by
  unfold RunQueue.setState
  rw [pcb_setPcb]
  split
  · next heq => rw [heq]
  · rfl

variable (rq) in
/-- The lists depend on the CPUs only. -/
theorem lists_congr {rq' : RunQueue} (wait : ω → List Nat) (hcpu : rq'.cpu = rq.cpu)
    (htotal : rq'.totalNum = rq.totalNum) : rq'.lists wait = rq.lists wait := by
  funext p
  cases p <;> simp only [RunQueue.lists, hcpu, htotal]

end Fields

/-! ## What the moves leave alone -/

/-- The CPUs and their idle tasks are the same. -/
structure Steady (rq rq' : RunQueue) : Prop where
  totalNum : rq'.totalNum = rq.totalNum
  idle : ∀ d, (rq'.cpu d).idle = (rq.cpu d).idle

section Steady

variable {rq rq' : RunQueue} {c d t u : Nat} {cpu : Cpu}

theorem Steady.refl (rq : RunQueue) : Steady rq rq := ⟨rfl, fun _ => rfl⟩

theorem Steady.trans {rq'' : RunQueue} (h : Steady rq rq') (h' : Steady rq' rq'') :
    Steady rq rq'' :=
  ⟨h'.totalNum.trans h.totalNum, fun d => (h'.idle d).trans (h.idle d)⟩

theorem Steady.setCpu (h : Steady rq rq') (hidle : cpu.idle = (rq'.cpu c).idle) :
    Steady rq (rq'.setCpu c cpu) := by
  refine ⟨h.totalNum, fun d => ?_⟩
  rw [cpu_setCpu, ← h.idle d]
  split
  · next heq => rw [heq, hidle]
  · rfl

theorem Steady.setPcb (h : Steady rq rq') (t : Nat) (pcb : Pcb) : Steady rq (rq'.setPcb t pcb) :=
  ⟨h.totalNum, h.idle⟩

theorem nowRunning_setCpu (h : cpu.nowRunning = (rq.cpu c).nowRunning) :
    ((rq.setCpu c cpu).cpu d).nowRunning = (rq.cpu d).nowRunning := by
  rw [cpu_setCpu]
  split
  · next heq => rw [heq, h]
  · rfl

theorem nowRunning_pushFront : ((rq.pushFront c t).cpu d).nowRunning = (rq.cpu d).nowRunning :=
  nowRunning_setCpu rfl

theorem nowRunning_pushBack : ((rq.pushBack c t).cpu d).nowRunning = (rq.cpu d).nowRunning :=
  nowRunning_setCpu rfl

theorem steady_putToReadyListFirst (rq : RunQueue) (t : Nat) :
    Steady rq (rq.putToReadyListFirst t) := by
  exact ((Steady.refl rq).setPcb _ _).setCpu (by rfl)

theorem steady_addToCpuNReadyList (rq : RunQueue) (t n : Nat) :
    Steady rq (rq.addToCpuNReadyList t n) := by
  exact ((Steady.refl rq).setPcb _ _).setCpu (by rfl)

theorem cpuid_putToReadyListFirst :
    ((rq.putToReadyListFirst t).pcb u).cpuid = (rq.pcb u).cpuid := by
  rw [RunQueue.putToReadyListFirst, RunQueue.pushFront, pcb_setCpu, cpuid_setState]

theorem nowRunning_putToReadyListFirst :
    ((rq.putToReadyListFirst t).cpu d).nowRunning = (rq.cpu d).nowRunning := by
  rw [RunQueue.putToReadyListFirst, nowRunning_pushFront, cpu_setState]

theorem nowRunning_addToCpuNReadyList {n : Nat} :
    ((rq.addToCpuNReadyList t n).cpu d).nowRunning = (rq.cpu d).nowRunning := by
  rw [RunQueue.addToCpuNReadyList, nowRunning_pushFront, cpu_setPcb]

variable {wait wait' : ω → List Nat}

/-- A place that the change does not touch. -/
theorem lists_of_ne {r : Place ω} (hsteady : Steady rq rq')
    (hrunning : ∀ d, (rq'.cpu d).nowRunning = (rq.cpu d).nowRunning)
    (hready : ∀ d, r = .ready d → (rq'.cpu d).ready = (rq.cpu d).ready)
    (hwait : ∀ w, r = .waiting w → wait' w = wait w) : rq'.lists wait' r = rq.lists wait r := by
  cases r with
  | running d => simp only [RunQueue.lists, hrunning, hsteady.idle, hsteady.totalNum]
  | ready d => exact hready d rfl
  | waiting w => exact hwait w rfl

/-- The counts of ready tasks are right. -/
def ReadyCounted (rq : RunQueue) : Prop :=
  ∀ c, (rq.cpu c).totalReadyNum = (rq.cpu c).ready.length

theorem ReadyCounted.setCpu (h : ReadyCounted rq)
    (hcpu : cpu.totalReadyNum = cpu.ready.length) : ReadyCounted (rq.setCpu c cpu) := by
  intro d
  rw [cpu_setCpu]
  split
  · exact hcpu
  · exact h d

end Steady

section Moves

variable {rq rq' : RunQueue} {wait wait' : ω → List Nat} {live : Finset Nat} {c t : Nat} {w : ω}
  {L L' : Place ω → List Nat} {p q : Place ω}

/-- The current task of a CPU has been put elsewhere, and the next one is still to be chosen. -/
structure Vacant (rq : RunQueue) (wait : ω → List Nat) (live : Finset Nat) (c : Nat) : Prop where
  placed : ∃ lists : Place ω → List Nat, Placed lists live ∧ lists (.running c) = [] ∧
    ∀ p, p ≠ .running c → lists p = rq.lists wait p
  num : ∀ c, (rq.cpu c).totalReadyNum = (rq.cpu c).ready.length
  idle : ∀ c < rq.totalNum, (rq.cpu c).idle ∉ live
  cpuid : ∀ t ∈ live, (rq.pcb t).cpuid < rq.totalNum
  running : ∀ d, d ≠ c → ∀ t ∈ rq.lists wait (.running d), (rq.pcb t).cpuid = d
  ready : ∀ c, ∀ t ∈ (rq.cpu c).ready, (rq.pcb t).cpuid = c

/-- The tasks are in the places `L`, which are those of the run queue between two functions. -/
structure Settled (L : Place ω → List Nat) (rq : RunQueue) (live : Finset Nat) : Prop where
  placed : Placed L live
  idle : ∀ c < rq.totalNum, (rq.cpu c).idle ∉ live
  cpuid : ∀ t ∈ live, (rq.pcb t).cpuid < rq.totalNum
  home : ∀ c r, r = .running c ∨ r = .ready c → ∀ t ∈ L r, (rq.pcb t).cpuid = c

theorem RunOk.settled (h : RunOk rq wait live) : Settled (rq.lists wait) rq live := by
  refine ⟨h.placed, h.idle, h.cpuid, ?_⟩
  rintro c r (rfl | rfl)
  · exact h.running c
  · exact h.ready c

theorem Settled.runOk (h : Settled (rq.lists wait) rq live) (hnum : ReadyCounted rq) :
    RunOk rq wait live :=
  ⟨h.placed, hnum, h.idle, h.cpuid, fun c => h.home c _ (.inl rfl), fun c => h.home c _ (.inr rfl)⟩

theorem Settled.vacant (h : Settled L rq live) (hnum : ReadyCounted rq)
    (hempty : L (.running c) = []) (hrest : ∀ p, p ≠ .running c → L p = rq.lists wait p) :
    Vacant rq wait live c := by
  refine ⟨⟨L, h.placed, hempty, hrest⟩, hnum, h.idle, h.cpuid, fun d hd t ht => ?_,
    fun d t ht => ?_⟩
  · have hplace : Place.running d ≠ (.running c : Place ω) := fun heq => hd (Place.running.inj heq)
    exact h.home d _ (.inl rfl) t (hrest _ hplace ▸ ht)
  · exact h.home d _ (.inr rfl) t (hrest (.ready d) nofun ▸ ht)

theorem Vacant.settled (h : Vacant rq wait live c) : ∃ L : Place ω → List Nat,
    Settled L rq live ∧ L (.running c) = [] ∧ ∀ p, p ≠ .running c → L p = rq.lists wait p := by
  obtain ⟨L, hplaced, hempty, hrest⟩ := h.placed
  refine ⟨L, ⟨hplaced, h.idle, h.cpuid, ?_⟩, hempty, hrest⟩
  rintro d r (rfl | rfl) t ht
  · by_cases hd : d = c
    · rw [hd, hempty] at ht
      cases ht
    · rw [hrest _ fun heq => hd (Place.running.inj heq)] at ht
      exact h.running d hd t ht
  · rw [hrest (.ready d) nofun] at ht
    exact h.ready d t ht

/-- Something changes, but no task moves. -/
theorem Settled.congr (h : Settled L rq live) (hsteady : Steady rq rq')
    (hcpuid : ∀ u ∈ live, (rq'.pcb u).cpuid = (rq.pcb u).cpuid) (hlists : ∀ r, L' r = L r) :
    Settled L' rq' live := by
  refine ⟨h.placed.congr hlists, fun d hd => ?_, fun u hu => ?_, fun d r hr u hu => ?_⟩
  · rw [hsteady.idle]
    exact h.idle d (hsteady.totalNum ▸ hd)
  · rw [hcpuid u hu, hsteady.totalNum]
    exact h.cpuid u hu
  · rw [hlists] at hu
    rw [hcpuid u (h.placed.mem_live hu)]
    exact h.home d r hr u hu

section

variable (h : Settled L rq live) (hsteady : Steady rq rq')
  (hcpuid : ∀ u, u ≠ t → (rq'.pcb u).cpuid = (rq.pcb u).cpuid)
  (hlt : (rq'.pcb t).cpuid < rq.totalNum)
  (hhome : ∀ d, q = .running d ∨ q = .ready d → (rq'.pcb t).cpuid = d)
include h hsteady hcpuid hlt hhome

/-- Only `t` may be elsewhere, and it is in `q`. -/
theorem Settled.replace {live' : Finset Nat} (hplaced : Placed L' live') (ht : t ∈ L' q)
    (hidle : ∀ c < rq.totalNum, (rq.cpu c).idle ∉ live') (hlives : ∀ u ∈ live', u ≠ t → u ∈ live)
    (hothers : ∀ r u, u ≠ t → u ∈ L' r → u ∈ L r) : Settled L' rq' live' := by
  refine ⟨hplaced, fun d hd => ?_, fun u hu => ?_, fun d r hr u hu => ?_⟩
  · rw [hsteady.idle]
    exact hidle d (hsteady.totalNum ▸ hd)
  · rw [hsteady.totalNum]
    by_cases hut : u = t
    · exact hut ▸ hlt
    · exact hcpuid u hut ▸ h.cpuid u (hlives u hu hut)
  · by_cases hut : u = t
    · subst hut
      exact hhome d (hplaced.unique r q u hu ht ▸ hr)
    · rw [hcpuid u hut]
      exact h.home d r hr u (hothers r u hut hu)

/-- One task moves from `p` to `q`. -/
theorem Settled.move (hne : p ≠ q) (hfrom : (L p).Perm (t :: L' p)) (hto : (L' q).Perm (t :: L q))
    (hother : ∀ r, r ≠ p → r ≠ q → L' r = L r) : Settled L' rq' live :=
  h.replace hsteady hcpuid hlt hhome (h.placed.move hne hfrom hto hother)
    (hto.mem_iff.mpr mem_cons_self) h.idle (fun _ hu _ => hu)
    fun _ _ hut => (Placed.mem_move hfrom hto hother hut).mp

/-- A new task comes to `q`. -/
theorem Settled.add (ht : t ∉ live)
    (hidle : ∀ c < rq.totalNum, t ≠ (rq.cpu c).idle) (hto : (L' q).Perm (t :: L q))
    (hother : ∀ r, r ≠ q → L' r = L r) : Settled L' rq' (insert t live) := by
  refine h.replace hsteady hcpuid hlt hhome (h.placed.add ht hto hother)
    (hto.mem_iff.mpr mem_cons_self) (fun d hd => ?_)
    (fun _ hu hut => (Finset.mem_insert.mp hu).resolve_left hut)
    fun _ _ hut => (Placed.mem_add hto hother hut).mp
  rw [Finset.mem_insert, not_or]
  exact ⟨(hidle d hd).symm, h.idle d hd⟩

end

section

variable (h : RunOk rq wait live)
include h

/-- The idle task is in no list. -/
theorem RunOk.vacant_of_idle (hidle : (rq.cpu c).nowRunning = (rq.cpu c).idle) :
    Vacant rq wait live c := by
  refine h.settled.vacant h.num ?_ fun _ _ => rfl
  rw [RunQueue.lists, if_neg]
  exact fun hrun => hrun.2 hidle

theorem RunOk.current_mem (hc : c < rq.totalNum) (hcur : (rq.cpu c).nowRunning ≠ (rq.cpu c).idle) :
    rq.lists wait (.running c) = [(rq.cpu c).nowRunning] ∧ (rq.cpu c).nowRunning ∈ live ∧
      (rq.pcb (rq.cpu c).nowRunning).cpuid = c := by
  have hlist : rq.lists wait (.running c) = [(rq.cpu c).nowRunning] := if_pos ⟨hc, hcur⟩
  have hmem : (rq.cpu c).nowRunning ∈ rq.lists wait (.running c) := by
    rw [hlist]
    exact mem_singleton_self _
  exact ⟨hlist, h.placed.mem_live hmem, h.running c _ hmem⟩

theorem RunOk.setState (t : Nat) (state : TaskState) : RunOk (rq.setState t state) wait live :=
  (h.settled.congr ((Steady.refl rq).setPcb _ _) (fun _ _ => cpuid_setState) fun r =>
    congrFun (lists_congr rq wait rfl rfl) r).runOk h.num

end

section

variable (h : RunOk rq wait live) (hc : c < rq.totalNum)
  (hcur : (rq.cpu c).nowRunning ≠ (rq.cpu c).idle)
include h hc hcur

/-- The current task goes to the end of the ready list. -/
theorem RunOk.requeue :
    Vacant ((rq.setState (rq.cpu c).nowRunning .ready).pushBack c (rq.cpu c).nowRunning) wait live
      c := by
  classical
  obtain ⟨hlist, -, hcpuid⟩ := h.current_mem hc hcur
  generalize hrq' : (rq.setState (rq.cpu c).nowRunning .ready).pushBack c
    (rq.cpu c).nowRunning = rq'
  have hsteady : Steady rq rq' := by
    rw [← hrq']
    exact ((Steady.refl rq).setPcb _ _).setCpu rfl
  have hpcb : ∀ u, (rq'.pcb u).cpuid = (rq.pcb u).cpuid := by
    intro u
    rw [← hrq', RunQueue.pushBack, pcb_setCpu, cpuid_setState]
  have hready : ∀ d, (rq'.cpu d).ready =
      if d = c then (rq.cpu c).ready ++ [(rq.cpu c).nowRunning] else (rq.cpu d).ready := by
    intro d
    rw [← hrq', RunQueue.pushBack, cpu_setCpu]
    split <;> rfl
  have hnum : ReadyCounted rq' := by
    rw [← hrq']
    exact ReadyCounted.setCpu h.num (by simp [h.num c])
  have hsettled : Settled (update (rq'.lists wait) (.running c) []) rq' live := by
    refine h.settled.move (p := .running c) (q := .ready c) (t := (rq.cpu c).nowRunning) hsteady
      (fun u _ => hpcb u) ?_ ?_ nofun ?_ ?_ fun r hrp hrq => ?_
    · rw [hpcb, hcpuid]
      exact hc
    · rintro d (hd | hd)
      · cases hd
      · rw [hpcb, hcpuid, Place.ready.inj hd]
    · rw [hlist, update_self]
    · rw [update_of_ne (Ne.symm (by nofun))]
      simp only [RunQueue.lists, hready, if_true]
      exact perm_append_singleton _ _
    · rw [update_of_ne hrp]
      refine lists_of_ne hsteady (fun d => ?_) (fun d hd => ?_) fun _ _ => rfl
      · rw [← hrq', nowRunning_pushBack, cpu_setState]
      · rw [hready, if_neg fun heq : d = _ => hrq (hd.trans (congrArg _ heq))]
  exact hsettled.vacant hnum (update_self ..) fun p hp => update_of_ne hp _ _

/-- The current task goes to a list of waiting tasks. -/
theorem RunOk.leave (state : TaskState)
    (hw : (wait' w).Perm ((rq.cpu c).nowRunning :: wait w))
    (hother : ∀ v, v ≠ w → wait' v = wait v) :
    Vacant (rq.setState (rq.cpu c).nowRunning state) wait' live c := by
  classical
  obtain ⟨hlist, hlive, -⟩ := h.current_mem hc hcur
  have hsteady : Steady rq (rq.setState (rq.cpu c).nowRunning state) := (Steady.refl rq).setPcb _ _
  have hsettled : Settled (update (rq.lists wait') (.running c) [])
      (rq.setState (rq.cpu c).nowRunning state) live := by
    refine h.settled.move (p := .running c) (q := .waiting w) (t := (rq.cpu c).nowRunning) hsteady
      (fun _ _ => cpuid_setState) ?_ (by simp) nofun ?_ ?_ fun r hrp hrq => ?_
    · rw [cpuid_setState]
      exact h.cpuid _ hlive
    · rw [hlist, update_self]
    · rw [update_of_ne (Ne.symm (by nofun))]
      exact hw
    · rw [update_of_ne hrp]
      exact lists_of_ne (Steady.refl rq) (fun _ => rfl) (fun _ _ => rfl) fun v hv =>
        hother v fun heq => hrq (hv.trans (heq ▸ rfl))
  refine hsettled.vacant h.num (update_self ..) fun p hp => ?_
  rw [update_of_ne hp]
  exact (congrFun (lists_congr _ wait' rfl rfl) p).symm

/-- The current task is put nowhere. -/
theorem RunOk.drop : Vacant rq wait (live.erase (rq.cpu c).nowRunning) c := by
  classical
  obtain ⟨hlist, -, -⟩ := h.current_mem hc hcur
  refine ⟨⟨update (rq.lists wait) (.running c) [], ?_, update_self ..,
    fun p hp => update_of_ne hp _ _⟩, h.num,
    fun d hd hmem => h.idle d hd (Finset.mem_of_mem_erase hmem),
    fun u hu => h.cpuid u (Finset.mem_of_mem_erase hu), fun d _ => h.running d, h.ready⟩
  refine h.placed.remove (p := .running c) ?_ fun r hr => update_of_ne hr _ _
  rw [hlist, update_self]

end

/-- The next task of the CPU is chosen. -/
theorem Vacant.scheduleLocked (h : Vacant rq wait live c) (hc : c < rq.totalNum) :
    RunOk (rq.scheduleLocked c) wait live := by
  obtain ⟨L, hsettled, hempty, hrest⟩ := h.settled
  unfold RunQueue.scheduleLocked
  cases hready : (rq.cpu c).ready with
  | nil =>
    -- the idle task runs, which is in no list
    refine (hsettled.congr (((Steady.refl rq).setCpu (by rfl)).setPcb _ _) (fun u hu => ?_)
      fun r => ?_).runOk (ReadyCounted.setCpu h.num (h.num c))
    · have hidle : u ≠ (rq.cpu c).idle := fun heq => h.idle c hc (heq ▸ hu)
      rw [pcb_setPcb, if_neg hidle, pcb_setCpu]
    · cases r with
      | running d =>
        by_cases hd : d = c
        · rw [hd, hempty]
          simp [RunQueue.lists]
        · rw [hrest _ (by simpa using hd)]
          simp [RunQueue.lists, hd]
      | ready d =>
        rw [hrest (.ready d) nofun]
        simp only [RunQueue.lists, cpu_setPcb, cpu_setCpu]
        split
        · next heq => rw [heq]
        · rfl
      | waiting w => exact (hrest (.waiting w) nofun).symm
  | cons t rest =>
    have htlist : L (.ready c) = t :: rest := (hrest (.ready c) nofun).trans hready
    have htmem : t ∈ L (.ready c) := by
      rw [htlist]
      exact mem_cons_self
    have htcpu := hsettled.home c _ (.inr rfl) t htmem
    have htidle : t ≠ (rq.cpu c).idle := fun heq =>
      h.idle c hc (heq ▸ hsettled.placed.mem_live htmem)
    dsimp only
    generalize hrq' : (rq.setCpu c { rq.cpu c with
      nowRunning := t, ready := rest, totalReadyNum := (rq.cpu c).totalReadyNum - 1 }).setPcb t
        ⟨c, .running⟩ = rq'
    have hcpu : ∀ d, rq'.cpu d = if d = c then { rq.cpu c with
        nowRunning := t, ready := rest, totalReadyNum := (rq.cpu c).totalReadyNum - 1 }
        else rq.cpu d := by
      intro d
      rw [← hrq', cpu_setPcb, cpu_setCpu]
    have hpcb : ∀ u, (rq'.pcb u).cpuid = (rq.pcb u).cpuid := by
      intro u
      rw [← hrq', pcb_setPcb]
      split
      · next heq => rw [heq, htcpu]
      · rfl
    have hsteady : Steady rq rq' := by
      rw [← hrq']
      exact ((Steady.refl rq).setCpu (by rfl)).setPcb _ _
    have hnum : ReadyCounted rq' := by
      have hnum := h.num c
      rw [hready, length_cons] at hnum
      rw [← hrq']
      exact ReadyCounted.setCpu h.num (by dsimp only; omega)
    refine (hsettled.move (p := .ready c) (q := .running c) (t := t)
      hsteady (fun u _ => hpcb u) ?_ ?_
      nofun ?_ ?_ fun r hrp hrq => ?_).runOk hnum
    · rw [hpcb, htcpu]
      exact hc
    · rintro d (hd | hd)
      · rw [hpcb, htcpu, Place.running.inj hd]
      · cases hd
    · rw [htlist]
      simp only [RunQueue.lists, hcpu, if_true]
      exact List.Perm.refl _
    · rw [hempty]
      simp only [RunQueue.lists, hcpu, if_true, hsteady.totalNum]
      rw [if_pos ⟨hc, htidle⟩]
    · rw [hrest r hrq]
      cases r with
      | running d =>
        have hd : d ≠ c := fun heq => hrq (heq ▸ rfl)
        simp only [RunQueue.lists, hcpu, if_neg hd, hsteady.totalNum]
      | ready d =>
        have hd : d ≠ c := fun heq => hrp (heq ▸ rfl)
        simp only [RunQueue.lists, hcpu, if_neg hd]
      | waiting w => rfl

section

variable (h : RunOk rq wait live)
include h

/-- A task is put at the front of the ready list of its CPU. -/
theorem RunOk.putToReadyListFirst (hw : (wait w).Perm (t :: wait' w))
    (hother : ∀ v, v ≠ w → wait' v = wait v) : RunOk (rq.putToReadyListFirst t) wait' live := by
  have htmem : t ∈ rq.lists wait (.waiting w) := hw.mem_iff.mpr mem_cons_self
  have hlt := h.cpuid t (h.placed.mem_live htmem)
  have hsteady := steady_putToReadyListFirst rq t
  have hready : ∀ d, ((rq.putToReadyListFirst t).cpu d).ready =
      if d = (rq.pcb t).cpuid then t :: (rq.cpu (rq.pcb t).cpuid).ready else (rq.cpu d).ready := by
    intro d
    rw [RunQueue.putToReadyListFirst, RunQueue.pushFront, cpu_setCpu]
    split <;> rfl
  have hnum : ReadyCounted (rq.putToReadyListFirst t) := ReadyCounted.setCpu h.num (by simp [h.num])
  refine Settled.runOk (h.settled.move (p := .waiting w) (q := .ready (rq.pcb t).cpuid) (t := t)
    hsteady (fun _ _ => cpuid_putToReadyListFirst) ?_ ?_ nofun hw ?_ fun r hrp hrq => ?_) hnum
  · rw [cpuid_putToReadyListFirst]
    exact hlt
  · rintro d (hd | hd)
    · cases hd
    · rw [cpuid_putToReadyListFirst, Place.ready.inj hd]
  · simp only [RunQueue.lists, hready, if_true]
    exact List.Perm.refl _
  · refine lists_of_ne hsteady (fun _ => nowRunning_putToReadyListFirst) (fun d hd => ?_)
      fun v hv => hother v fun heq => hrp (hv.trans (heq ▸ rfl))
    rw [hready, if_neg fun heq : d = _ => hrq (hd.trans (congrArg _ heq))]

/-- `wake_up_all`: all tasks of a list become ready. -/
theorem RunOk.wakeUpAll [DecidableEq ω] (w : ω) :
    RunOk (rq.wakeUpAll (wait w)) (update wait w []) live := by
  generalize hts : wait w = ts
  induction ts generalizing rq wait with
  | nil =>
    have hsame : update wait w [] = wait := by rw [← hts, update_eq_self]
    rw [hsame]
    exact h
  | cons t rest ih =>
    have hfirst : RunOk (rq.putToReadyListFirst t) (update wait w rest) live := by
      refine h.putToReadyListFirst (w := w) ?_ fun v hv => update_of_ne hv _ _
      rw [hts, update_self]
    have hrest := ih hfirst (update_self ..)
    rw [update_idem] at hrest
    exact hrest

/-- A new task. -/
theorem RunOk.addToCpuNReadyList {n : Nat} (ht : t ∉ live)
    (hidle : ∀ c < rq.totalNum, t ≠ (rq.cpu c).idle) (hn : n < rq.totalNum) :
    RunOk (rq.addToCpuNReadyList t n) wait (insert t live) := by
  have hsteady := steady_addToCpuNReadyList rq t n
  have hpcb : ∀ u, (rq.addToCpuNReadyList t n).pcb u = if u = t then ⟨n, .ready⟩ else rq.pcb u := by
    intro u
    rw [RunQueue.addToCpuNReadyList, RunQueue.pushFront, pcb_setCpu, pcb_setPcb]
  have hready : ∀ d, ((rq.addToCpuNReadyList t n).cpu d).ready =
      if d = n then t :: (rq.cpu n).ready else (rq.cpu d).ready := by
    intro d
    rw [RunQueue.addToCpuNReadyList, RunQueue.pushFront, cpu_setCpu]
    split <;> rfl
  have hnum : ReadyCounted (rq.addToCpuNReadyList t n) :=
    ReadyCounted.setCpu h.num (by simp [h.num n])
  refine (h.settled.add (q := .ready n) (t := t) hsteady (fun u hu => ?_) ?_ ?_ ht hidle ?_
    fun r hr => ?_).runOk hnum
  · rw [hpcb, if_neg hu]
  · rw [hpcb, if_pos rfl]
    exact hn
  · rintro d (hd | hd)
    · cases hd
    · rw [hpcb, if_pos rfl, Place.ready.inj hd]
  · simp only [RunQueue.lists, hready, if_true]
    exact List.Perm.refl _
  · refine lists_of_ne hsteady (fun _ => nowRunning_addToCpuNReadyList) (fun d hd => ?_)
      fun _ _ => rfl
    rw [hready, if_neg fun heq : d = _ => hr (hd.trans (congrArg _ heq))]

/-- The last ready task of a CPU goes to the end of another list. -/
theorem RunOk.travelOne {source target : Nat} (hne : source ≠ target)
    (htarget : target < rq.totalNum) : RunOk (rq.travelOne source target) wait live := by
  unfold RunQueue.travelOne
  cases hlast : (rq.cpu source).ready.getLast? with
  | none => exact h
  | some t =>
    obtain ⟨rest, hrest⟩ := getLast?_eq_some_iff.mp hlast
    dsimp only
    generalize hrq : RunQueue.pushBack _ target t = rq'
    have hsteady : Steady rq rq' := by
      rw [← hrq]
      exact (((Steady.refl rq).setPcb _ _).setCpu (by rfl)).setCpu (by rfl)
    have hcpuid : ∀ u, (rq'.pcb u).cpuid = if u = t then target else (rq.pcb u).cpuid := by
      intro u
      rw [← hrq]
      simp only [RunQueue.pushBack, pcb_setCpu, pcb_setPcb]
      split <;> rfl
    have hready : ∀ d, (rq'.cpu d).ready = if d = source then rest
        else if d = target then (rq.cpu target).ready ++ [t] else (rq.cpu d).ready := by
      intro d
      rw [← hrq]
      simp only [RunQueue.pushBack, cpu_setCpu, cpu_setPcb, hrest, dropLast_concat,
        if_neg hne.symm]
      split_ifs <;> simp_all
    have hnum : ReadyCounted rq' := by
      have hsource := h.num source
      rw [hrest, length_append, length_singleton] at hsource
      rw [← hrq]
      refine ReadyCounted.setCpu (ReadyCounted.setCpu h.num ?_) ?_
      · simp [hrest, hsource]
      · simp [hne.symm, h.num target]
    refine (h.settled.move (p := .ready source) (q := .ready target) (t := t) hsteady
      (fun u hu => ?_) ?_ ?_ (fun heq => hne (Place.ready.inj heq)) ?_ ?_ fun r hrp hrq' =>
        ?_).runOk hnum
    · rw [hcpuid, if_neg hu]
    · rw [hcpuid, if_pos rfl]
      exact htarget
    · rintro d (hd | hd)
      · cases hd
      · rw [hcpuid, if_pos rfl, Place.ready.inj hd]
    · simp only [RunQueue.lists, hready, if_true, hrest]
      exact perm_append_singleton _ _
    · simp only [RunQueue.lists, hready, if_neg hne.symm, if_true]
      exact perm_append_singleton _ _
    · refine lists_of_ne hsteady (fun d => ?_) (fun d hd => ?_) fun _ _ => rfl
      · rw [← hrq, nowRunning_pushBack]
        exact nowRunning_setCpu rfl
      · have hds : d ≠ source := fun heq => hrp (hd.trans (heq ▸ rfl))
        have hdt : d ≠ target := fun heq => hrq' (hd.trans (heq ▸ rfl))
        rw [hready, if_neg hds, if_neg hdt]

end

/-- The loop of `load_balance` finds CPUs that exist. -/
theorem loads_lt (rq : RunQueue) : ∀ c, rq.loads.minCpu = some c ∨ rq.loads.busiestCpu = some c →
    c < rq.totalNum := by
  have hloop : ∀ (is : List Nat) (loads : RunQueue.Loads), (∀ i ∈ is, i < rq.totalNum) →
      (∀ c, loads.minCpu = some c ∨ loads.busiestCpu = some c → c < rq.totalNum) →
      ∀ c, (is.foldl (fun loads i => loads.see i (rq.cpu i).totalReadyNum) loads).minCpu = some c ∨
        (is.foldl (fun loads i => loads.see i (rq.cpu i).totalReadyNum) loads).busiestCpu = some c →
        c < rq.totalNum := by
    intro is
    induction is with
    | nil => exact fun loads _ hloads => hloads
    | cons i rest ih =>
      intro loads his hloads
      refine ih _ (fun j hj => his j (mem_cons_of_mem i hj)) fun c hc => ?_
      have hi := his i mem_cons_self
      unfold RunQueue.Loads.see at hc
      dsimp only at hc
      split at hc <;> split at hc <;> grind
  exact hloop _ _ (fun i hi => mem_range.mp hi) nofun

/-- Load balancing moves one task at most, to another CPU that exists. -/
theorem loadBalance_induction {P : RunQueue → Prop} (c : Nat) (hself : P rq)
    (htravel : ∀ source target, source ≠ target → (c < rq.totalNum → target < rq.totalNum) →
      P (rq.travelOne source target)) : P (rq.loadBalance c) := by
  have htasks : ∀ source target, (c < rq.totalNum → target < rq.totalNum) →
      P (rq.tasksTravel source target) := by
    intro source target htarget
    unfold RunQueue.tasksTravel
    split
    · exact hself
    next hne =>
    dsimp only
    split
    · exact hself
    · exact htravel source target hne htarget
  unfold RunQueue.loadBalance
  dsimp only
  split
  · exact hself
  split
  · cases hmin : rq.loads.minCpu with
    | none => exact hself
    | some target => exact htasks c target fun _ => loads_lt rq target (.inl hmin)
  split
  · cases rq.loads.busiestCpu with
    | none => exact hself
    | some source => exact htasks source c id
  · exact hself

section

variable (h : RunOk rq wait live) (hc : c < rq.totalNum)
include h hc

theorem RunOk.loadBalance : RunOk (rq.loadBalance c) wait live :=
  loadBalance_induction (P := (RunOk · wait live)) c h fun _ _ hne htarget =>
    h.travelOne hne (htarget hc)

theorem RunOk.sysYield
    (hcur : (rq.cpu c).nowRunning ≠ (rq.cpu c).idle) : RunOk (rq.sysYield c) wait live :=
  (h.requeue hc hcur).scheduleLocked hc

theorem RunOk.tick : RunOk (rq.tick c) wait live := by
  unfold RunQueue.tick
  split
  · next hcur => exact h.sysYield hc hcur
  · next hidle => exact (h.vacant_of_idle (Decidable.not_not.mp hidle)).scheduleLocked hc

theorem RunOk.sleep (hcur : (rq.cpu c).nowRunning ≠ (rq.cpu c).idle)
    (hw : (wait' w).Perm ((rq.cpu c).nowRunning :: wait w))
    (hother : ∀ v, v ≠ w → wait' v = wait v) :
    RunOk (rq.sleep c) wait' live :=
  (h.leave hc hcur _ hw hother).scheduleLocked hc

end

end Moves

/-! ## What scheduling leaves alone -/

section Schedule

variable {rq rq' : RunQueue} {wait : ω → List Nat} {live : Finset Nat} {c t u : Nat}

theorem Steady.scheduleLocked (h : Steady rq rq') (c : Nat) :
    Steady rq (rq'.scheduleLocked c) := by
  unfold RunQueue.scheduleLocked
  split
  · exact (h.setCpu (by rfl)).setPcb _ _
  · exact (h.setCpu (by rfl)).setPcb _ _

theorem steady_sysYield (rq : RunQueue) (c : Nat) : Steady rq (rq.sysYield c) := by
  exact (((Steady.refl rq).setPcb _ _).setCpu (by rfl)).scheduleLocked c

theorem steady_tick (rq : RunQueue) (c : Nat) : Steady rq (rq.tick c) := by
  unfold RunQueue.tick
  split
  · exact steady_sysYield rq c
  · exact (Steady.refl rq).scheduleLocked c

theorem steady_sleep (rq : RunQueue) (c : Nat) : Steady rq (rq.sleep c) := by
  exact ((Steady.refl rq).setPcb _ _).scheduleLocked c

theorem steady_wakeUpAll (rq : RunQueue) (ts : List Nat) : Steady rq (rq.wakeUpAll ts) := by
  induction ts generalizing rq with
  | nil => exact .refl rq
  | cons t rest ih => exact (steady_putToReadyListFirst rq t).trans (ih _)

/-- The task that is chosen was ready for this CPU. -/
theorem Vacant.cpuid_scheduleLocked (h : Vacant rq wait live c) (hc : c < rq.totalNum)
    (hu : u ∈ live) : ((rq.scheduleLocked c).pcb u).cpuid = (rq.pcb u).cpuid := by
  unfold RunQueue.scheduleLocked
  split
  · have hne : u ≠ (rq.cpu c).idle := fun heq => h.idle c hc (heq ▸ hu)
    rw [pcb_setPcb, if_neg hne, pcb_setCpu]
  · next t rest hready =>
    rw [pcb_setPcb, pcb_setCpu]
    split
    · next heq =>
      rw [heq, h.ready c t]
      rw [hready]
      exact mem_cons_self
    · rfl

theorem RunOk.cpuid_sysYield (h : RunOk rq wait live) (hc : c < rq.totalNum)
    (hcur : (rq.cpu c).nowRunning ≠ (rq.cpu c).idle) (hu : u ∈ live) :
    ((rq.sysYield c).pcb u).cpuid = (rq.pcb u).cpuid := by
  rw [RunQueue.sysYield, (h.requeue hc hcur).cpuid_scheduleLocked hc hu,
    RunQueue.pushBack, pcb_setCpu, cpuid_setState]

theorem RunOk.cpuid_tick (h : RunOk rq wait live) (hc : c < rq.totalNum) (hu : u ∈ live) :
    ((rq.tick c).pcb u).cpuid = (rq.pcb u).cpuid := by
  unfold RunQueue.tick
  split
  · next hcur => exact h.cpuid_sysYield hc hcur hu
  · next hidle => exact (h.vacant_of_idle (Decidable.not_not.mp hidle)).cpuid_scheduleLocked hc hu

end Schedule

/-! ## Which tasks run, and which have ended -/

section Running

variable {rq rq' : RunQueue} {c d t : Nat}

theorem nowRunning_scheduleLocked (hd : d ≠ c) :
    ((rq.scheduleLocked c).cpu d).nowRunning = (rq.cpu d).nowRunning := by
  unfold RunQueue.scheduleLocked
  split <;> rw [cpu_setPcb, cpu_setCpu, if_neg hd]

theorem nowRunning_sysYield (hd : d ≠ c) :
    ((rq.sysYield c).cpu d).nowRunning = (rq.cpu d).nowRunning := by
  rw [RunQueue.sysYield, nowRunning_scheduleLocked hd, nowRunning_pushBack, cpu_setState]

theorem nowRunning_tick (hd : d ≠ c) :
    ((rq.tick c).cpu d).nowRunning = (rq.cpu d).nowRunning := by
  unfold RunQueue.tick
  split
  · exact nowRunning_sysYield hd
  · exact nowRunning_scheduleLocked hd

theorem nowRunning_sleep (hd : d ≠ c) :
    ((rq.sleep c).cpu d).nowRunning = (rq.cpu d).nowRunning := by
  rw [RunQueue.sleep, nowRunning_scheduleLocked hd, cpu_setState]

theorem nowRunning_wakeUpAll {ts : List Nat} :
    ((rq.wakeUpAll ts).cpu d).nowRunning = (rq.cpu d).nowRunning := by
  induction ts generalizing rq with
  | nil => rfl
  | cons t rest ih =>
    have hrest := @ih (rq.putToReadyListFirst t)
    rw [nowRunning_putToReadyListFirst] at hrest
    exact hrest

theorem steady_loadBalance (rq : RunQueue) (c : Nat) : Steady rq (rq.loadBalance c) := by
  refine loadBalance_induction (P := Steady rq) c (.refl rq) fun source target _ _ => ?_
  unfold RunQueue.travelOne
  split
  · exact .refl rq
  · exact (((Steady.refl rq).setPcb _ _).setCpu (by rfl)).setCpu (by rfl)

theorem nowRunning_loadBalance :
    ((rq.loadBalance c).cpu d).nowRunning = (rq.cpu d).nowRunning := by
  refine loadBalance_induction (P := fun rq' =>
    (rq'.cpu d).nowRunning = (rq.cpu d).nowRunning) c rfl
    fun source target _ _ => ?_
  unfold RunQueue.travelOne
  split
  · rfl
  · rw [nowRunning_pushBack]
    exact nowRunning_setCpu rfl

/-- The same tasks have the state `TASK_ZOMBIE`. -/
def SameZombies (rq rq' : RunQueue) : Prop :=
  ∀ t, (rq'.pcb t).state = .zombie ↔ (rq.pcb t).state = .zombie

theorem SameZombies.refl (rq : RunQueue) : SameZombies rq rq := fun _ => Iff.rfl

section

variable (h : SameZombies rq rq')
include h

theorem SameZombies.setCpu (c : Nat) (cpu : Cpu) :
    SameZombies rq (rq'.setCpu c cpu) := h

theorem SameZombies.setPcb {pcb : Pcb} (hold : (rq.pcb t).state ≠ .zombie)
    (hnew : pcb.state ≠ .zombie) : SameZombies rq (rq'.setPcb t pcb) := by
  intro u
  rw [pcb_setPcb]
  split
  · next heq => exact ⟨fun hz => absurd hz hnew, fun hz => absurd (heq ▸ hz) hold⟩
  · exact h u

theorem SameZombies.setState (hold : (rq.pcb t).state ≠ .zombie)
    (state : TaskState) (hnew : state ≠ .zombie) : SameZombies rq (rq'.setState t state) :=
  h.setPcb hold hnew

theorem SameZombies.scheduleLocked
    (hready : ∀ t ∈ (rq'.cpu c).ready, (rq.pcb t).state ≠ .zombie)
    (hidle : (rq.pcb (rq'.cpu c).idle).state ≠ .zombie) :
    SameZombies rq (rq'.scheduleLocked c) := by
  unfold RunQueue.scheduleLocked
  split
  · exact (h.setCpu _ _).setPcb hidle nofun
  · next t rest hlist =>
    refine (h.setCpu _ _).setPcb (hready t ?_) nofun
    rw [hlist]
    exact mem_cons_self

end

section

variable (hcur : (rq.pcb (rq.cpu c).nowRunning).state ≠ .zombie)
  (hready : ∀ t ∈ (rq.cpu c).ready, (rq.pcb t).state ≠ .zombie)
  (hidle : (rq.pcb (rq.cpu c).idle).state ≠ .zombie)
include hcur hready hidle

/-- The current task and the ready tasks have not ended. -/
theorem sameZombies_sysYield : SameZombies rq (rq.sysYield c) := by
  have hstart : SameZombies rq ((rq.setState (rq.cpu c).nowRunning .ready).pushBack c
      (rq.cpu c).nowRunning) := ((SameZombies.refl rq).setState hcur .ready nofun).setCpu _ _
  refine hstart.scheduleLocked (fun t ht => ?_) ?_
  · simp only [RunQueue.pushBack, cpu_setCpu, if_true, cpu_setState, mem_append,
      mem_singleton] at ht
    rcases ht with ht | rfl
    · exact hready t ht
    · exact hcur
  · simp only [RunQueue.pushBack, cpu_setCpu, if_true, cpu_setState]
    exact hidle

theorem sameZombies_tick : SameZombies rq (rq.tick c) := by
  unfold RunQueue.tick
  split
  · exact sameZombies_sysYield hcur hready hidle
  · exact (SameZombies.refl rq).scheduleLocked hready hidle

theorem sameZombies_sleep : SameZombies rq (rq.sleep c) :=
  ((SameZombies.refl rq).setState hcur .sleepNotIntrAble nofun).scheduleLocked hready hidle

end

theorem SameZombies.wakeUpAll {ts : List Nat} (h : SameZombies rq rq')
    (hts : ∀ t ∈ ts, (rq.pcb t).state ≠ .zombie) : SameZombies rq (rq'.wakeUpAll ts) := by
  induction ts generalizing rq' with
  | nil => exact h
  | cons t rest ih =>
    have hfirst : SameZombies rq (rq'.putToReadyListFirst t) :=
      (h.setState (hts t mem_cons_self) .ready nofun).setCpu _ _
    exact ih hfirst fun u hu => hts u (mem_cons_of_mem t hu)

theorem sameZombies_loadBalance (rq : RunQueue) (c : Nat) : SameZombies rq (rq.loadBalance c) := by
  refine loadBalance_induction (P := SameZombies rq) c (.refl rq) fun source target _ _ => ?_
  unfold RunQueue.travelOne
  split
  · exact .refl rq
  · intro u
    simp only [RunQueue.pushBack, pcb_setCpu, pcb_setPcb]
    split
    · next heq => rw [heq]
    · exact Iff.rfl

end Running

end Osx64.Task
