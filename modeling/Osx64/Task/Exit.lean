import Osx64.Lib.Run
import Osx64.Task.Family
import Osx64.Task.RunQueue

/-!
# `sys_exit` and `sys_waitpid`

A task that ends hands its children over to init, stores `TASK_ZOMBIE` in its state, wakes its
parent and gives up its CPU for good.  A task in `sys_waitpid` looks through its children for one
in that state, frees it and returns, or else sleeps on its own wait queue and starts again.

Each section under a lock, the store of the state and each timer tick is a step here.  None of them
is protected against the others: the parent can be woken between its look and its sleep, the child
can be freed before it has given up its CPU, and a tick can find it in between.  And the child takes
`task->parent` before it has the lock of the parent's wait queue: if it is handed over to init in
the meantime, it wakes the wrong task.  The exit status is not followed.
-/

namespace Osx64.Task

open Function Finset Option List RunQueue

/-- Where a task is in the two calls. -/
inductive Phase where
  | unborn
  /-- in neither call -/
  | user
  /-- in `sys_waitpid`, before the loop over the children or asleep -/
  | scanning (want : Int)
  /-- the loop has found no child -/
  | scanned (want : Int)
  /-- the loop has found this child, `free_task` comes next -/
  | freeing (z : Nat)
  /-- in `sys_exit`, before the children are handed over -/
  | exiting
  | handedOver
  /-- the state has been stored -/
  | marked
  /-- `task->parent` has been read -/
  | calling (p : Nat)
  /-- the parent has been woken -/
  | told
  /-- the CPU has been given up -/
  | ended
deriving DecidableEq

/-- The state of the task has become `TASK_ZOMBIE`. -/
def Phase.isZombie : Phase → Bool
  | .marked | .calling _ | .told | .ended => true
  | _ => false

/-- The task has its CPU although its state is `TASK_ZOMBIE`. -/
def Phase.isLeaving : Phase → Bool
  | .marked | .calling _ | .told => true
  | _ => false

/-- The task has woken its parent. -/
def Phase.hasTold : Phase → Bool
  | .told | .ended => true
  | _ => false

/-- The wait queues of the tasks, and all others. -/
inductive Queue where
  | own (p : Nat)
  | other (q : Nat)
deriving DecidableEq

/-- `init` is `pcb_of_init`; `unreaped` are the tasks that no `sys_waitpid` has found yet. -/
structure Procs where
  rq : RunQueue
  wait : Queue → List Nat
  live : Finset Nat
  phase : Nat → Phase
  fam : Family
  unreaped : Finset Nat
  pid : Nat → Int
  init : Nat

namespace Procs

variable (st : Procs)

def current (c : Nat) : Nat := (st.rq.cpu c).nowRunning

def setPhase (t : Nat) (phase : Phase) : Procs :=
  { st with phase := update st.phase t phase }

/-- `pid == -1 || child->pid == pid` -/
def Matches (want : Int) (z : Nat) : Prop := want = -1 ∨ st.pid z = want
deriving Decidable

/-- `put_thread` and `add_to_cpu_n_ready_list` -/
def putThread (t n : Nat) (parent : Option Nat) (pid : Int) : Procs :=
  { st with
    rq := st.rq.addToCpuNReadyList t n
    live := insert t st.live
    phase := update st.phase t .user
    fam := st.fam.addChild t parent
    unreaped := insert t st.unreaped
    pid := update st.pid t pid }

/-- The loop of `sys_waitpid` over the children. -/
def findZombie (p : Nat) (want : Int) : Option Nat :=
  (st.fam.childs p).find? fun z => decide (st.Matches want z ∧ (st.rq.pcb z).state = .zombie)

/-- The section of `sys_waitpid` with the lock of the children. -/
def scan (p : Nat) (want : Int) : Procs :=
  (st.findZombie p want).elim (st.setPhase p (.scanned want)) fun z =>
    { st.setPhase p (.freeing z) with
      fam := st.fam.delChild p z, unreaped := st.unreaped.erase z }

/-- `sleep_on(&now_pcb->wait_queue)` -/
def sleepOnOwn (c : Nat) (want : Int) : Procs :=
  let p := st.current c
  { st.setPhase p (.scanning want) with
    rq := st.rq.sleep c
    wait := update st.wait (.own p) (st.wait (.own p) ++ [p]) }

def wakeUpAll (q : Queue) : Procs :=
  { st with rq := st.rq.wakeUpAll (st.wait q), wait := update st.wait q [] }

/-- The parent is between its look at the children and its sleep, and waits for the task. -/
def AboutToSleep (p z : Nat) : Prop := ∃ want, st.phase p = .scanned want ∧ st.Matches want z

/-- The parent sleeps in a `sys_waitpid` that waits for the task. -/
def SleepsFor (p z : Nat) : Prop :=
  p ∈ st.wait (.own p) ∧ ∃ want, st.phase p = .scanning want ∧ st.Matches want z

end Procs

/-! ## Steps -/

inductive ExitEvent where
  | makeInit (n : Nat) (pid : Int)
  /-- the current task of a CPU makes a task for CPU `n`, as a child of its own or of init -/
  | fork (c t n : Nat) (linkInit : Bool) (pid : Int)
  | yield (c : Nat)
  | tick (c : Nat)
  | loadBalance (c : Nat)
  | sleepOn (c q : Nat)
  | wakeUpAll (q : Nat)
  | waitpid (c : Nat) (want : Int)
  | scan (c : Nat) (want : Int)
  | sleepOnOwn (c : Nat) (want : Int)
  | free (c z : Nat)
  | exit (c : Nat)
  | handOver (c : Nat)
  | markZombie (c : Nat)
  | readParent (c p : Nat)
  | wakeParent (c p : Nat)
  | schedule (c : Nat)

/-- The current task of a CPU is in this phase, and is not the idle task. -/
def Procs.At (st : Procs) (c : Nat) (phase : Phase) : Prop :=
  c < st.rq.totalNum ∧ st.current c ≠ (st.rq.cpu c).idle ∧ st.phase (st.current c) = phase
deriving Decidable

/-- A PCB that can be made into a task for CPU `n`. -/
def Procs.CanMake (st : Procs) (t n : Nat) : Prop :=
  st.phase t = .unborn ∧ (∀ c < st.rq.totalNum, t ≠ (st.rq.cpu c).idle) ∧ n < st.rq.totalNum

instance Procs.decidableCanMake (st : Procs) (t n : Nat) : Decidable (st.CanMake t n) :=
  inferInstanceAs (Decidable (_ ∧ _ ∧ _))

/-- Init does not get further than `handOver`: it waits there for a lock of its own. -/
def ExitEvent.Possible (st : Procs) : ExitEvent → Prop
  | .makeInit n _ => st.CanMake st.init n
  | .fork c t n _ _ => st.At c .user ∧ st.CanMake t n
  | .yield c | .sleepOn c _ | .waitpid c _ | .exit c => st.At c .user
  | .tick c | .loadBalance c => c < st.rq.totalNum
  | .wakeUpAll _ => True
  | .scan c want => st.At c (.scanning want)
  | .sleepOnOwn c want => st.At c (.scanned want)
  | .free c z => st.At c (.freeing z)
  | .handOver c => st.At c .exiting ∧ st.current c ≠ st.init
  | .markZombie c => st.At c .handedOver
  | .readParent c p => st.At c .marked ∧ st.fam.parent (st.current c) = some p
  | .wakeParent c p => st.At c (.calling p)
  | .schedule c => st.At c .told

def Procs.exec (st : Procs) : ExitEvent → Procs
  | .makeInit n pid => st.putThread st.init n none pid
  | .fork c t n linkInit pid =>
    st.putThread t n (some (if linkInit then st.init else st.current c)) pid
  | .yield c => { st with rq := st.rq.sysYield c }
  | .tick c => { st with rq := st.rq.tick c }
  | .loadBalance c => { st with rq := st.rq.loadBalance c }
  | .sleepOn c q => { st with
      rq := st.rq.sleep c
      wait := update st.wait (.other q) (st.wait (.other q) ++ [st.current c]) }
  | .wakeUpAll q => st.wakeUpAll (.other q)
  | .waitpid c want => st.setPhase (st.current c) (.scanning want)
  | .scan c want => st.scan (st.current c) want
  | .sleepOnOwn c want => st.sleepOnOwn c want
  | .free c _ => st.setPhase (st.current c) .user
  | .exit c => st.setPhase (st.current c) .exiting
  | .handOver c => { st.setPhase (st.current c) .handedOver with
      fam := st.fam.handOver (st.current c) st.init }
  | .markZombie c => { st.setPhase (st.current c) .marked with
      rq := st.rq.setState (st.current c) .zombie }
  | .readParent c p => st.setPhase (st.current c) (.calling p)
  | .wakeParent c p => (st.wakeUpAll (.own p)).setPhase (st.current c) .told
  | .schedule c => { st.setPhase (st.current c) .ended with
      rq := st.rq.scheduleLocked c, live := st.live.erase (st.current c) }

def ExitStep (st st' : Procs) : Prop := ∃ e : ExitEvent, e.Possible st ∧ st.exec e = st'

/-- A tick does not find a task between the store of its state and its last switch, the loop over
the children does not meet one, no task does its `wake_up_all` between its parent's loop and the
parent's sleep, or on another queue than that of a parent that sleeps, and init does not sleep while
it gets a child that has woken another parent. -/
def ExitEvent.Safe (st : Procs) : ExitEvent → Prop
  | .tick c => (st.phase (st.current c)).isLeaving = false
  | .scan c want => ∀ z ∈ st.fam.childs (st.current c), st.Matches want z →
      (st.phase z).isLeaving = false
  | .wakeParent c p => ∀ q ∈ st.fam.parent (st.current c),
      ¬ st.AboutToSleep q (st.current c) ∧ (q ≠ p → ¬ st.SleepsFor q (st.current c))
  | .handOver c => ∀ z ∈ st.fam.childs (st.current c), (st.phase z).hasTold = true →
      ¬ st.AboutToSleep st.init z ∧ ¬ st.SleepsFor st.init z
  | _ => True

def SafeExitStep (st st' : Procs) : Prop :=
  ∃ e : ExitEvent, (e.Possible st ∧ e.Safe st) ∧ st.exec e = st'

/-- All CPUs run their idle tasks, and there are no others. -/
def Procs.initial (totalNum : Nat) (idle : Nat → Nat) (init : Nat) : Procs where
  rq := RunQueue.initial totalNum idle
  wait := fun _ => []
  live := ∅
  phase := fun _ => .unborn
  fam := ⟨fun _ => none, fun _ => []⟩
  unreaped := ∅
  pid := fun _ => 0
  init := init

/-! ## The invariant -/

/-- A task whose state has become `TASK_ZOMBIE` keeps it and is on a CPU until it has ended, and
once it has woken its parent the parent is not asleep and not about to sleep. -/
structure Procs.Ok (st : Procs) : Prop where
  run : RunOk st.rq st.wait st.live
  fam : st.fam.Ok st.unreaped
  zombie : ∀ t, (st.rq.pcb t).state = .zombie ↔ (st.phase t).isZombie = true
  leaving : ∀ t, (st.phase t).isLeaving = true →
    ∃ c < st.rq.totalNum, st.current c = t ∧ t ≠ (st.rq.cpu c).idle
  ended : ∀ t, st.phase t = .ended → t ∉ st.live ∧ ∀ c < st.rq.totalNum, t ≠ (st.rq.cpu c).idle
  unborn : ∀ t, st.phase t = .unborn → t ∉ st.live ∧ t ∉ st.unreaped
  heard : ∀ p, ∀ z ∈ st.fam.childs p, (st.phase z).hasTold = true →
    ¬ st.AboutToSleep p z ∧ ¬ st.SleepsFor p z
  freeing : ∀ p z, st.phase p = .freeing z → st.phase z = .ended

theorem Procs.ok_initial (totalNum : Nat) (idle : Nat → Nat) (init : Nat) :
    (initial totalNum idle init).Ok where
  run := runOk_initial totalNum idle
  fam := ⟨fun _ _ => ⟨fun h => absurd h not_mem_nil, fun h => absurd h.1 (notMem_empty _)⟩,
    fun _ => nodup_nil⟩
  zombie _ := ⟨nofun, nofun⟩
  leaving _ := nofun
  ended _ := nofun
  unborn t _ := ⟨notMem_empty t, notMem_empty t⟩
  heard _ _ hz := absurd hz not_mem_nil
  freeing _ _ := nofun

section Steps

variable {st st' : Procs} {c p t z : Nat} {want : Int} {phase : Phase}

theorem isLeaving_or_ended (h : phase.isZombie = true) : phase.isLeaving = true ∨
    phase = .ended := by
  cases phase with
  | marked | calling | told => exact .inl rfl
  | ended => exact .inr rfl
  | unborn | user | scanning | scanned | freeing | exiting | handedOver => cases h

theorem isZombie_of_isLeaving (h : phase.isLeaving = true) : phase.isZombie = true := by
  cases phase with
  | marked | calling | told => rfl
  | unborn | user | scanning | scanned | freeing | exiting | handedOver | ended => cases h

theorem not_isLeaving (h : phase.isZombie = false) : phase.isLeaving = false := by
  rw [Bool.eq_false_iff] at h ⊢
  exact fun hleaving => h (isZombie_of_isLeaving hleaving)

theorem isZombie_of_hasTold (h : phase.hasTold = true) : phase.isZombie = true := by
  cases phase with
  | told | ended => rfl
  | unborn | user | scanning | scanned | freeing | exiting | handedOver | marked | calling =>
    cases h

/-! ### Who has ended -/

theorem Procs.At.mem_running (hat : st.At c phase) :
    st.current c ∈ st.rq.lists st.wait (.running c) := by
  obtain ⟨hc, hidle, -⟩ := hat
  rw [lists, if_pos ⟨hc, hidle⟩]
  exact List.mem_singleton_self _

/-- A task that runs is not in its own wait queue. -/
theorem Procs.Ok.notMem_own (h : st.Ok) (hat : st.At c phase) :
    st.current c ∉ st.wait (.own (st.current c)) := by
  intro hmem
  have hmem' : st.current c ∈ st.rq.lists st.wait (.waiting (.own (st.current c))) := hmem
  cases h.run.placed.unique _ _ _ hat.mem_running hmem'

/-- A task in a list has not ended. -/
theorem Procs.Ok.not_zombie_of_mem {l : Place Queue} (h : st.Ok) (hl : ∀ c, l ≠ .running c)
    (ht : t ∈ st.rq.lists st.wait l) : (st.rq.pcb t).state ≠ .zombie := by
  intro hstate
  rcases isLeaving_or_ended ((h.zombie t).mp hstate) with hleaving | hended
  · obtain ⟨c, hc, rfl, hidle⟩ := h.leaving t hleaving
    have hmem : st.current c ∈ st.rq.lists st.wait (.running c) := by
      rw [lists, if_pos ⟨hc, hidle⟩]
      exact List.mem_singleton_self _
    exact hl c (h.run.placed.unique _ _ _ ht hmem)
  · exact (h.ended t hended).1 (h.run.placed.mem_live ht)

theorem Procs.Ok.not_zombie_of_ready (h : st.Ok) (ht : t ∈ (st.rq.cpu c).ready) :
    (st.rq.pcb t).state ≠ .zombie :=
  h.not_zombie_of_mem (l := .ready c) nofun ht

theorem Procs.Ok.not_zombie_idle (h : st.Ok) (hc : c < st.rq.totalNum) :
    (st.rq.pcb (st.rq.cpu c).idle).state ≠ .zombie := by
  intro hstate
  rcases isLeaving_or_ended ((h.zombie _).mp hstate) with hleaving | hended
  · obtain ⟨d, hd, hcur, hidle⟩ := h.leaving _ hleaving
    rw [← hcur] at hidle
    have hlive := (h.run.current_mem hd hidle).2.1
    exact h.run.idle c hc (hcur ▸ hlive)
  · exact (h.ended _ hended).2 c hc rfl

theorem Procs.Ok.not_zombie_current (h : st.Ok) (hc : c < st.rq.totalNum)
    (hleaving : (st.phase (st.current c)).isLeaving = false) :
    (st.rq.pcb (st.current c)).state ≠ .zombie := by
  by_cases hidle : st.current c = (st.rq.cpu c).idle
  · rw [hidle]
    exact h.not_zombie_idle hc
  · intro hstate
    rcases isLeaving_or_ended ((h.zombie _).mp hstate) with hleaving' | hended
    · rw [hleaving] at hleaving'
      cases hleaving'
    · exact (h.ended _ hended).1 (h.run.current_mem hc hidle).2.1

/-! ### Changes of one part of the state -/

/-- A parent that does not sleep still does not, if it has not come closer to it. -/
theorem Procs.awake_mono (h : ¬ st.AboutToSleep p z ∧ ¬ st.SleepsFor p z)
    (hscanned : ∀ want, st'.phase p = .scanned want → st.phase p = .scanned want)
    (hscanning : ∀ want, st'.phase p = .scanning want → p ∈ st'.wait (.own p) →
      st.phase p = .scanning want ∧ p ∈ st.wait (.own p))
    (hmatches : ∀ want, st'.Matches want z → st.Matches want z) :
    ¬ st'.AboutToSleep p z ∧ ¬ st'.SleepsFor p z := by
  refine ⟨?_, ?_⟩
  · rintro ⟨want, hphase, hm⟩
    exact h.1 ⟨want, hscanned want hphase, hmatches want hm⟩
  · rintro ⟨hown, want, hphase, hm⟩
    obtain ⟨hphase', hown'⟩ := hscanning want hphase hown
    exact h.2 ⟨hown', want, hphase', hmatches want hm⟩

/-- The same when another task goes on. -/
theorem Procs.awake_of_phase_eq (h : ¬ st.AboutToSleep p z ∧ ¬ st.SleepsFor p z)
    (hphase : (∀ want, st'.phase p ≠ .scanned want ∧ st'.phase p ≠ .scanning want) ∨
      st'.phase p = st.phase p)
    (hwait : p ∈ st'.wait (.own p) → p ∈ st.wait (.own p))
    (hmatches : ∀ want, st'.Matches want z → st.Matches want z) :
    ¬ st'.AboutToSleep p z ∧ ¬ st'.SleepsFor p z := by
  refine awake_mono h (fun want hw => ?_) (fun want hw hown => ⟨?_, hwait hown⟩) hmatches
  · rcases hphase with hnot | hsame
    · exact absurd hw (hnot want).1
    · exact hsame.symm.trans hw
  · rcases hphase with hnot | hsame
    · exact absurd hw (hnot want).2
    · exact hsame.symm.trans hw

variable (st) in
/-- The only task that goes on is `t`. -/
theorem phase_cases {t : Nat} (new : Phase) (hphase : st'.phase = update st.phase t new)
    (hnew : ∀ want, new ≠ .scanned want ∧ new ≠ .scanning want) (p : Nat) :
    (∀ want, st'.phase p ≠ .scanned want ∧ st'.phase p ≠ .scanning want) ∨
      st'.phase p = st.phase p := by
  rw [hphase]
  by_cases hp : p = t
  · rw [hp, update_self]
    exact .inl hnew
  · exact .inr (update_of_ne hp _ _)

/-- A task in a phase unlike the new one is another task, and was in that phase before. -/
theorem phase_back (P : Phase → Prop) {new : Phase} {u : Nat}
    (hphase : st'.phase = update st.phase t new) (hu : P (st'.phase u)) (hnew : ¬P new) :
    u ≠ t ∧ P (st.phase u) := by
  rw [hphase] at hu
  by_cases hut : u = t
  · rw [hut, update_self] at hu
    exact absurd hu hnew
  · rw [update_of_ne hut] at hu
    exact ⟨hut, hu⟩

theorem Procs.Ok.freeing_update {new : Phase} (h : st.Ok)
    (hphase : st'.phase = update st.phase t new)
    (hnew : ∀ z, new = .freeing z → st.phase z = .ended)
    (hkeep : st.phase t = .ended → new = .ended)
    (p z : Nat) (hpz : st'.phase p = .freeing z) : st'.phase z = .ended := by
  rw [hphase] at hpz ⊢
  have hended : st.phase z = .ended := by
    by_cases hp : p = t
    · rw [hp, update_self] at hpz
      exact hnew z hpz
    · rw [update_of_ne hp] at hpz
      exact h.freeing p z hpz
  by_cases hz : z = t
  · rw [hz, update_self]
    exact hkeep (hz ▸ hended)
  · rw [update_of_ne hz]
    exact hended

section

variable {rq : RunQueue} {wait : Queue → List Nat} (h : st.Ok) (hrun : RunOk rq wait st.live)
  (hsteady : Steady st.rq rq) (hzombies : SameZombies st.rq rq)
  (hrunning : ∀ d, (st.phase (st.current d)).isLeaving = true →
    (rq.cpu d).nowRunning = st.current d)
include h hrun hsteady hzombies hrunning

/-- Tasks change their places; none of them is leaving, and no parent falls asleep that has been
woken. -/
theorem Procs.Ok.reschedule
    (hasleep : ∀ p, ∀ z ∈ st.fam.childs p, (st.phase z).hasTold = true → p ∈ wait (.own p) →
      ∀ want, st.phase p = .scanning want → ¬ st.Matches want z) :
    Procs.Ok { st with rq := rq, wait := wait } where
  run := hrun
  fam := h.fam
  zombie t := (hzombies t).trans (h.zombie t)
  leaving t ht := by
    obtain ⟨c, hc, rfl, hidle⟩ := h.leaving t ht
    refine ⟨c, ?_, hrunning c ht, ?_⟩
    · rw [hsteady.totalNum]
      exact hc
    · rw [hsteady.idle]
      exact hidle
  ended t ht := by
    refine ⟨(h.ended t ht).1, fun c hc => ?_⟩
    rw [hsteady.totalNum] at hc
    rw [hsteady.idle]
    exact (h.ended t ht).2 c hc
  unborn := h.unborn
  heard p z hz htold := by
    refine ⟨(h.heard p z hz htold).1, ?_⟩
    rintro ⟨hmem, want, hphase, hmatches⟩
    exact hasleep p z hz htold hmem want hphase hmatches
  freeing := h.freeing

/-- A move after which no more tasks sleep on their own queues than before. -/
theorem Procs.Ok.reschedule_of_wait (hwait : ∀ p, p ∈ wait (.own p) → p ∈ st.wait (.own p)) :
    Procs.Ok { st with rq := rq, wait := wait } := by
  refine h.reschedule hrun hsteady hzombies hrunning fun p z hz htold hmem want hphase
    hmatches => ?_
  exact (h.heard p z hz htold).2 ⟨hwait p hmem, want, hphase, hmatches⟩

end

/-- The current task goes on, and neither was nor is a zombie. -/
theorem Procs.Ok.setPhase (h : st.Ok) {old : Phase} (hat : st.At c old)
    (hold : old.isZombie = false) (hnew : phase.isZombie = false) (hborn : phase ≠ .unborn)
    (hscanned : ∀ want, phase = .scanned want → ∀ z ∈ st.fam.childs (st.current c),
      (st.phase z).hasTold = true → ¬ st.Matches want z)
    (hfreeing : ∀ z, phase = .freeing z → st.phase z = .ended) :
    (st.setPhase (st.current c) phase).Ok := by
  have hupdate : (st.setPhase (st.current c) phase).phase =
    update st.phase (st.current c) phase := rfl
  rw [← hat.2.2] at hold
  refine ⟨h.run, h.fam, fun t => ?_,
    fun t ht => h.leaving t (phase_back (Phase.isLeaving · = true) hupdate ht ?_).2,
    fun t ht => h.ended t (phase_back (· = .ended) hupdate ht ?_).2,
    fun t ht => h.unborn t (phase_back (· = .unborn) hupdate ht hborn).2,
    fun p z hz htold => ?_, h.freeing_update hupdate hfreeing fun hended => ?_⟩
  · rw [hupdate]
    by_cases heq : t = st.current c
    · rw [heq, update_self, hnew]
      refine (h.zombie _).trans ?_
      rw [hold]
    · rw [update_of_ne heq]
      exact h.zombie t
  · rw [not_isLeaving hnew]
    exact Bool.false_ne_true
  · rintro rfl
    cases hnew
  · replace htold := (phase_back (Phase.hasTold · = true) hupdate htold fun hx => by
      rw [isZombie_of_hasTold hx] at hnew
      cases hnew).2
    by_cases heq : p = st.current c
    · refine ⟨?_, ?_⟩
      · rintro ⟨want, hphase, hmatches⟩
        rw [hupdate, heq, update_self] at hphase
        exact hscanned want hphase z (heq ▸ hz) htold hmatches
      · rintro ⟨hmem, -⟩
        exact h.notMem_own hat (heq ▸ hmem)
    · exact awake_of_phase_eq (h.heard p z hz htold) (.inr (update_of_ne heq _ _)) id fun _ => id
  · rw [hended] at hold
    cases hold

/-! ### Each step -/

theorem Procs.Ok.putThread {n : Nat} {pid : Int} (h : st.Ok) (hmake : st.CanMake t n)
    (parent : Option Nat) : (st.putThread t n parent pid).Ok := by
  obtain ⟨hunborn, hidle, hn⟩ := hmake
  obtain ⟨hlive, hunreaped⟩ := h.unborn t hunborn
  have hsteady := steady_addToCpuNReadyList st.rq t n
  have hupdate : (st.putThread t n parent pid).phase = update st.phase t .user := rfl
  have hchilds : ∀ p z, z ≠ t → z ∈ (st.fam.addChild t parent).childs p → z ∈ st.fam.childs p := by
    intro p z hz hmem
    obtain ⟨hin, hpar⟩ := ((h.fam.addChild hunreaped parent).mem p z).mp hmem
    refine (h.fam.mem p z).mpr ⟨(mem_insert.mp hin).resolve_left hz, ?_⟩
    cases parent <;> exact (update_of_ne hz _ _).symm.trans hpar
  refine ⟨h.run.addToCpuNReadyList hlive hidle hn, h.fam.addChild hunreaped parent, fun u => ?_,
    fun u hu => ?_, fun u hu => ?_, fun u hu => ?_, fun p z hz htold => ?_,
    h.freeing_update hupdate nofun fun hended => absurd (hunborn.symm.trans hended) nofun⟩
  · rw [hupdate]
    by_cases hu : u = t
    · rw [hu, update_self]
      refine ⟨fun hz => ?_, nofun⟩
      have hready : ((st.rq.addToCpuNReadyList t n).pcb t).state = .zombie := hz
      rw [addToCpuNReadyList, pushFront, pcb_setCpu, pcb_setPcb, if_pos rfl] at hready
      cases hready
    · rw [update_of_ne hu, ← h.zombie u]
      change ((st.rq.addToCpuNReadyList t n).pcb u).state = _ ↔ _
      rw [addToCpuNReadyList, pushFront, pcb_setCpu, pcb_setPcb, if_neg hu]
  · obtain ⟨c, hc, hcur, hnot⟩ :=
      h.leaving u (phase_back (Phase.isLeaving · = true) hupdate hu (by decide)).2
    refine ⟨c, hsteady.totalNum ▸ hc, ?_, ?_⟩
    · exact nowRunning_addToCpuNReadyList.trans hcur
    · exact fun heq => hnot (heq.trans (hsteady.idle c))
  · obtain ⟨hu', hu⟩ := phase_back (· = .ended) hupdate hu (by decide)
    obtain ⟨hnot, hcpus⟩ := h.ended u hu
    refine ⟨fun hmem => hnot ((mem_insert.mp hmem).resolve_left hu'), fun c hc heq => ?_⟩
    exact hcpus c (hsteady.totalNum ▸ hc) (heq.trans (hsteady.idle c))
  · obtain ⟨hu', hu⟩ := phase_back (· = .unborn) hupdate hu (by decide)
    obtain ⟨hnot, hnot'⟩ := h.unborn u hu
    exact ⟨fun hmem => hnot ((mem_insert.mp hmem).resolve_left hu'),
      fun hmem => hnot' ((mem_insert.mp hmem).resolve_left hu')⟩
  · obtain ⟨hzt, htold⟩ := phase_back (Phase.hasTold · = true) hupdate htold (by decide)
    refine awake_of_phase_eq (h.heard p z (hchilds p z hzt hz) htold)
      (phase_cases st .user rfl (fun _ => by constructor <;> rintro ⟨⟩) p) id ?_
    rintro want (hany | hpid)
    · exact .inl hany
    · exact .inr ((update_of_ne hzt _ _).symm.trans hpid)

/-- The child that the loop finds has ended. -/
theorem Procs.Ok.scan (h : st.Ok) (hat : st.At c (.scanning want))
    (hsafe : (ExitEvent.scan c want).Safe st) : (st.scan (st.current c) want).Ok := by
  unfold Procs.scan
  cases hfind : st.findZombie (st.current c) want with
  | none =>
    refine h.setPhase hat rfl rfl nofun (fun w hw z hz htold hmatches => ?_) nofun
    cases hw
    have hnone := find?_eq_none.mp hfind z hz
    rw [decide_eq_true_eq] at hnone
    exact hnone ⟨hmatches, (h.zombie z).mpr (isZombie_of_hasTold htold)⟩
  | some z =>
    have hfound := find?_some (p := fun z => decide _) hfind
    obtain ⟨hmatches, hstate⟩ := of_decide_eq_true hfound
    have hz : z ∈ st.fam.childs (st.current c) := mem_of_find?_eq_some hfind
    have hended : st.phase z = .ended := by
      rcases isLeaving_or_ended ((h.zombie z).mp hstate) with hleaving | hended
      · rw [hsafe z hz hmatches] at hleaving
        cases hleaving
      · exact hended
    have hnext : (st.setPhase (st.current c) (.freeing z)).Ok := by
      refine h.setPhase hat rfl rfl nofun nofun fun y hy => ?_
      cases hy
      exact hended
    have hfam := h.fam.delChild hz
    refine { hnext with
      fam := hfam, unborn := fun u hu => ?_, heard := fun p y hy => hnext.heard p y ?_ }
    · exact ⟨(hnext.unborn u hu).1, fun hmem => (hnext.unborn u hu).2 (mem_of_mem_erase hmem)⟩
    · obtain ⟨hin, hpar⟩ := (hfam.mem p y).mp hy
      exact (h.fam.mem p y).mpr ⟨mem_of_mem_erase hin, hpar⟩

/-- All tasks are where they were, as far as the move is done on a CPU whose task is not leaving. -/
theorem Procs.Ok.not_zombie_switch (h : st.Ok) (hc : c < st.rq.totalNum)
    (hleaving : (st.phase (st.current c)).isLeaving = false) :
    (st.rq.pcb (st.current c)).state ≠ .zombie ∧
      (∀ t ∈ (st.rq.cpu c).ready, (st.rq.pcb t).state ≠ .zombie) ∧
      (st.rq.pcb (st.rq.cpu c).idle).state ≠ .zombie :=
  ⟨h.not_zombie_current hc hleaving, fun _ ht => h.not_zombie_of_ready ht, h.not_zombie_idle hc⟩

variable (st) in
theorem ne_of_isLeaving {d : Nat} (hleaving : (st.phase (st.current c)).isLeaving = false)
    (hd : (st.phase (st.current d)).isLeaving = true) : d ≠ c := by
  rintro rfl
  rw [hleaving] at hd
  cases hd

section

variable (h : st.Ok)
include h

theorem Procs.Ok.tick (hc : c < st.rq.totalNum)
    (hsafe : (ExitEvent.tick c).Safe st) : (st.exec (.tick c)).Ok := by
  obtain ⟨hcur, hready, hidle⟩ := h.not_zombie_switch hc hsafe
  exact h.reschedule_of_wait (h.run.tick hc) (steady_tick st.rq c)
    (sameZombies_tick hcur hready hidle) (fun d hd => nowRunning_tick (ne_of_isLeaving st hsafe hd))
    fun p hp => hp

theorem Procs.Ok.yield (hat : st.At c .user) : (st.exec (.yield c)).Ok := by
  have hsafe : (st.phase (st.current c)).isLeaving = false := by rw [hat.2.2]; rfl
  obtain ⟨hcur, hready, hidle⟩ := h.not_zombie_switch hat.1 hsafe
  exact h.reschedule_of_wait (h.run.sysYield hat.1 hat.2.1) (steady_sysYield st.rq c)
    (sameZombies_sysYield hcur hready hidle)
    (fun d hd => nowRunning_sysYield (ne_of_isLeaving st hsafe hd)) fun p hp => hp

theorem Procs.Ok.loadBalance (hc : c < st.rq.totalNum) : (st.exec (.loadBalance c)).Ok :=
  h.reschedule_of_wait (h.run.loadBalance hc) (steady_loadBalance st.rq c)
    (sameZombies_loadBalance st.rq c) (fun _ _ => nowRunning_loadBalance) fun _ hp => hp

theorem Procs.Ok.sleepOn {q : Nat} (hat : st.At c .user) : (st.exec (.sleepOn c q)).Ok := by
  have hsafe : (st.phase (st.current c)).isLeaving = false := by rw [hat.2.2]; rfl
  obtain ⟨hcur, hready, hidle⟩ := h.not_zombie_switch hat.1 hsafe
  refine h.reschedule_of_wait (h.run.sleep (w := .other q) hat.1 hat.2.1 ?_ fun v hv => ?_)
    (steady_sleep st.rq c) (sameZombies_sleep hcur hready hidle)
    (fun d hd => nowRunning_sleep (ne_of_isLeaving st hsafe hd)) fun p hp => ?_
  · rw [update_self]
    exact perm_append_singleton _ _
  · exact update_of_ne hv _ _
  · rw [update_of_ne (by simp : Queue.own p ≠ .other q)] at hp
    exact hp

/-- `sleep_on` after a loop that has found nothing. -/
theorem Procs.Ok.sleepOnOwn (hat : st.At c (.scanned want)) : (st.sleepOnOwn c want).Ok := by
  have hnext : (st.setPhase (st.current c) (.scanning want)).Ok :=
    h.setPhase hat rfl rfl nofun nofun nofun
  have hphase : (st.setPhase (st.current c) (.scanning want)).phase (st.current c) =
      .scanning want :=
    update_self ..
  have hsafe : ((st.setPhase (st.current c) (.scanning want)).phase (st.current c)).isLeaving =
      false := by
    rw [hphase]
    rfl
  obtain ⟨hcur, hready, hidle⟩ := hnext.not_zombie_switch hat.1 hsafe
  refine hnext.reschedule (h.run.sleep (w := .own (st.current c)) hat.1 hat.2.1 ?_ fun v hv => ?_)
    (steady_sleep st.rq c) (sameZombies_sleep hcur hready hidle)
    (fun d hd => nowRunning_sleep (ne_of_isLeaving (st.setPhase _ _) hsafe hd))
    fun p z hz htold hmem w hw hmatches => ?_
  · rw [update_self]
    exact perm_append_singleton _ _
  · exact update_of_ne hv _ _
  · by_cases hp : p = st.current c
    · -- the task would have been found
      subst hp
      rw [hphase] at hw
      cases hw
      have htold := (phase_back (Phase.hasTold · = true)
        (rfl : (st.setPhase (st.current c) (.scanning want)).phase = _) htold nofun).2
      exact (h.heard _ z hz htold).1 ⟨want, hat.2.2, hmatches⟩
    · have hmem' : p ∈ st.wait (.own p) := by
        rw [update_of_ne (fun heq : Queue.own p = _ => hp (by cases heq; rfl))] at hmem
        exact hmem
      exact (hnext.heard p z hz htold).2 ⟨hmem', w, hw, hmatches⟩

theorem Procs.Ok.wakeUpAll (q : Queue) : (st.wakeUpAll q).Ok := by
  refine h.reschedule_of_wait (h.run.wakeUpAll q) (steady_wakeUpAll st.rq _)
    ((SameZombies.refl st.rq).wakeUpAll fun t ht => ?_) (fun _ _ => nowRunning_wakeUpAll)
      fun p hp => ?_
  · exact h.not_zombie_of_mem (l := .waiting q) nofun ht
  · rw [update_apply] at hp
    split at hp
    · cases hp
    · exact hp

/-- The children of the task have init as their parent now. -/
theorem Procs.Ok.handOver (hat : st.At c .exiting) (hinit : st.current c ≠ st.init)
    (hsafe : (ExitEvent.handOver c).Safe st) : (st.exec (.handOver c)).Ok := by
  have hnext : (st.setPhase (st.current c) .handedOver).Ok :=
    h.setPhase hat rfl rfl nofun nofun nofun
  refine { hnext with fam := h.fam.handOver hinit, heard := fun p z hz htold => ?_ }
  obtain ⟨-, hmem | ⟨rfl, hmem⟩⟩ := (Family.mem_childs_handOver hinit).mp hz
  · exact hnext.heard p z hmem htold
  · have hupdate : (st.exec (.handOver c)).phase = update st.phase (st.current c) .handedOver := rfl
    have htold := (phase_back (Phase.hasTold · = true) hupdate htold nofun).2
    have hiphase : (st.exec (.handOver c)).phase st.init = st.phase st.init :=
      update_of_ne hinit.symm _ _
    exact awake_of_phase_eq (hsafe z hmem htold) (.inr hiphase) id fun _ => id

theorem Procs.Ok.markZombie (hat : st.At c .handedOver) : (st.exec (.markZombie c)).Ok := by
  have hupdate : (st.exec (.markZombie c)).phase = update st.phase (st.current c) .marked := rfl
  refine ⟨h.run.setState _ _, h.fam, fun t => ?_, fun t ht => ?_,
    fun t ht => h.ended t (phase_back (· = .ended) hupdate ht nofun).2,
    fun t ht => h.unborn t (phase_back (· = .unborn) hupdate ht nofun).2, fun p z hz htold => ?_,
    h.freeing_update hupdate nofun fun hended => absurd (hat.2.2.symm.trans hended) nofun⟩
  · change ((st.rq.setState (st.current c) .zombie).pcb t).state = _ ↔ _
    rw [setState, pcb_setPcb, hupdate]
    by_cases ht : t = st.current c
    · rw [if_pos ht, ht, update_self]
      exact ⟨fun _ => rfl, fun _ => rfl⟩
    · rw [if_neg ht, update_of_ne ht]
      exact h.zombie t
  · by_cases htc : t = st.current c
    · exact ⟨c, hat.1, htc.symm, htc ▸ hat.2.1⟩
    · rw [hupdate, update_of_ne htc] at ht
      exact h.leaving t ht
  · have htold := (phase_back (Phase.hasTold · = true) hupdate htold nofun).2
    exact awake_of_phase_eq (h.heard p z hz htold)
      (phase_cases st .marked rfl (fun _ => ⟨nofun, nofun⟩) p) id fun _ => id

/-- A task goes on between the store of its state and its last switch. -/
theorem Procs.Ok.setLeaving (hold : (st.phase t).isLeaving = true) (hnew : phase.isLeaving = true)
    (htold : phase.hasTold = true →
      ∀ p, t ∈ st.fam.childs p → ¬ st.AboutToSleep p t ∧ ¬ st.SleepsFor p t) :
    (st.setPhase t phase).Ok := by
  have hupdate : (st.setPhase t phase).phase = update st.phase t phase := rfl
  refine ⟨h.run, h.fam, fun u => ?_, fun u hu => ?_,
    fun u hu => h.ended u (phase_back (· = .ended) hupdate hu ?_).2,
    fun u hu => h.unborn u (phase_back (· = .unborn) hupdate hu ?_).2, fun p z hz hheard => ?_,
    h.freeing_update hupdate (fun z hz => ?_) fun hended => ?_⟩
  · rw [hupdate]
    by_cases hut : u = t
    · rw [hut, update_self]
      exact (h.zombie t).trans
        (iff_of_true (isZombie_of_isLeaving hold) (isZombie_of_isLeaving hnew))
    · rw [update_of_ne hut]
      exact h.zombie u
  · by_cases hut : u = t
    · exact h.leaving u (hut ▸ hold)
    · rw [hupdate, update_of_ne hut] at hu
      exact h.leaving u hu
  · rintro rfl
    cases hnew
  · rintro rfl
    cases hnew
  · have hawake : ¬ st.AboutToSleep p z ∧ ¬ st.SleepsFor p z := by
      rw [hupdate] at hheard
      by_cases hzt : z = t
      · rw [hzt, update_self] at hheard
        rw [hzt] at hz ⊢
        exact htold hheard p hz
      · rw [update_of_ne hzt] at hheard
        exact h.heard p z hz hheard
    refine awake_of_phase_eq hawake (phase_cases st phase rfl (fun want => ⟨?_, ?_⟩) p)
      id fun _ => id
    · rintro rfl
      cases hnew
    · rintro rfl
      cases hnew
  · rw [hz] at hnew
    cases hnew
  · rw [hended] at hold
    cases hold

/-- The task has woken its parent, which was not about to sleep and sleeps no more. -/
theorem Procs.Ok.wakeParent (hat : st.At c (.calling p))
    (hsafe : (ExitEvent.wakeParent c p).Safe st) :
    (st.exec (.wakeParent c p)).Ok := by
  have hold : (st.phase (st.current c)).isLeaving = true := by
    rw [hat.2.2]
    rfl
  refine (h.wakeUpAll (.own p)).setLeaving hold rfl fun _ q hq => ?_
  obtain ⟨habout, hsleeps⟩ := hsafe q ((h.fam.mem q _).mp hq).2
  refine ⟨habout, ?_⟩
  rintro ⟨hown, hscanning⟩
  by_cases hqp : q = p
  · have hempty : (st.wakeUpAll (.own p)).wait (.own q) = [] := by
      rw [hqp]
      exact update_self ..
    rw [hempty] at hown
    cases hown
  · have hne : Queue.own q ≠ .own p := by simpa using hqp
    refine hsleeps hqp ⟨?_, hscanning⟩
    simpa only [Procs.wakeUpAll, update_of_ne hne] using hown

/-- The last switch of a task. -/
theorem Procs.Ok.schedule (hat : st.At c .told) : (st.exec (.schedule c)).Ok := by
  obtain ⟨hc, hidle, hphase⟩ := hat
  have hupdate : (st.exec (.schedule c)).phase = update st.phase (st.current c) .ended := rfl
  have hlive := (h.run.current_mem hc hidle).2.1
  have hsteady : Steady st.rq (st.rq.scheduleLocked c) := (Steady.refl st.rq).scheduleLocked c
  have hzombies : SameZombies st.rq (st.rq.scheduleLocked c) :=
    (SameZombies.refl st.rq).scheduleLocked (fun t ht => h.not_zombie_of_ready ht)
      (h.not_zombie_idle hc)
  refine ⟨(h.run.drop hc hidle).scheduleLocked hc, h.fam, fun t => ?_, fun t ht => ?_,
    fun t ht => ?_,
    fun t ht => ?_, fun p z hz htold => ?_, h.freeing_update hupdate nofun fun _ => rfl⟩
  · refine (hzombies t).trans ((h.zombie t).trans ?_)
    rw [hupdate]
    by_cases ht : t = st.current c
    · rw [ht, update_self, hphase]
      exact Iff.rfl
    · rw [update_of_ne ht]
  · obtain ⟨htc, ht⟩ := phase_back (Phase.isLeaving · = true) hupdate ht nofun
    obtain ⟨d, hd, hcur, hnot⟩ := h.leaving t ht
    have hdc : d ≠ c := fun heq => htc (heq ▸ hcur.symm)
    exact ⟨d, hsteady.totalNum ▸ hd, (nowRunning_scheduleLocked hdc).trans hcur,
      fun heq => hnot (heq.trans (hsteady.idle d))⟩
  · by_cases htc : t = st.current c
    · refine ⟨htc ▸ notMem_erase _ _, fun d hd heq => ?_⟩
      exact h.run.idle d (hsteady.totalNum ▸ hd) (hsteady.idle d ▸ heq ▸ htc ▸ hlive)
    · rw [hupdate, update_of_ne htc] at ht
      obtain ⟨hnot, hcpus⟩ := h.ended t ht
      exact ⟨fun hmem => hnot (mem_of_mem_erase hmem),
        fun d hd heq => hcpus d (hsteady.totalNum ▸ hd) (heq.trans (hsteady.idle d))⟩
  · obtain ⟨hnot, hnot'⟩ := h.unborn t (phase_back (· = .unborn) hupdate ht nofun).2
    exact ⟨fun hmem => hnot (mem_of_mem_erase hmem), hnot'⟩
  · have htold' : (st.phase z).hasTold = true := by
      by_cases hzc : z = st.current c
      · rw [hzc, hphase]
        rfl
      · rwa [hupdate, update_of_ne hzc] at htold
    exact awake_of_phase_eq (h.heard p z hz htold')
      (phase_cases st .ended rfl (fun _ => ⟨nofun, nofun⟩) p) id fun _ => id

theorem Procs.Ok.step (hstep : SafeExitStep st st') : st'.Ok := by
  obtain ⟨e, ⟨hpossible, hsafe⟩, rfl⟩ := hstep
  cases e with
  | makeInit n pid => exact h.putThread hpossible none
  | fork c t n linkInit pid => exact h.putThread hpossible.2 _
  | yield c => exact h.yield hpossible
  | tick c => exact h.tick hpossible hsafe
  | loadBalance c => exact h.loadBalance hpossible
  | sleepOn c q => exact h.sleepOn hpossible
  | wakeUpAll q => exact h.wakeUpAll (.other q)
  | waitpid | free | exit => exact h.setPhase hpossible rfl rfl nofun nofun nofun
  | scan c want => exact h.scan hpossible hsafe
  | sleepOnOwn c want => exact h.sleepOnOwn hpossible
  | handOver c => exact h.handOver hpossible.1 hpossible.2 hsafe
  | markZombie c => exact h.markZombie hpossible
  | readParent c p =>
    have hold : (st.phase (st.current c)).isLeaving = true := by
      rw [hpossible.1.2.2]
      rfl
    exact h.setLeaving hold rfl nofun
  | wakeParent c p => exact h.wakeParent hpossible hsafe
  | schedule c => exact h.schedule hpossible

end

end Steps

/-! ## Runs -/

variable {totalNum init : Nat} {idle : Nat → Nat}

theorem procsOk_of_safe_run {st : Procs}
    (h : Relation.ReflTransGen SafeExitStep (Procs.initial totalNum idle init) st) : st.Ok := by
  induction h with
  | refl => exact Procs.ok_initial totalNum idle init
  | tail _ hstep ih => exact ih.step hstep

/-- The parent of a task that has ended does not sleep until it has been told, the task that
`free_task` gets is on no CPU, and a zombie stays one and is never ready. -/
theorem exit_waitpid_of_safe_run {st : Procs}
    (h : Relation.ReflTransGen SafeExitStep (Procs.initial totalNum idle init) st) :
    (∀ p, ∀ z ∈ st.unreaped, st.fam.parent z = some p → st.phase z = .ended → ¬ st.SleepsFor p z) ∧
      (∀ p z, st.phase p = .freeing z → ∀ c < st.rq.totalNum, st.current c ≠ z) ∧
      ∀ z, (st.phase z).isZombie = true →
        (st.rq.pcb z).state = .zombie ∧ ∀ c, z ∉ (st.rq.cpu c).ready := by
  have hok := procsOk_of_safe_run h
  refine ⟨fun p z hz hpar hended => ?_, fun p z hpz c hc hcur => ?_,
    fun z hz => ⟨?_, fun c hc => ?_⟩⟩
  · refine (hok.heard p z ((hok.fam.mem p z).mpr ⟨hz, hpar⟩) ?_).2
    rw [hended]
    rfl
  · obtain ⟨hnot, hidle⟩ := hok.ended z (hok.freeing p z hpz)
    have hne : st.current c ≠ (st.rq.cpu c).idle := hcur ▸ hidle c hc
    exact hnot (hcur ▸ (hok.run.current_mem hc hne).2.1)
  · exact (hok.zombie z).mpr hz
  · exact hok.not_zombie_of_ready hc ((hok.zombie z).mpr hz)

/-! ## Runs of a list of events -/

instance Procs.decidableAboutToSleep (st : Procs) (p z : Nat) : Decidable (st.AboutToSleep p z) :=
  match hphase : st.phase p with
  | .scanned want =>
    decidable_of_iff (st.Matches want z) ⟨fun hm => ⟨want, hphase, hm⟩, fun ⟨w, hw, hm⟩ => by
      rw [hphase] at hw
      cases hw
      exact hm⟩
  | .unborn | .user | .scanning _ | .freeing _ | .exiting | .handedOver | .marked | .calling _
  | .told | .ended =>
    isFalse fun ⟨_, hw, _⟩ => by
      rw [hphase] at hw
      cases hw

instance Procs.decidableSleepsFor (st : Procs) (p z : Nat) : Decidable (st.SleepsFor p z) :=
  match hphase : st.phase p with
  | .scanning want =>
    decidable_of_iff (p ∈ st.wait (.own p) ∧ st.Matches want z)
      ⟨fun hm => ⟨hm.1, want, hphase, hm.2⟩, fun ⟨hown, w, hw, hm⟩ => by
        rw [hphase] at hw
        cases hw
        exact ⟨hown, hm⟩⟩
  | .unborn | .user | .scanned _ | .freeing _ | .exiting | .handedOver | .marked | .calling _
  | .told | .ended =>
    isFalse fun ⟨_, _, hw, _⟩ => by
      rw [hphase] at hw
      cases hw

instance ExitEvent.decidablePossible (st : Procs) : (e : ExitEvent) → Decidable (e.Possible st)
  | .makeInit n _ => inferInstanceAs (Decidable (st.CanMake st.init n))
  | .fork .. | .handOver _ | .readParent .. => inferInstanceAs (Decidable (_ ∧ _))
  | .wakeParent c p => inferInstanceAs (Decidable (st.At c (.calling p)))
  | .yield c | .sleepOn c _ | .waitpid c _ | .exit c => inferInstanceAs (Decidable (st.At c .user))
  | .tick c | .loadBalance c => inferInstanceAs (Decidable (c < st.rq.totalNum))
  | .wakeUpAll _ => inferInstanceAs (Decidable True)
  | .scan c want => inferInstanceAs (Decidable (st.At c (.scanning want)))
  | .sleepOnOwn c want => inferInstanceAs (Decidable (st.At c (.scanned want)))
  | .free c z => inferInstanceAs (Decidable (st.At c (.freeing z)))
  | .markZombie c => inferInstanceAs (Decidable (st.At c .handedOver))
  | .schedule c => inferInstanceAs (Decidable (st.At c .told))

instance ExitEvent.decidableSafe (st : Procs) : (e : ExitEvent) → Decidable (e.Safe st)
  | .tick c => inferInstanceAs (Decidable ((st.phase (st.current c)).isLeaving = false))
  | .scan c want => inferInstanceAs (Decidable (∀ z ∈ st.fam.childs (st.current c),
      st.Matches want z → (st.phase z).isLeaving = false))
  | .wakeParent c p => inferInstanceAs (Decidable (∀ q ∈ st.fam.parent (st.current c),
      ¬ st.AboutToSleep q (st.current c) ∧ (q ≠ p → ¬ st.SleepsFor q (st.current c))))
  | .handOver c => inferInstanceAs (Decidable (∀ z ∈ st.fam.childs (st.current c),
      (st.phase z).hasTold = true → ¬ st.AboutToSleep st.init z ∧ ¬ st.SleepsFor st.init z))
  | .makeInit .. | .fork .. | .yield _ | .loadBalance _ | .sleepOn .. | .wakeUpAll _ | .waitpid ..
  | .sleepOnOwn .. | .free .. | .exit _ | .markZombie _ | .readParent .. | .schedule _ =>
    inferInstanceAs (Decidable True)

/-- Two CPUs with the idle tasks 0 and 1; init is task 2. -/
def twoCpus : Procs := Procs.initial 2 id 2

/-- Init runs on CPU 0 and its child, task 3, on CPU 1, where task 4 is ready. -/
def parentAndChild : List ExitEvent :=
  [.makeInit 0 0, .tick 0, .fork 0 4 1 false 2, .fork 0 3 1 false 1, .tick 1]

/-- The child ends while its parent sleeps. -/
theorem exit_waitpid_woken : ∃ st,
    Relation.ReflTransGen SafeExitStep twoCpus st ∧ 3 ∈ st.unreaped ∧ st.phase 3 = .ended ∧
      st.phase 2 = .scanning (-1) ∧ ¬ st.SleepsFor 2 3 := by
  obtain ⟨st, hsteps, hunreaped, hparent, hended, hphase⟩ :
      ∃ st, Relation.ReflTransGen SafeExitStep twoCpus st ∧ 3 ∈ st.unreaped ∧
        st.fam.parent 3 = some 2 ∧ st.phase 3 = .ended ∧ st.phase 2 = .scanning (-1) :=
    exists_of_guarded (parentAndChild ++ [.waitpid 0 (-1), .scan 0 (-1),
      .sleepOnOwn 0 (-1), .exit 1,
      .handOver 1, .markZombie 1, .readParent 1 2, .wakeParent 1 2, .schedule 1])
        (by decide +kernel)
  exact ⟨st, hsteps, hunreaped, hended, hphase,
    (exit_waitpid_of_safe_run hsteps).1 2 3 hunreaped hparent hended⟩

/-- The child wakes its parent between the parent's loop and its sleep; the parent frees the child
while it is on its CPU; and a tick makes the child ready again. -/
theorem exit_waitpid_missed :
    (∃ st, Relation.ReflTransGen ExitStep twoCpus st ∧ 3 ∈ st.unreaped ∧ st.fam.parent 3 = some 2 ∧
      st.phase 3 = .ended ∧ st.SleepsFor 2 3) ∧
    (∃ st, Relation.ReflTransGen ExitStep twoCpus st ∧ st.phase 2 = .freeing 3 ∧ st.current 1 = 3) ∧
    ∃ st, Relation.ReflTransGen ExitStep twoCpus st ∧ (st.phase 3).isZombie = true ∧
      (st.rq.pcb 3).state = .ready ∧ 3 ∈ (st.rq.cpu 1).ready := by
  refine ⟨?_, ?_, ?_⟩
  · exact exists_of_guarded (parentAndChild ++ [.waitpid 0 (-1), .scan 0 (-1), .exit 1, .handOver 1,
      .markZombie 1, .readParent 1 2, .wakeParent 1 2, .schedule 1, .sleepOnOwn 0 (-1)])
        (by decide +kernel)
  · exact exists_of_guarded (parentAndChild ++
      [.exit 1, .handOver 1, .markZombie 1, .waitpid 0 (-1), .scan 0 (-1)]) (by decide +kernel)
  · exact exists_of_guarded (parentAndChild ++
      [.exit 1, .handOver 1, .markZombie 1, .tick 1]) (by decide +kernel)

end Osx64.Task
