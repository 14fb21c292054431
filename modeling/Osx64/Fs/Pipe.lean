import Osx64.Lib.Ring
import Osx64.Lib.Run
import Osx64.Lib.WaitQueue

/-!
# Pipes

The model of `fs/pipe.c` as a transition system.  Any number of calls of `pipe_read`,
`pipe_write` and `pipe_release` run at the same time on one pipe; a step is one stretch of
one of them between two operations on a spinlock.

`pipe_read` and `pipe_write` are one loop with the two ends of the buffer exchanged.  A call
is in one of these phases:

* `enter`: it waits for `pipe->lock`;
* `flush`: it holds `pipe->lock`, has moved bytes since it last woke anybody, and is about to
  wake the other end (`wake_up_all`);
* `park`: it holds `pipe->lock` and is about to take the lock of its own queue;
* `enqueue`: it holds the lock of its own queue and has given `pipe->lock` back;
* `asleep`: it is on the list of its own queue;
* `returned`.

The bytes moved by each end are logged in the order in which they were moved, with the call
that moved them.
-/

namespace Osx64.Pipes

open Function WaitQueue List Option

/-- `PIPE_BUFSIZE` -/
def pipeBufsize : Nat := 4096 * 4

theorem pipeBufsize_pos : 0 < pipeBufsize := by decide

/-- The two ends of a pipe, with the functions that use them. -/
inductive Side where
  | read
  | write
deriving DecidableEq

def Side.other : Side → Side
  | .read => .write
  | .write => .read

inductive Phase where
  | enter
  | flush
  | park
  | enqueue
  | asleep
  | returned
deriving DecidableEq

/-- A call of `pipe_read` or `pipe_write` with its local variables; `newly` is `newly_read`
or `newly_write`. -/
structure Call where
  side : Side
  len : Nat
  buf : Nat → UInt8
  count : Nat
  newly : Nat
  phase : Phase

/-- A call of `pipe_release`: it is about to look at `single`, or to wake one of the queues. -/
inductive ReleasePhase where
  | flag
  | wakeRead
  | wakeWrite
  | returned
deriving DecidableEq

inductive Task where
  | call (c : Call)
  | release (phase : ReleasePhase)

/-- `pipe_t`, with `read_wq` and `write_wq` as a function of the end. -/
structure Pipe where
  single : Bool
  lock : Option Nat
  ring : Ring UInt8 pipeBufsize
  wq : Side → WaitQueue

/-- A pipe with the calls on it.  `moved` logs the bytes taken out by readers and put in by
writers, `closed` the ends `pipe_release` has been called for. -/
structure State where
  pipe : Pipe
  task : Nat → Option Task
  moved : Side → List (Nat × UInt8)
  closed : Side → Bool

/-! ## The loop of `pipe_read` and `pipe_write` -/

/-- What is changed under `pipe->lock`. -/
structure Section where
  ring : Ring UInt8 pipeBufsize
  call : Call
  bytes : List UInt8

/-- The buffer is empty for a reader, or full for a writer. -/
def Blocked : Side → Ring UInt8 pipeBufsize → Prop
  | .read, r => r.IsEmpty
  | .write, r => r.IsFull

instance : (side : Side) → (r : Ring UInt8 pipeBufsize) → Decidable (Blocked side r)
  | .read, r => inferInstanceAs (Decidable r.IsEmpty)
  | .write, r => inferInstanceAs (Decidable r.IsFull)

/-- `buf[count++] = pipe->buf[pipe->buf_tail]`, and the tail moves on. -/
def readByte (s : Section) : Section where
  ring := s.ring.pop
  call :=
    { s.call with
      buf := update s.call.buf s.call.count s.ring.front
      count := s.call.count + 1
      newly := s.call.newly + 1 }
  bytes := s.bytes ++ [s.ring.front]

/-- `pipe->buf[pipe->buf_head] = buf[count++]`, and the head moves on. -/
def writeByte (s : Section) : Section where
  ring := s.ring.push (s.call.buf s.call.count)
  call := { s.call with count := s.call.count + 1, newly := s.call.newly + 1 }
  bytes := s.bytes ++ [s.call.buf s.call.count]

def moveByte : Side → Section → Section
  | .read => readByte
  | .write => writeByte

/-- The loop, for the number of bytes still to move, up to the point where it finds the
buffer blocked. -/
def transfer (side : Side) : Nat → Section → Section
  | 0, s => s
  | n + 1, s => if Blocked side s.ring then s else transfer side n (moveByte side s)

/-- The section of a call that has just got `pipe->lock`. -/
def Call.move (c : Call) (ring : Ring UInt8 pipeBufsize) : Section :=
  transfer c.side (c.len - c.count) ⟨ring, c, []⟩

/-- How the section ends: the loop is over, because everything has been moved or because it
is left with `single` set, or the call is going to sleep, possibly waking the other end
before. -/
def nextPhase (single : Bool) (c : Call) : Phase :=
  if c.len ≤ c.count ∨ single = true then .returned
  else if c.newly ≠ 0 then .flush
  else .park

/-! ## Steps -/

namespace State

def put (st : State) (i : Nat) (t : Task) : State :=
  { st with task := update st.task i (some t) }

def setWq (st : State) (side : Side) (q : WaitQueue) : State :=
  { st with pipe := { st.pipe with wq := update st.pipe.wq side q } }

/-- A woken call goes on with `spin_lock(&pipe->lock)`. -/
def wake : Task → Task
  | .call c => .call { c with phase := .enter }
  | .release p => .release p

/-- `wake_up_all`, with the lock of the queue free. -/
def wakeUpAll (st : State) (side : Side) : State :=
  { st.setWq side ⟨none, []⟩ with
    task := fun j =>
      if j ∈ (st.pipe.wq side).list then (st.task j).map wake else st.task j }

/-- A call gets `pipe->lock` and runs its loop.  It keeps the lock if it is going to sleep. -/
def enter (st : State) (i : Nat) (c : Call) : State :=
  let s := c.move st.pipe.ring
  let phase := nextPhase st.pipe.single s.call
  { st with
    pipe :=
      { st.pipe with
        ring := s.ring
        lock := if phase = .returned then none else some i }
    task := update st.task i (some (.call { s.call with phase := phase }))
    moved := update st.moved c.side
      (st.moved c.side ++ s.bytes.map fun byte => (i, byte)) }

/-- The lock of the queue of one end is free. -/
def queueFree (st : State) (side : Side) : Prop := (st.pipe.wq side).lock = none
deriving Decidable

/-- The lock of the queue is taken and `pipe->lock` is given back. -/
def parked (st : State) (i : Nat) (c : Call) : State :=
  let st := st.setWq c.side { st.pipe.wq c.side with lock := some i }
  { st with pipe := { st.pipe with lock := none } }.put i (.call { c with phase := .enqueue })

/-- `sleep_on_locked`: the lock of the queue is given back with the caller on the list. -/
def enqueued (st : State) (i : Nat) (c : Call) : State :=
  (st.setWq c.side ⟨none, (st.pipe.wq c.side).list ++ [i]⟩).put i
    (.call { c with phase := .asleep })

/-- One step of a call; `none` if it spins or sleeps or has returned. -/
def runCall (st : State) (i : Nat) (c : Call) : Option State :=
  match c.phase with
  | .enter => if st.pipe.lock = none then some (st.enter i c) else none
  | .flush =>
    if st.queueFree c.side.other then
      some ((st.wakeUpAll c.side.other).put i (.call { c with newly := 0, phase := .park }))
    else none
  | .park => if st.queueFree c.side then some (st.parked i c) else none
  | .enqueue => some (st.enqueued i c)
  | .asleep => none
  | .returned => none

/-- One step of `pipe_release`.  It takes no lock for the flag. -/
def runRelease (st : State) (i : Nat) : ReleasePhase → Option State
  | .flag =>
    if st.pipe.single then some (st.put i (.release .returned))
    else some ({ st with pipe := { st.pipe with single := true } }.put i (.release .wakeRead))
  | .wakeRead =>
    if st.queueFree .read then some ((st.wakeUpAll .read).put i (.release .wakeWrite)) else none
  | .wakeWrite =>
    if st.queueFree .write then some ((st.wakeUpAll .write).put i (.release .returned)) else none
  | .returned => none

end State

/-- A call is made, under a new number, or one of the calls makes a step. -/
inductive Event where
  | begin (i : Nat) (side : Side) (len : Nat) (buf : Nat → UInt8)
  | close (i : Nat) (side : Side)
  | run (i : Nat)

/-- The call the event is about. -/
def Event.id : Event → Nat
  | .begin i _ _ _ => i
  | .close i _ => i
  | .run i => i

def step (st : State) : Event → Option State
  | .begin i side len buf =>
    match st.task i with
    | none => some (st.put i (.call ⟨side, len, buf, 0, 0, .enter⟩))
    | some _ => none
  | .close i side =>
    match st.task i with
    | none =>
      some ({ st with closed := update st.closed side true }.put i (.release .flag))
    | some _ => none
  | .run i =>
    match st.task i with
    | none => none
    | some (.call c) => st.runCall i c
    | some (.release p) => st.runRelease i p

def Step (st st' : State) : Prop := ∃ e, step st e = some st'

/-- `new_pipe`, with whatever the buffer holds. -/
def newPipe (cell : Nat → UInt8) : State where
  pipe := ⟨false, none, .empty cell pipeBufsize_pos, fun _ => .init⟩
  task _ := none
  moved _ := []
  closed _ := false

/-- The states a new pipe can get to. -/
def Reachable (st : State) : Prop := ∃ cell, Relation.ReflTransGen Step (newPipe cell) st

/-! ## What a section moves -/

/-- What the loop has done so far, for a call `c` that has found the buffer as `ring`. -/
structure Moved (ring : Ring UInt8 pipeBufsize) (c : Call) (s : Section) : Prop where
  side : s.call.side = c.side
  len : s.call.len = c.len
  count : s.call.count = c.count + s.bytes.length
  newly : s.call.newly = c.newly + s.bytes.length
  /-- The bytes are those of the caller's buffer. -/
  bytes : (range s.call.count).map s.call.buf = (range c.count).map c.buf ++ s.bytes
  /-- A reader has taken them off the front, a writer has put them at the end. -/
  contents : match c.side with
    | .read => ring.contents = s.bytes ++ s.ring.contents
    | .write => s.ring.contents = ring.contents ++ s.bytes
  idle : s.bytes = [] → s.ring = ring

section Transfer

variable {ring : Ring UInt8 pipeBufsize} {c : Call} {s : Section} {n : Nat}

theorem Moved.refl (ring : Ring UInt8 pipeBufsize) (c : Call) : Moved ring c ⟨ring, c, []⟩ where
  side := rfl
  len := rfl
  count := rfl
  newly := rfl
  bytes := (append_nil _).symm
  contents := by cases c.side <;> simp
  idle _ := rfl

section

variable (h : Moved ring c s)
include h

theorem Moved.readByte (hside : c.side = .read)
    (hblocked : ¬ Blocked .read s.ring) : Moved ring c (readByte s) where
  side := h.side
  len := h.len
  count := by
    show s.call.count + 1 = c.count + (s.bytes ++ [s.ring.front]).length
    rw [h.count, length_append, length_singleton, Nat.add_assoc]
  newly := by
    show s.call.newly + 1 = c.newly + (s.bytes ++ [s.ring.front]).length
    rw [h.newly, length_append, length_singleton, Nat.add_assoc]
  bytes := by
    show (range (s.call.count + 1)).map
      (update s.call.buf s.call.count s.ring.front) = _ ++ (s.bytes ++ [s.ring.front])
    have hold : ∀ k ∈ range s.call.count,
        update s.call.buf s.call.count s.ring.front k = s.call.buf k := by
      intro k hk
      exact update_of_ne (Nat.ne_of_lt (mem_range.mp hk)) _ _
    rw [range_succ, map_append, map_congr_left hold, map_singleton,
      update_self, h.bytes, append_assoc]
  contents := by
    have hcontents := h.contents
    rw [hside] at hcontents ⊢
    show ring.contents = s.bytes ++ [s.ring.front] ++ s.ring.pop.contents
    rw [hcontents, Ring.contents_pop hblocked, append_assoc]
    rfl
  idle hnil := absurd hnil (by simp [Pipes.readByte])

theorem Moved.writeByte (hside : c.side = .write)
    (hblocked : ¬ Blocked .write s.ring) : Moved ring c (writeByte s) where
  side := h.side
  len := h.len
  count := by
    show s.call.count + 1 = c.count + (s.bytes ++ [s.call.buf s.call.count]).length
    rw [h.count, length_append, length_singleton, Nat.add_assoc]
  newly := by
    show s.call.newly + 1 = c.newly + (s.bytes ++ [s.call.buf s.call.count]).length
    rw [h.newly, length_append, length_singleton, Nat.add_assoc]
  bytes := by
    show (range (s.call.count + 1)).map s.call.buf = _ ++ (s.bytes ++ [s.call.buf s.call.count])
    rw [range_succ, map_append, h.bytes, append_assoc, map_singleton]
  contents := by
    have hcontents := h.contents
    rw [hside] at hcontents ⊢
    show (s.ring.push _).contents = ring.contents ++ (s.bytes ++ [s.call.buf s.call.count])
    rw [Ring.contents_push hblocked, hcontents, append_assoc]
  idle hnil := absurd hnil (by simp [Pipes.writeByte])

theorem Moved.moveByte (hblocked : ¬ Blocked c.side s.ring) :
    Moved ring c (moveByte c.side s) := by
  cases hside : c.side with
  | read => exact h.readByte hside (hside ▸ hblocked)
  | write => exact h.writeByte hside (hside ▸ hblocked)

theorem Moved.transfer (n : Nat) : Moved ring c (transfer c.side n s) := by
  induction n generalizing s with
  | zero => exact h
  | succ n ih =>
    rw [Pipes.transfer]
    split
    · exact h
    · next hblocked => exact ih (h.moveByte hblocked)

end

/-- The loop stops when everything is moved, unless it finds the buffer blocked. -/
theorem transfer_stop (side : Side) (n : Nat) (s : Section) :
    Blocked side (transfer side n s).ring ∨ (transfer side n s).call.count = s.call.count + n := by
  induction n generalizing s with
  | zero => exact .inr rfl
  | succ n ih =>
    rw [Pipes.transfer]
    split
    · next hblocked => exact .inl hblocked
    · have hcount : (Pipes.moveByte side s).call.count = s.call.count + 1 := by
        cases side <;> rfl
      rcases ih (Pipes.moveByte side s) with h | h
      · exact .inl h
      · right
        rw [h, hcount]
        omega

theorem Call.move_moved (c : Call) (ring : Ring UInt8 pipeBufsize) : Moved ring c (c.move ring) :=
  (Moved.refl ring c).transfer _

/-- A section that leaves bytes to be moved has found the buffer blocked. -/
theorem Call.move_blocked (h : (c.move ring).call.count < c.len) :
    Blocked c.side (c.move ring).ring := by
  rcases transfer_stop c.side (c.len - c.count) ⟨ring, c, []⟩ with hb | hcount
  · exact hb
  · have hfull : (c.move ring).call.count = c.count + (c.len - c.count) := hcount
    omega

/-- A blocked buffer stays as it is. -/
theorem Call.move_of_blocked (h : Blocked c.side ring) : c.move ring = ⟨ring, c, []⟩ := by
  rw [Call.move]
  cases c.len - c.count with
  | zero => rfl
  | succ n => rw [transfer, if_pos h]

end Transfer

/-! ## The steps one by one -/

/-- What each step finds and does. -/
inductive StepCase (st : State) : Event → State → Prop
  | begin (i : Nat) (side : Side) (len : Nat) (buf : Nat → UInt8) (hnew : st.task i = none) :
      StepCase st (.begin i side len buf) (st.put i (.call ⟨side, len, buf, 0, 0, .enter⟩))
  | close (i : Nat) (side : Side) (hnew : st.task i = none) :
      StepCase st (.close i side)
        ({ st with closed := update st.closed side true }.put i (.release .flag))
  | enter (i : Nat) (c : Call) (htask : st.task i = some (.call c)) (hphase : c.phase = .enter)
      (hfree : st.pipe.lock = none) : StepCase st (.run i) (st.enter i c)
  | flush (i : Nat) (c : Call) (htask : st.task i = some (.call c)) (hphase : c.phase = .flush)
      (hfree : st.queueFree c.side.other) :
      StepCase st (.run i)
        ((st.wakeUpAll c.side.other).put i (.call { c with newly := 0, phase := .park }))
  | park (i : Nat) (c : Call) (htask : st.task i = some (.call c)) (hphase : c.phase = .park)
      (hfree : st.queueFree c.side) :
      StepCase st (.run i) (st.parked i c)
  | enqueue (i : Nat) (c : Call) (htask : st.task i = some (.call c))
      (hphase : c.phase = .enqueue) : StepCase st (.run i) (st.enqueued i c)
  | flagged (i : Nat) (htask : st.task i = some (.release .flag))
    (hsingle : st.pipe.single = true) :
      StepCase st (.run i) (st.put i (.release .returned))
  | flag (i : Nat) (htask : st.task i = some (.release .flag)) (hsingle : st.pipe.single = false) :
      StepCase st (.run i)
        ({ st with pipe := { st.pipe with single := true } }.put i (.release .wakeRead))
  | wakeRead (i : Nat) (htask : st.task i = some (.release .wakeRead))
      (hfree : st.queueFree .read) :
      StepCase st (.run i) ((st.wakeUpAll .read).put i (.release .wakeWrite))
  | wakeWrite (i : Nat) (htask : st.task i = some (.release .wakeWrite))
      (hfree : st.queueFree .write) :
      StepCase st (.run i) ((st.wakeUpAll .write).put i (.release .returned))

section Steps

variable {st st' : State} {e : Event} {i j : Nat} {side : Side} {c : Call}

theorem runCall_cases (htask : st.task i = some (.call c)) (h : st.runCall i c = some st') :
    StepCase st (.run i) st' := by
  unfold State.runCall at h
  cases hphase : c.phase with
  | enter =>
    rw [hphase] at h
    obtain ⟨hfree, heq⟩ := ite_none_right_eq_some.mp h
    cases heq
    exact .enter i c htask hphase hfree
  | flush =>
    rw [hphase] at h
    obtain ⟨hfree, heq⟩ := ite_none_right_eq_some.mp h
    cases heq
    exact .flush i c htask hphase hfree
  | park =>
    rw [hphase] at h
    obtain ⟨hfree, heq⟩ := ite_none_right_eq_some.mp h
    cases heq
    exact .park i c htask hphase hfree
  | enqueue =>
    rw [hphase] at h
    cases h
    exact .enqueue i c htask hphase
  | asleep | returned =>
    rw [hphase] at h
    cases h

theorem runRelease_cases {p : ReleasePhase} (htask : st.task i = some (.release p))
    (h : st.runRelease i p = some st') : StepCase st (.run i) st' := by
  cases p with
  | flag =>
    cases hsingle : st.pipe.single with
    | true =>
      rw [State.runRelease, if_pos hsingle] at h
      cases h
      exact .flagged i htask hsingle
    | false =>
      rw [State.runRelease, if_neg (by rw [hsingle]; decide)] at h
      cases h
      exact .flag i htask hsingle
  | wakeRead =>
    obtain ⟨hfree, heq⟩ := ite_none_right_eq_some.mp h
    cases heq
    exact .wakeRead i htask hfree
  | wakeWrite =>
    obtain ⟨hfree, heq⟩ := ite_none_right_eq_some.mp h
    cases heq
    exact .wakeWrite i htask hfree
  | returned => cases h

theorem step_cases (h : step st e = some st') : StepCase st e st' := by
  cases e with
  | begin i side len buf =>
    cases htask : st.task i with
    | none =>
      simp only [step, htask] at h
      cases h
      exact .begin i side len buf htask
    | some t => simp [step, htask] at h
  | close i side =>
    cases htask : st.task i with
    | none =>
      simp only [step, htask] at h
      cases h
      exact .close i side htask
    | some t => simp [step, htask] at h
  | run i =>
    cases htask : st.task i with
    | none => simp [step, htask] at h
    | some t =>
      simp only [step, htask] at h
      cases t with
      | call c => exact runCall_cases htask h
      | release p => exact runRelease_cases htask h

theorem put_task_self (t : Task) : (st.put i t).task i = some t := update_self _ _ _

theorem put_task_of_ne (hne : j ≠ i) (t : Task) : (st.put i t).task j = st.task j :=
  update_of_ne hne _ _

/-- Waking up takes calls back to the start of a round and changes nothing else. -/
theorem wakeUpAll_task (st : State) (side : Side) (j : Nat) :
    (st.wakeUpAll side).task j = st.task j ∨
      ∃ c, st.task j = some (.call c) ∧
        (st.wakeUpAll side).task j = some (.call { c with phase := .enter }) := by
  by_cases hj : j ∈ (st.pipe.wq side).list
  · have heq : (st.wakeUpAll side).task j = (st.task j).map State.wake := if_pos hj
    rw [heq]
    cases htask : st.task j with
    | none => exact .inl rfl
    | some t =>
      cases t with
      | call c => exact .inr ⟨c, rfl, rfl⟩
      | release p => exact .inl rfl
  · exact .inl (if_neg hj)

end Steps

end Osx64.Pipes
