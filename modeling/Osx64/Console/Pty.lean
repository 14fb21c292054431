import Osx64.Lib.Ring
import Osx64.Lib.Run
import Osx64.Lib.WaitQueue

/-!
# Pseudo terminals

The model of one pair of `console/pty.c` as a transition system, with any number of calls on
the two sides.  As for pipes, a step is one stretch of a call between two operations on a
spinlock.

The slave reads completed lines and writes bytes.  Its two blocking functions have the same
shape: under a lock (`ld->lock` for lines, `pair->lock` for bytes) it finds the buffer
blocked, takes the lock of the wait queue (`wq_s_r`, `wq_s_w`), gives the first lock back and
sleeps.  The two are told apart by `Dir`.

`pty_master_open` initialises the pair, including its locks and wait queues, whenever it
finds no open master.
-/

namespace Osx64.Pty

open WaitQueue Function

/-- `PTY_BUFSIZE` -/
def ptyBufsize : Nat := 4096

/-- `LINE_MAX` -/
def lineMax : Nat := 256

/-- `LINE_QUEUE_SIZE` -/
def lineQueueSize : Nat := 16

theorem ptyBufsize_pos : 0 < ptyBufsize := by decide

theorem lineQueueSize_pos : 0 < lineQueueSize := by decide

/-- `ICANON`, `ECHO` and `ISIG` -/
def icanon : Nat := 1

def echo : Nat := 2

def isig : Nat := 4

/-- `struct line_discipline`.  A completed line is the string of bytes at its pointer, with
the final zero. -/
structure LineDiscipline where
  lineBuf : Nat → UInt8
  linePos : Nat
  completed : Ring (List UInt8) lineQueueSize
  lock : Option Nat
  lflag : Nat

/-- The two directions in which a slave can block: reading lines and writing bytes. -/
inductive Dir where
  | read
  | write
deriving DecidableEq

/-- `pty_pair_t`, with `wq_s_r` and `wq_s_w` as a function of the direction. -/
structure Pair where
  allocated : Bool
  masterRef : Int
  slaveRef : Int
  s2m : Ring UInt8 ptyBufsize
  lock : Option Nat
  ldisc : LineDiscipline
  wq : Dir → WaitQueue

/-- The phases of a blocking call of the slave. -/
inductive Phase where
  | enter
  | park
  | enqueue
  | asleep
  | returned
deriving DecidableEq

/-- The phases of `pty_master_write`: waiting for `ld->lock`, and holding it with `rest` still
to be put in; `newLines` is `new_lines`. -/
inductive InputPhase where
  | enter
  | loop (rest : List UInt8) (newLines : Bool)
  | returned

/-- The phases of `pty_master_read`: waiting for `pair->lock`, and holding it in order to wake
the slave. -/
inductive DrainPhase where
  | enter
  | wake
  | returned

/-- The calls, with the bytes they have been given, or still have to write, and what they have
read or counted so far. -/
inductive Task where
  | masterWrite (data : List UInt8) (phase : InputPhase)
  | masterRead (len : Nat) (out : List UInt8) (phase : DrainPhase)
  | slaveRead (len : Nat) (out : List UInt8) (phase : Phase)
  | slaveWrite (rest : List UInt8) (count : Nat) (phase : Phase)

structure State where
  pair : Pair
  task : Nat → Option Task

/-! ## The line discipline -/

/-- The line that is being edited, as a string. -/
def LineDiscipline.line (ld : LineDiscipline) : List UInt8 :=
  (List.range ld.linePos).map ld.lineBuf ++ [0]

/-- A finished line is queued if `kmalloc` has given memory for it and there is room. -/
def LineDiscipline.complete (ld : LineDiscipline) (alloc : Bool) : LineDiscipline :=
  if alloc = true ∧ ¬ ld.completed.IsFull then
    { ld with completed := ld.completed.push ld.line, linePos := 0 }
  else { ld with linePos := 0 }

/-- One round of the loop of `ldisc_input`: the line discipline afterwards, and what is to be
echoed. -/
def LineDiscipline.input (ld : LineDiscipline) (alloc : Bool) (c : UInt8) :
    LineDiscipline × List UInt8 :=
  if c = 10 then (ld.complete alloc, if ld.lflag ≠ 0 then [10] else [])
  else if c = 8 then
    if 0 < ld.linePos then
      ({ ld with linePos := ld.linePos - 1 }, if ld.lflag ≠ 0 then [8] else [])
    else (ld, [])
  else if ld.linePos < lineMax - 1 then
    ({ ld with
        lineBuf := update ld.lineBuf ld.linePos c
        linePos := ld.linePos + 1 },
      if ld.lflag &&& echo ≠ 0 then [c] else [])
  else (ld, [])

/-- `ldisc_echo`: what does not fit is dropped. -/
def ldiscEcho (s2m : Ring UInt8 ptyBufsize) : List UInt8 → Ring UInt8 ptyBufsize
  | [] => s2m
  | c :: rest => if s2m.IsFull then s2m else ldiscEcho (s2m.push c) rest

/-- `ldisc_init` -/
def ldiscInit : LineDiscipline where
  lineBuf _ := 0
  linePos := 0
  completed := .empty (fun _ => []) lineQueueSize_pos
  lock := none
  lflag := echo ||| icanon ||| isig

/-- What `pty_slave_read` takes of the first line: `strlen(line) + 1` bytes if there is room
for them, else the first `len`, and the line is moved up. -/
def takeLine (completed : Ring (List UInt8) lineQueueSize) (len : Nat) :
    Ring (List UInt8) lineQueueSize × List UInt8 :=
  let line := completed.front
  let lineLen := (line.takeWhile (· ≠ 0)).length + 1
  if len < lineLen then
    let moved := (line.drop len).take (lineLen - len) ++ line.drop (lineLen - len)
    ({ completed with cell := update completed.cell completed.tail moved }, line.take len)
  else (completed.pop, line.take lineLen)

/-- The loop of `pty_master_read`. -/
def drain (s2m : Ring UInt8 ptyBufsize) : Nat → Ring UInt8 ptyBufsize × List UInt8
  | 0 => (s2m, [])
  | len + 1 =>
    if s2m.IsEmpty then (s2m, [])
    else
      let r := drain s2m.pop len
      (r.1, s2m.front :: r.2)

/-- The loop of `pty_slave_write`, with what is left when the buffer is full. -/
def fill (s2m : Ring UInt8 ptyBufsize) : List UInt8 → Ring UInt8 ptyBufsize × List UInt8
  | [] => (s2m, [])
  | c :: rest => if s2m.IsFull then (s2m, c :: rest) else fill (s2m.push c) rest

/-! ## Steps -/

/-- A woken call starts its round again. -/
def Task.wake : Task → Task
  | .slaveRead len out _ => .slaveRead len out .enter
  | .slaveWrite rest count _ => .slaveWrite rest count .enter
  | t => t

/-- What a call does with the lock and the queue of a direction: nothing, holding the lock
(and going to wake the queue, if `wakes` is set), holding the lock in order to sleep, holding
the lock of the queue, or sleeping. -/
inductive Activity where
  | outside
  | holding (d : Dir) (wakes : Bool)
  | park (d : Dir)
  | enqueue (d : Dir)
  | asleep (d : Dir)
deriving DecidableEq

def Phase.activity (d : Dir) : Phase → Activity
  | .enter => .outside
  | .park => .park d
  | .enqueue => .enqueue d
  | .asleep => .asleep d
  | .returned => .outside

def Task.activity : Task → Activity
  | .masterWrite _ (.loop _ newLines) => .holding .read newLines
  | .masterWrite _ _ => .outside
  | .masterRead _ _ .wake => .holding .write true
  | .masterRead _ _ _ => .outside
  | .slaveRead _ _ phase => phase.activity .read
  | .slaveWrite _ _ phase => phase.activity .write

def Activity.wait (d : Dir) : Activity → Wait
  | .enqueue d' => if d' = d then .entering else .running
  | .asleep d' => if d' = d then .asleep else .running
  | _ => .running

theorem Activity.wait_ne_running {d : Dir} {a : Activity} (h : a.wait d ≠ .running) :
    a = .enqueue d ∨ a = .asleep d := by
  cases a with
  | outside | holding | park => exact absurd rfl h
  | enqueue d' =>
    by_cases hd : d' = d
    · exact .inl (hd ▸ rfl)
    · exact absurd (if_neg hd) h
  | asleep d' =>
    by_cases hd : d' = d
    · exact .inr (hd ▸ rfl)
    · exact absurd (if_neg hd) h

theorem Task.activity_wake (t : Task) (d : Dir) : (t.wake.activity).wait d = .running := by
  cases t with
  | masterWrite _ phase | masterRead _ _ phase => cases phase <;> rfl
  | slaveRead len out phase => rfl
  | slaveWrite rest count phase => rfl

/-- How the calls use the two queues. -/
def discipline : Discipline Dir Task where
  wait d t := t.activity.wait d
  wake := Task.wake
  wait_wake d t := t.activity_wake d
  one := by
    intro d d' t h h'
    rcases Activity.wait_ne_running h with ha | ha <;>
      rcases Activity.wait_ne_running h' with ha' | ha' <;> rw [ha] at ha' <;> cases ha' <;> rfl

/-- The lock under which a slave finds out that it has to wait. -/
def Pair.guard (pair : Pair) : Dir → Option Nat
  | .read => pair.ldisc.lock
  | .write => pair.lock

def Pair.setGuard (pair : Pair) (d : Dir) (holder : Option Nat) : Pair :=
  match d with
  | .read => { pair with ldisc := { pair.ldisc with lock := holder } }
  | .write => { pair with lock := holder }

def Pair.setWq (pair : Pair) (d : Dir) (q : WaitQueue) : Pair :=
  { pair with wq := update pair.wq d q }

/-- `pty_master_open` -/
def Pair.masterOpen (pair : Pair) : Pair :=
  if pair.masterRef = 0 then
    { pair with
      allocated := true
      s2m := .empty pair.s2m.cell ptyBufsize_pos
      ldisc := ldiscInit
      wq := fun _ => .init
      masterRef := pair.masterRef + 1 }
  else { pair with masterRef := pair.masterRef + 1 }

/-- `pty_master_release` -/
def Pair.masterRelease (pair : Pair) : Pair :=
  { pair with
    masterRef := pair.masterRef - 1
    allocated :=
      if pair.masterRef - 1 = 0 ∧ pair.slaveRef = 0 then false else pair.allocated }

/-- `pty_slave_open`; without an open master it fails. -/
def Pair.slaveOpen (pair : Pair) : Pair :=
  if ¬ pair.allocated ∨ pair.masterRef = 0 then pair
  else { pair with slaveRef := pair.slaveRef + 1 }

/-- `pty_slave_release` -/
def Pair.slaveRelease (pair : Pair) : Pair :=
  { pair with
    slaveRef := pair.slaveRef - 1
    allocated :=
      if pair.masterRef = 0 ∧ pair.slaveRef - 1 = 0 then false else pair.allocated }

namespace State

def put (st : State) (pair : Pair) (i : Nat) (t : Task) : State :=
  ⟨pair, update st.task i (some t)⟩

/-- `wake_up_all` on a queue whose lock is free, by task `i`, which then goes on as `t` and
gives the lock it holds back. -/
def wakeUpAll (st : State) (d : Dir) (i : Nat) (t : Task) : State :=
  ⟨(st.pair.setWq d ⟨none, []⟩).setGuard d none,
    update (discipline.wakeAll (st.pair.wq d).list st.task) i (some t)⟩

/-- `pty_master_write`.  Echoing takes `pair->lock`. -/
def runInput (st : State) (i : Nat) (data : List UInt8) (alloc : Bool) :
    InputPhase → Option State
  | .enter =>
    if st.pair.ldisc.lock = none then
      some (st.put (st.pair.setGuard .read (some i)) i (.masterWrite data (.loop data false)))
    else none
  | .loop (c :: rest) newLines =>
    let (ld, text) := st.pair.ldisc.input alloc c
    if text = [] ∨ st.pair.lock = none then
      some (st.put { st.pair with ldisc := ld, s2m := ldiscEcho st.pair.s2m text } i
        (.masterWrite data (.loop rest (newLines || (decide (c = 10) && alloc)))))
    else none
  | .loop [] false => some (st.put (st.pair.setGuard .read none) i (.masterWrite data .returned))
  | .loop [] true =>
    if (st.pair.wq .read).lock = none then
      some (st.wakeUpAll .read i (.masterWrite data .returned))
    else none
  | .returned => none

/-- `pty_master_read` -/
def runDrain (st : State) (i : Nat) (len : Nat) (out : List UInt8) : DrainPhase → Option State
  | .enter =>
    if st.pair.lock = none then
      let (s2m, out) := drain st.pair.s2m len
      if out = [] then some (st.put { st.pair with s2m := s2m } i (.masterRead len out .returned))
      else some (st.put { st.pair with s2m := s2m, lock := some i } i (.masterRead len out .wake))
    else none
  | .wake =>
    if (st.pair.wq .write).lock = none then
      some (st.wakeUpAll .write i (.masterRead len out .returned))
    else none
  | .returned => none

/-- The part that `pty_slave_read` and `pty_slave_write` have in common: going to sleep. -/
def runSleep (st : State) (d : Dir) (i : Nat) (t : Phase → Task) : Phase → Option State
  | .park =>
    if (st.pair.wq d).lock = none then
      some (st.put ((st.pair.setWq d { st.pair.wq d with lock := some i }).setGuard d none) i
        (t .enqueue))
    else none
  | .enqueue =>
    some (st.put (st.pair.setWq d ⟨none, (st.pair.wq d).list ++ [i]⟩) i (t .asleep))
  | _ => none

/-- `pty_slave_read` -/
def runRead (st : State) (i : Nat) (len : Nat) (out : List UInt8) : Phase → Option State
  | .enter =>
    if st.pair.ldisc.lock = none then
      if st.pair.ldisc.completed.IsEmpty then
        some (st.put (st.pair.setGuard .read (some i)) i (.slaveRead len out .park))
      else
        let (completed, out) := takeLine st.pair.ldisc.completed len
        some (st.put { st.pair with ldisc := { st.pair.ldisc with completed := completed } } i
          (.slaveRead len out .returned))
    else none
  | phase => st.runSleep .read i (.slaveRead len out) phase

/-- `pty_slave_write` -/
def runWrite (st : State) (i : Nat) (data : List UInt8) (count : Nat) : Phase → Option State
  | .enter =>
    if st.pair.lock = none then
      let (s2m, rest) := fill st.pair.s2m data
      let count := count + (data.length - rest.length)
      if rest = [] then some (st.put { st.pair with s2m := s2m } i (.slaveWrite [] count .returned))
      else
        some (st.put { st.pair with s2m := s2m, lock := some i } i (.slaveWrite rest count .park))
    else none
  | phase => st.runSleep .write i (.slaveWrite data count) phase

/-- One step of a call; `alloc` says whether `kmalloc` gives memory in this step. -/
def runTask (st : State) (i : Nat) (alloc : Bool) : Task → Option State
  | .masterWrite data phase => st.runInput i data alloc phase
  | .masterRead len out phase => st.runDrain i len out phase
  | .slaveRead len out phase => st.runRead i len out phase
  | .slaveWrite rest count phase => st.runWrite i rest count phase

end State

/-- The calls that are made on a pair; opening and closing is done at once. -/
inductive Event where
  | masterOpen
  | masterRelease
  | slaveOpen
  | slaveRelease
  | masterWrite (i : Nat) (data : List UInt8)
  | masterRead (i : Nat) (len : Nat)
  | slaveRead (i : Nat) (len : Nat)
  | slaveWrite (i : Nat) (data : List UInt8)
  | run (i : Nat) (alloc : Bool)

/-- A change under `pair->lock`. -/
def State.locked (st : State) (f : Pair → Pair) : Option State :=
  if st.pair.lock = none then some { st with pair := f st.pair } else none

/-- A call under a new number. -/
def State.begin (st : State) (i : Nat) (t : Task) : Option State :=
  match st.task i with
  | none => some (st.put st.pair i t)
  | some _ => none

def step (st : State) : Event → Option State
  | .masterOpen => st.locked Pair.masterOpen
  | .masterRelease => st.locked Pair.masterRelease
  | .slaveOpen => st.locked Pair.slaveOpen
  | .slaveRelease => st.locked Pair.slaveRelease
  | .masterWrite i data => st.begin i (.masterWrite data .enter)
  | .masterRead i len => st.begin i (.masterRead len [] .enter)
  | .slaveRead i len => st.begin i (.slaveRead len [] .enter)
  | .slaveWrite i data => st.begin i (.slaveWrite data 0 .enter)
  | .run i alloc =>
    match st.task i with
    | none => none
    | some t => st.runTask i alloc t

def Step (st st' : State) : Prop := ∃ e, step st e = some st'

/-- A pair after `pty_init`. -/
def initial : State where
  pair :=
    { allocated := false
      masterRef := 0
      slaveRef := 0
      s2m := .empty (fun _ => 0) ptyBufsize_pos
      lock := none
      ldisc := { ldiscInit with lflag := 0 }
      wq := fun _ => .init }
  task _ := none

end Osx64.Pty
