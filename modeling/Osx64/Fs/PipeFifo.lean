import Osx64.Fs.Pipe

/-!
# A pipe is a FIFO channel

The bytes taken out of a pipe are always the first of the bytes put in, whatever the calls
and however they interleave, and what lies between is the contents of the ring.  Each call
accounts for its own bytes: its share of the log is what its buffer holds up to `count`.
-/

namespace Osx64.Pipes

open Function List

/-- The bytes call `i` has moved, in order. -/
def share (st : State) (side : Side) (i : Nat) : List UInt8 :=
  ((st.moved side).filter fun entry => entry.1 = i).map Prod.snd

/-- All bytes moved by the calls of one end. -/
def stream (st : State) (side : Side) : List UInt8 := (st.moved side).map Prod.snd

structure Fifo (st : State) : Prop where
  order : stream st .write = stream st .read ++ st.pipe.ring.contents
  share : ∀ i c, st.task i = some (.call c) →
    share st c.side i = (List.range c.count).map c.buf
  fresh : ∀ i, st.task i = none → ∀ side, Pipes.share st side i = []

section Fifo

variable {st st' : State} {e : Event} {i j : Nat} {side : Side} {c c' : Call}

/-- A step that moves no byte: calls keep what they have moved, and new ones have not moved
anything. -/
theorem Fifo.frame (h : Fifo st) (hmoved : st'.moved = st.moved)
    (hring : st'.pipe.ring = st.pipe.ring) (hnone : ∀ i, st'.task i = none → st.task i = none)
    (hcall : ∀ i c', st'.task i = some (.call c') →
      (st.task i = none ∧ c'.count = 0) ∨
      ∃ c, st.task i = some (.call c) ∧ c'.side = c.side ∧ c'.count = c.count ∧ c'.buf = c.buf) :
    Fifo st' := by
  have hshare : ∀ side i, Pipes.share st' side i = Pipes.share st side i := by
    intro side i
    rw [Pipes.share, Pipes.share, hmoved]
  refine ⟨?_, fun i c' htask => ?_, fun i htask side => ?_⟩
  · rw [stream, stream, hmoved, hring]
    exact h.order
  · rw [hshare]
    rcases hcall i c' htask with ⟨hnew, hcount⟩ | ⟨c, hold, hside, hcount, hbuf⟩
    · rw [h.fresh i hnew, hcount]
      rfl
    · rw [hside, hcount, hbuf]
      exact h.share i c hold
  · rw [hshare]
    exact h.fresh i (hnone i htask) side

theorem share_enter_self (st : State) (i : Nat) (c : Call) :
    share (st.enter i c) c.side i = share st c.side i ++ (c.move st.pipe.ring).bytes := by
  show ((update st.moved c.side _ c.side).filter _).map Prod.snd = _
  rw [update_self, filter_append, map_append]
  congr 1
  have hall : ((c.move st.pipe.ring).bytes.map fun byte => (i, byte)).filter
      (fun entry => entry.1 = i) = (c.move st.pipe.ring).bytes.map fun byte => (i, byte) := by
    rw [filter_eq_self]
    simp
  rw [hall, map_map]
  exact map_id _

theorem share_enter_of_ne (hne : j ≠ i) : share (st.enter i c) side j = share st side j := by
  show ((update st.moved c.side _ side).filter _).map Prod.snd = _
  by_cases hside : side = c.side
  · subst hside
    have hnone : ((c.move st.pipe.ring).bytes.map fun byte => (i, byte)).filter
        (fun entry => entry.1 = j) = [] := by
      rw [filter_eq_nil_iff]
      simp [hne.symm]
    rw [update_self, filter_append, hnone, append_nil, share]
  · rw [update_of_ne hside, share]

theorem stream_enter (st : State) (i : Nat) (c : Call) (side : Side) :
    stream (st.enter i c) side =
      stream st side ++ if side = c.side then (c.move st.pipe.ring).bytes else [] := by
  show (update st.moved c.side _ side).map Prod.snd = _
  by_cases hside : side = c.side
  · subst hside
    rw [update_self, map_append, if_pos rfl, map_map]
    exact congrArg _ (map_id _)
  · rw [update_of_ne hside, if_neg hside, append_nil, stream]

theorem Fifo.enter (h : Fifo st) (htask : st.task i = some (.call c)) : Fifo (st.enter i c) := by
  have hmoved := c.move_moved st.pipe.ring
  refine ⟨?_, fun j c' htask' => ?_, fun j htask' side => ?_⟩
  · rw [stream_enter, stream_enter]
    have hcontents := hmoved.contents
    show _ = _ ++ (c.move st.pipe.ring).ring.contents
    cases hside : c.side with
    | read =>
      rw [hside] at hcontents
      rw [if_neg (by decide), if_pos rfl, append_nil, h.order, hcontents, append_assoc]
    | write =>
      rw [hside] at hcontents
      rw [if_pos rfl, if_neg (by decide), append_nil, h.order, hcontents, append_assoc]
  · by_cases hji : j = i
    · subst hji
      have hc' : c' = { (c.move st.pipe.ring).call with
          phase := nextPhase st.pipe.single (c.move st.pipe.ring).call } := by
        have hself : (st.enter j c).task j = some (.call _) := update_self _ _ _
        rw [hself] at htask'
        cases htask'
        rfl
      have hside : c'.side = c.side := by rw [hc']; exact hmoved.side
      rw [hside, share_enter_self, h.share j c htask, hc', ← hmoved.bytes]
    · have hother : (st.enter i c).task j = st.task j := update_of_ne hji _ _
      rw [hother] at htask'
      rw [share_enter_of_ne hji, h.share j c' htask']
  · have hji : j ≠ i := by
      rintro rfl
      have hself : (st.enter j c).task j = some (.call _) := update_self _ _ _
      rw [hself] at htask'
      cases htask'
    have hother : (st.enter i c).task j = st.task j := update_of_ne hji _ _
    rw [share_enter_of_ne hji, h.fresh j (hother ▸ htask')]

/-- A step that only puts a new task in the place of one. -/
theorem Fifo.put (h : Fifo st) {t : Task} (hmoved : st'.moved = st.moved)
    (hring : st'.pipe.ring = st.pipe.ring) (htasks : st'.task = st.task)
    (hcall : ∀ c', t = .call c' → (st.task i = none ∧ c'.count = 0) ∨
      ∃ c, st.task i = some (.call c) ∧ c'.side = c.side ∧ c'.count = c.count ∧ c'.buf = c.buf) :
    Fifo (st'.put i t) := by
  refine h.frame hmoved hring (fun j htask => ?_) fun j c' htask => ?_
  · by_cases hji : j = i
    · rw [hji, put_task_self] at htask
      cases htask
    · rw [put_task_of_ne hji, htasks] at htask
      exact htask
  · by_cases hji : j = i
    · rw [hji, put_task_self, Option.some_inj] at htask
      rw [hji]
      exact hcall c' htask
    · rw [put_task_of_ne hji, htasks] at htask
      exact .inr ⟨c', htask, rfl, rfl, rfl⟩

theorem Fifo.wakeUpAll (h : Fifo st) (side : Side) : Fifo (st.wakeUpAll side) := by
  refine h.frame rfl rfl (fun j htask => ?_) fun j c' htask => ?_
  · rcases wakeUpAll_task st side j with heq | ⟨c, -, heq⟩
    · exact heq ▸ htask
    · rw [heq] at htask
      cases htask
  · rcases wakeUpAll_task st side j with heq | ⟨c, hold, heq⟩
    · exact .inr ⟨c', heq ▸ htask, rfl, rfl, rfl⟩
    · rw [heq] at htask
      cases htask
      exact .inr ⟨c, hold, rfl, rfl, rfl⟩

theorem Fifo.step (h : Fifo st) (hstep : Step st st') : Fifo st' := by
  obtain ⟨e, he⟩ := hstep
  cases step_cases he with
  | begin i side len buf hnew =>
    refine h.put rfl rfl rfl fun c' hc' => ?_
    cases hc'
    exact .inl ⟨hnew, rfl⟩
  | close | flagged | flag => exact h.put rfl rfl rfl fun c' hc' => by cases hc'
  | enter i c htask hphase hfree => exact h.enter htask
  | flush i c htask hphase hfree =>
    refine (h.wakeUpAll c.side.other).put rfl rfl rfl fun c' hc' => ?_
    cases hc'
    rcases wakeUpAll_task st c.side.other i with heq | ⟨c₁, hold, heq⟩
    · exact .inr ⟨c, heq.trans htask, rfl, rfl, rfl⟩
    · rw [htask] at hold
      cases hold
      exact .inr ⟨_, heq, rfl, rfl, rfl⟩
  | park _ c htask | enqueue _ c htask =>
    refine h.put rfl rfl rfl fun c' hc' => ?_
    cases hc'
    exact .inr ⟨c, htask, rfl, rfl, rfl⟩
  | wakeRead | wakeWrite => exact (h.wakeUpAll _).put rfl rfl rfl fun c' hc' => by cases hc'

theorem fifo_newPipe (cell : Nat → UInt8) : Fifo (newPipe cell) where
  order := by
    have hcontents : (newPipe cell).pipe.ring.contents = [] :=
      Ring.contents_empty cell pipeBufsize_pos
    rw [hcontents]
    rfl
  share _ _ htask := by cases htask
  fresh _ _ _ := rfl

theorem Reachable.fifo (h : Reachable st) : Fifo st := by
  obtain ⟨cell, hrun⟩ := h
  induction hrun with
  | refl => exact fifo_newPipe cell
  | tail _ hstep ih => exact ih.step hstep

end Fifo

/-- In every reachable state of a pipe the bytes taken out are a prefix of the bytes put in;
the bytes in between, at most `PIPE_BUFSIZE - 1`, are as many as the indices say; and every
call that has returned gives the number of bytes it has moved. -/
theorem pipe_is_fifo {st : State} (h : Reachable st) :
    stream st .read <+: stream st .write ∧
      (stream st .write).length - (stream st .read).length ≤ pipeBufsize - 1 ∧
      ((stream st .write).length - (stream st .read).length : Int) =
        ((st.pipe.ring.head - st.pipe.ring.tail : Int)) % pipeBufsize ∧
      ∀ i c, st.task i = some (.call c) → c.phase = .returned →
        c.count = (share st c.side i).length := by
  have hfifo := h.fifo
  have hused := st.pipe.ring.used_lt
  have hlen : (stream st .write).length = (stream st .read).length + st.pipe.ring.used := by
    rw [hfifo.order, length_append, Ring.length_contents]
  refine ⟨⟨_, hfifo.order.symm⟩, by omega, ?_, fun i c htask _ => ?_⟩
  · have htail := st.pipe.ring.tail_lt
    rw [hlen, Ring.used]
    have hcast : ((st.pipe.ring.head + pipeBufsize - st.pipe.ring.tail : Nat) : Int) =
        st.pipe.ring.head - st.pipe.ring.tail + pipeBufsize := by omega
    rw [← Int.add_emod_right, ← hcast, ← Int.natCast_emod]
    omega
  · rw [hfifo.share i c htask, length_map, length_range]

/-- Two bytes are written and one of them is read. -/
theorem pipe_is_fifo_sample : ∃ st, Reachable st ∧ stream st .write = [65, 66] ∧
    stream st .read = [65] ∧ stream st .read <+: stream st .write := by
  let events : List Event :=
    [.begin 0 .write 2 (fun k => if k = 0 then 65 else 66), .run 0, .begin 1 .read 1 (fun _ => 0),
      .run 1]
  obtain ⟨st, hrun⟩ : ∃ st, runEvents step (newPipe fun _ => 0) events = some st := ⟨_, rfl⟩
  have hst : Reachable st := ⟨_, steps_of_runEvents hrun⟩
  have hstreams : (runEvents step (newPipe fun _ => 0) events).map
      (fun st => (stream st .write, stream st .read)) = some ([65, 66], [65]) := by
    decide +kernel
  rw [hrun, Option.map_some, Option.some_inj, Prod.mk.injEq] at hstreams
  exact ⟨st, hst, hstreams.1, hstreams.2, (pipe_is_fifo hst).1⟩

end Osx64.Pipes
