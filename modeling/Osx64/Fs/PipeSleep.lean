import Osx64.Fs.Pipe

/-!
# Sleeping on a pipe

When all calls on a pipe have returned or sleep, a reader should sleep only on an empty pipe
and a writer only on a full one, with the other end open.

This fails in two ways.  `pipe_read` and `pipe_write` wake the other end before they go to
sleep but not before they return, so that a call that moves its last byte leaves the sleepers
of the other end asleep.  And `pipe_release` sets `single` without `pipe->lock`, so that it
can empty a queue while a call that has found `single` unset is still on its way to it.

For runs in which neither happens the property is proved, from an invariant with these parts:

* `queue`: the queues know their tasks;
* `holder`: a call in phase `flush` or `park` holds `pipe->lock` and has found the buffer
  blocked;
* `newly`: outside `flush`, a call in progress has nothing to tell the other end;
* `blocked`: where a call waits, the buffer is blocked for it, or a call of the other end is
  about to wake it;
* `heard`: a call on its way to sleep has found `single` unset, or is going to be woken by
  `pipe_release`;
* `closed`: an end that is closed is marked by `single`, once `pipe_release` has got there.
-/

namespace Osx64.Pipes

open WaitQueue Option

/-! ## The property -/

/-- What a call in this phase does with its own queue. -/
def Phase.wait : Phase → Wait
  | .enqueue => .entering
  | .asleep => .asleep
  | _ => .running

def Task.wait (side : Side) : Task → Wait
  | .call c => if c.side = side then c.phase.wait else .running
  | .release _ => .running

/-- A call waits at its own end. -/
theorem Task.side_eq_of_wait {side : Side} {t : Task} (h : t.wait side ≠ .running) :
    ∃ c, t = .call c ∧ c.side = side ∧ t.wait side = c.phase.wait := by
  cases t with
  | release p => exact absurd rfl h
  | call c =>
    by_cases hside : c.side = side
    · exact ⟨c, rfl, hside, if_pos hside⟩
    · exact absurd (if_neg hside) h

/-- How calls use the two queues of a pipe. -/
def discipline : Discipline Side Task where
  wait := Task.wait
  wake := State.wake
  wait_wake side t := by
    cases t with
    | call c =>
      show (if c.side = side then Wait.running else Wait.running) = .running
      rw [ite_self]
    | release p => rfl
  one := by
    intro side side' t h h'
    obtain ⟨c, rfl, rfl, -⟩ := Task.side_eq_of_wait h
    obtain ⟨c', hc, rfl, -⟩ := Task.side_eq_of_wait h'
    cases hc
    rfl

/-- What task `i` does with the queue of one end. -/
def waitOn (st : State) (side : Side) (i : Nat) : Wait := discipline.waitOn st.task side i

/-- The task has returned, or is asleep. -/
def Task.Outside : Task → Prop
  | .call c => c.phase = .asleep ∨ c.phase = .returned
  | .release p => p = .returned

instance : (t : Task) → Decidable t.Outside
  | .call c => inferInstanceAs (Decidable (c.phase = .asleep ∨ c.phase = .returned))
  | .release p => inferInstanceAs (Decidable (p = .returned))

/-- Nobody is inside `pipe_read`, `pipe_write` or `pipe_release`, sleepers apart. -/
def Quiescent (st : State) : Prop := ∀ i t, st.task i = some t → t.Outside

/-- Sleepers of each end find the buffer blocked and the other end open. -/
def NobodyStranded (st : State) : Prop :=
  ∀ side i, waitOn st side i = .asleep →
    Blocked side st.pipe.ring ∧ st.closed side.other = false

/-! ## Runs without a lost wake-up -/

/-- The phase in which `pipe_release` wakes the queue of an end. -/
def wakePhase : Side → ReleasePhase
  | .read => .wakeRead
  | .write => .wakeWrite

/-- No wake-up is lost in this step: a call that has moved bytes and returns leaves nobody
waiting at the other end, and `pipe_release` wakes a queue only when no call has decided to
sleep there without having taken the lock of the queue. -/
def Safe (st : State) : Event → Prop
  | .begin _ _ _ _ => True
  | .close _ _ => True
  | .run i =>
    (∀ c, st.task i = some (.call c) → c.phase = .enter → (c.move st.pipe.ring).bytes ≠ [] →
      nextPhase st.pipe.single (c.move st.pipe.ring).call = .returned →
      ∀ j, waitOn st c.side.other j = .running) ∧
    ∀ side, st.task i = some (.release (wakePhase side)) →
      ∀ j c, st.task j = some (.call c) → c.side = side → c.phase ≠ .flush ∧ c.phase ≠ .park

def SafeStep (st st' : State) : Prop := ∃ e, Safe st e ∧ step st e = some st'

/-! ## The invariant -/

/-- The call has decided to sleep. -/
def Phase.Committed (p : Phase) : Prop := p ≠ .enter ∧ p ≠ .returned
deriving Decidable

/-- A call of `pipe_release` is going to wake the queue of this end. -/
def PendingWake (st : State) (side : Side) : Prop :=
  ∃ j p, st.task j = some (.release p) ∧ (p = .wakeRead ∨ p = wakePhase side)

/-- A call of this end is going to wake the queue of the other. -/
def PendingFlush (st : State) (side : Side) : Prop :=
  ∃ j c, st.task j = some (.call c) ∧ c.side = side ∧ c.phase = .flush

structure SleepOk (st : State) : Prop where
  queue : discipline.QueuesOk st.pipe.wq st.task
  holder : ∀ i c, st.task i = some (.call c) → c.phase = .flush ∨ c.phase = .park →
    st.pipe.lock = some i ∧ Blocked c.side st.pipe.ring
  newly : ∀ i c, st.task i = some (.call c) → c.phase ≠ .flush → c.phase ≠ .returned →
    c.newly = 0
  blocked : ∀ side i, waitOn st side i ≠ .running →
    Blocked side st.pipe.ring ∨ PendingFlush st side.other
  heard : ∀ i c, st.task i = some (.call c) → c.phase.Committed →
    st.pipe.single = false ∨ PendingWake st c.side
  closed : ∀ side, st.closed side = true →
    st.pipe.single = true ∨ ∃ j, st.task j = some (.release .flag)

section Wait

variable {st st' : State} {e : Event} {i j : Nat} {side : Side} {c : Call} {t : Task}

theorem Side.other_other (side : Side) : side.other.other = side := by cases side <;> rfl

theorem waitOn_call (h : st.task i = some (.call c)) : waitOn st c.side i = c.phase.wait :=
  (Discipline.waitOn_eq h).trans (if_pos rfl)

/-- A task that does something with a queue is a call of that end. -/
theorem exists_call_of_waitOn (h : waitOn st side i ≠ .running) :
    ∃ c, st.task i = some (.call c) ∧ c.side = side ∧ waitOn st side i = c.phase.wait := by
  obtain ⟨t, htask, hwait⟩ := Discipline.exists_of_waitOn h
  have hrunning : t.wait side ≠ .running := fun heq => h (hwait.trans heq)
  obtain ⟨c, rfl, hside, hphase⟩ := Task.side_eq_of_wait hrunning
  exact ⟨c, htask, hside, hwait.trans hphase⟩

theorem Phase.wait_eq_asleep {p : Phase} (h : p.wait = .asleep) : p = .asleep := by
  cases p <;> first | rfl | cases h

theorem running_of_phase (htask : st.task i = some (.call c)) (hphase : c.phase.wait = .running)
    (side : Side) : waitOn st side i = .running := by
  refine (Discipline.waitOn_eq htask).trans ?_
  show (if c.side = side then c.phase.wait else .running) = .running
  rw [hphase, ite_self]

theorem running_of_release {p : ReleasePhase} (htask : st.task i = some (.release p))
    (side : Side) : waitOn st side i = .running := Discipline.waitOn_eq htask

theorem Task.wait_call (hphase : c.phase.wait = .running) (side : Side) :
    (Task.call c).wait side = .running := by
  rw [Task.wait, hphase, ite_self]

end Wait

/-! ## The other tasks -/

section Others

variable {st st' : State} {i j : Nat} {side : Side} {c : Call} {t : Task}

section

variable (h : discipline.Others st.task i st'.task)
include h

theorem others_call (hj : j ≠ i)
    (htask : st'.task j = some (.call c)) (hphase : c.phase ≠ .enter) :
    st.task j = some (.call c) := by
  refine h.back hj htask fun t₀ heq => hphase ?_
  cases t₀ with
  | release p => cases heq
  | call c₀ =>
    cases heq
    rfl

theorem pendingFlush_of_others
    (hflush : PendingFlush st side)
    (hself : ∀ c, st.task i = some (.call c) → c.side = side → c.phase ≠ .flush) :
    PendingFlush st' side := by
  obtain ⟨j, c, htask, hside, hphase⟩ := hflush
  have hj : j ≠ i := by
    rintro rfl
    exact hself c htask hside hphase
  refine ⟨j, c, h.keep hj htask fun side' hasleep => ?_, hside, hphase⟩
  rw [show discipline.wait side' (.call c) = .running from Task.wait_call (by rw [hphase]; rfl) _]
    at hasleep
  cases hasleep

theorem pendingWake_of_others
    (hwake : PendingWake st side)
    (hself : ∀ p, st.task i = some (.release p) → p ≠ .wakeRead ∧ p ≠ wakePhase side) :
    PendingWake st' side := by
  obtain ⟨j, p, htask, hp⟩ := hwake
  have hj : j ≠ i := by
    rintro rfl
    exact hp.elim (hself p htask).1 (hself p htask).2
  refine ⟨j, p, h.keep hj htask fun side' hasleep => ?_, hp⟩
  cases hasleep

end

end Others

/-! ## Each part of the invariant is kept -/

section Parts

variable {st st' : State} {e : Event} {i j : Nat} {side : Side} {c : Call} {t : Task}

theorem nextPhase_wait (single : Bool) (c : Call) : (nextPhase single c).wait = .running := by
  unfold nextPhase
  split_ifs <;> rfl

theorem SleepOk.queue_step (h : SleepOk st) (hstep : StepCase st e st') :
    discipline.QueuesOk st'.pipe.wq st'.task := by
  cases hstep with
  | begin i side' len buf hnew =>
    exact h.queue.put (fun _ => Discipline.waitOn_of_none hnew) (Task.wait_call rfl)
  | close i side' hnew =>
    exact h.queue.put (fun _ => Discipline.waitOn_of_none hnew) fun _ => rfl
  | enter i c htask hphase hfree =>
    exact h.queue.put (running_of_phase htask (by rw [hphase]; rfl))
      (Task.wait_call (nextPhase_wait _ _))
  | flush i c htask hphase hfree =>
    exact h.queue.wake hfree (running_of_phase htask (by rw [hphase]; rfl)) (Task.wait_call rfl)
  | park i c htask hphase hfree =>
    exact h.queue.enter hfree (running_of_phase htask (by rw [hphase]; rfl)) (if_pos rfl)
  | enqueue i c htask hphase =>
    refine h.queue.sleep htask ?_ (if_pos rfl)
    show (if c.side = c.side then c.phase.wait else .running) = .entering
    rw [if_pos rfl, hphase]
    rfl
  | flagged _ htask | flag _ htask => exact h.queue.put (running_of_release htask) fun _ => rfl
  | wakeRead _ htask hfree | wakeWrite _ htask hfree =>
    exact h.queue.wake hfree (running_of_release htask) fun _ => rfl

/-- The tasks a step is not about. -/
theorem SleepOk.others_step (h : SleepOk st) (hstep : StepCase st e st') :
    discipline.Others st.task e.id st'.task := by
  cases hstep with
  | begin | close | enter | park | enqueue | flagged | flag => exact Discipline.others_put
  | flush | wakeRead | wakeWrite => exact h.queue.others_wake _

/-- Nobody is left on a queue that has been woken. -/
theorem SleepOk.running_wake (h : SleepOk st) (hfree : st.queueFree side)
    (hnew : t.wait side = .running) (j : Nat) :
    waitOn ((st.wakeUpAll side).put i t) side j = .running :=
  h.queue.running_of_wake hfree hnew j

theorem nextPhase_ne_returned {single : Bool} (h : nextPhase single c ≠ .returned) :
    c.count < c.len ∧ single = false := by
  unfold nextPhase at h
  split_ifs at h with hend
  · exact absurd rfl h
  · exact ⟨by omega, by simpa using fun hs => hend (.inr hs)⟩
  · exact ⟨by omega, by simpa using fun hs => hend (.inr hs)⟩

/-- The call after its section, by its phase. -/
theorem enter_task_self (st : State) (i : Nat) (c : Call) :
    (st.enter i c).task i = some (.call { (c.move st.pipe.ring).call with
      phase := nextPhase st.pipe.single (c.move st.pipe.ring).call }) :=
  Function.update_self _ _ _

section

variable (h : SleepOk st) (hstep : StepCase st e st') (htask' : st'.task j = some (.call c))
include h hstep htask'

theorem SleepOk.holder_step (hphase' : c.phase = .flush ∨ c.phase = .park) :
    st'.pipe.lock = some j ∧ Blocked c.side st'.pipe.ring := by
  have hothers := h.others_step hstep
  by_cases hj : j = e.id
  · subst hj
    cases hstep with
    | begin | park | enqueue =>
      cases (put_task_self _).symm.trans htask'
      rcases hphase' with hp | hp <;> cases hp
    | close | flagged | flag | wakeRead | wakeWrite => cases (put_task_self _).symm.trans htask'
    | enter i c₀ htask hphase hfree =>
      have hmoved := c₀.move_moved st.pipe.ring
      cases (enter_task_self st i c₀).symm.trans htask'
      have hne : nextPhase st.pipe.single (c₀.move st.pipe.ring).call ≠ .returned := by
        intro heq
        rcases hphase' with hp | hp <;> cases heq.symm.trans hp
      refine ⟨if_neg hne, ?_⟩
      have hlt := (nextPhase_ne_returned hne).1
      rw [hmoved.len] at hlt
      rw [hmoved.side]
      exact Call.move_blocked hlt
    | flush i c₀ htask hphase hfree =>
      cases (put_task_self _).symm.trans htask'
      exact h.holder i c₀ htask (.inl hphase)
  · have hne : c.phase ≠ .enter := by
      rcases hphase' with hp | hp <;> rw [hp] <;> decide
    have hold := h.holder j c (others_call hothers hj htask' hne) hphase'
    cases hstep with
    | enter i c₀ htask hphase hfree =>
      -- the lock was free
      rw [hfree] at hold
      cases hold.1
    | park i c₀ htask hphase hfree =>
      -- the lock was held by the other call
      have hlock := (h.holder i c₀ htask (.inr hphase)).1
      exact absurd (some_inj.mp (hold.1.symm.trans hlock)) hj
    | begin | close | flush | enqueue | flagged | flag | wakeRead | wakeWrite => exact hold

theorem SleepOk.newly_step (hflush : c.phase ≠ .flush)
    (hreturned : c.phase ≠ .returned) : c.newly = 0 := by
  by_cases hj : j = e.id
  · subst hj
    cases hstep with
    | begin | flush =>
      cases (put_task_self _).symm.trans htask'
      rfl
    | close | flagged | flag | wakeRead | wakeWrite => cases (put_task_self _).symm.trans htask'
    | enter i c₀ htask hphase hfree =>
      cases (enter_task_self st i c₀).symm.trans htask'
      by_contra hnewly
      have hne := nextPhase_ne_returned hreturned
      refine hflush ?_
      rw [nextPhase, if_neg (by rw [hne.2]; simp; omega), if_pos hnewly]
    | park i c₀ htask hphase | enqueue i c₀ htask hphase =>
      cases (put_task_self _).symm.trans htask'
      exact h.newly i c₀ htask (by rw [hphase]; decide) (by rw [hphase]; decide)
  · rcases h.others_step hstep j hj with heq | ⟨side, t, htask, hasleep, heq⟩
    · exact h.newly j c (heq ▸ htask') hflush hreturned
    · have hrunning : t.wait side ≠ .running := fun hr => by cases hasleep.symm.trans hr
      obtain ⟨c₀, rfl, -, hwait⟩ := Task.side_eq_of_wait hrunning
      have hphase := Phase.wait_eq_asleep (hwait.symm.trans hasleep)
      cases heq.symm.trans htask'
      exact h.newly j c₀ htask (by rw [hphase]; decide) (by rw [hphase]; decide)

end

section

variable (h : SleepOk st) (hothers : discipline.Others st.task i st'.task)
  (hring : st'.pipe.ring = st.pipe.ring)
  (hself : ∀ c, st.task i = some (.call c) → c.phase ≠ .flush)
include h hothers hring hself

/-- A step that leaves the ring as it is, by a task that is not about to wake anybody. -/
theorem SleepOk.blocked_of_same_ring (hwait : waitOn st side j ≠ .running) :
    Blocked side st'.pipe.ring ∨ PendingFlush st' side.other := by
  rw [hring]
  rcases h.blocked side j hwait with hb | hflush
  · exact .inl hb
  · exact .inr (pendingFlush_of_others hothers hflush fun c htask _ => hself c htask)

/-- Such a step by a task that does not wait afterwards. -/
theorem SleepOk.blocked_of_running
    (hnow : waitOn st' side i = .running) (hwait' : waitOn st' side j ≠ .running) :
    Blocked side st'.pipe.ring ∨ PendingFlush st' side.other := by
  have hj : j ≠ i := by
    rintro rfl
    exact hwait' hnow
  exact h.blocked_of_same_ring hothers hring hself (hothers.waitOn hj hwait')

end

theorem not_call_of_release {p : ReleasePhase} {P : Call → Prop}
    (htask : st.task i = some (.release p)) (c : Call) (hc : st.task i = some (.call c)) : P c := by
  cases htask.symm.trans hc

/-- Without `pipe->lock` nobody is about to wake anybody. -/
theorem SleepOk.not_pendingFlush (h : SleepOk st) (hfree : st.pipe.lock = none) :
    ¬ PendingFlush st side := by
  rintro ⟨j, c, htask, -, hphase⟩
  have hlock := (h.holder j c htask (.inl hphase)).1
  rw [hfree] at hlock
  cases hlock

theorem SleepOk.blocked_enter (h : SleepOk st) (htask : st.task i = some (.call c))
    (hphase : c.phase = .enter) (hfree : st.pipe.lock = none) (hsafe : Safe st (.run i))
    (hwait : waitOn st side j ≠ .running) :
    Blocked side (st.enter i c).pipe.ring ∨ PendingFlush (st.enter i c) side.other := by
  have hmoved := c.move_moved st.pipe.ring
  have hblocked := (h.blocked side j hwait).resolve_right (h.not_pendingFlush hfree)
  by_cases hbytes : (c.move st.pipe.ring).bytes = []
  · left
    show Blocked side (c.move st.pipe.ring).ring
    rw [hmoved.idle hbytes]
    exact hblocked
  -- bytes were moved, so it is the other end that waits, and it is going to be woken
  have hside : c.side = side.other := by
    by_contra hne
    have hsame : c.side = side := by
      cases hc : c.side <;> cases hs : side <;> rw [hc, hs] at hne <;>
        first | rfl | exact absurd rfl hne
    rw [Call.move_of_blocked (hsame ▸ hblocked)] at hbytes
    exact hbytes rfl
  have hnewly : (c.move st.pipe.ring).call.newly ≠ 0 := by
    rw [hmoved.newly]
    have hlen := List.length_pos_iff.mpr hbytes
    omega
  have hgoes : nextPhase st.pipe.single (c.move st.pipe.ring).call = .flush := by
    by_cases hret : nextPhase st.pipe.single (c.move st.pipe.ring).call = .returned
    · refine absurd (hsafe.1 c htask hphase hbytes hret j) ?_
      rw [hside, Side.other_other]
      exact hwait
    · unfold nextPhase at hret ⊢
      split_ifs at hret ⊢
      · exact absurd rfl hret
      · rfl
  exact .inr ⟨i, _, enter_task_self st i c, hmoved.side.trans hside, hgoes⟩

theorem SleepOk.blocked_step (h : SleepOk st) (hsafe : Safe st e) (hstep : StepCase st e st')
    (hwait' : waitOn st' side j ≠ .running) :
    Blocked side st'.pipe.ring ∨ PendingFlush st' side.other := by
  have hothers := h.others_step hstep
  cases hstep with
  | begin i side' len buf hnew =>
    exact h.blocked_of_running hothers rfl (fun c htask => by cases hnew.symm.trans htask)
      (running_of_phase (put_task_self _) rfl side) hwait'
  | close i side' hnew =>
    exact h.blocked_of_running hothers rfl (fun c htask => by cases hnew.symm.trans htask)
      (running_of_release (put_task_self _) side) hwait'
  | enter i c htask hphase hfree =>
    have hj : j ≠ i := by
      rintro rfl
      exact hwait' (running_of_phase (enter_task_self st j c) (nextPhase_wait _ _) side)
    exact h.blocked_enter htask hphase hfree hsafe (hothers.waitOn hj hwait')
  | flush i c htask hphase hfree =>
    -- everybody at the other end has been woken, so it is a wait at the same end
    by_cases hside : side = c.side.other
    · subst hside
      exact absurd (h.running_wake hfree (Task.wait_call rfl _) j) hwait'
    · have hsame : side = c.side := by
        cases hc : c.side <;> cases hs : side <;> rw [hc, hs] at hside <;>
          first | rfl | exact absurd rfl hside
      subst hsame
      exact .inl (h.holder i c htask (.inl hphase)).2
  | park i c htask hphase hfree =>
    by_cases hj : j = i
    · subst hj
      obtain ⟨c', htask', hside, -⟩ := exists_call_of_waitOn hwait'
      cases (put_task_self _).symm.trans htask'
      subst hside
      exact .inl (h.holder j c htask (.inr hphase)).2
    · refine h.blocked_of_same_ring hothers rfl (fun c' htask' => ?_) (hothers.waitOn hj hwait')
      cases htask.symm.trans htask'
      rw [hphase]
      decide
  | enqueue i c htask hphase =>
    have hself : ∀ c', st.task i = some (.call c') → c'.phase ≠ .flush := by
      intro c' htask'
      cases htask.symm.trans htask'
      rw [hphase]
      decide
    by_cases hj : j = i
    · subst hj
      obtain ⟨c', htask', hside, -⟩ := exists_call_of_waitOn hwait'
      cases (put_task_self _).symm.trans htask'
      subst hside
      refine h.blocked_of_same_ring hothers rfl hself (j := j) ?_
      rw [waitOn_call htask, hphase]
      decide
    · exact h.blocked_of_same_ring hothers rfl hself (hothers.waitOn hj hwait')
  | flagged _ htask | flag _ htask | wakeRead _ htask | wakeWrite _ htask =>
    exact h.blocked_of_running hothers rfl (not_call_of_release htask)
      (running_of_release (put_task_self _) side) hwait'

section

variable (h : SleepOk st) (hothers : discipline.Others st.task i st'.task)
  (hsingle : st'.pipe.single = st.pipe.single)
include h hothers hsingle

/-- A step by a task that is not `pipe_release`. -/
theorem SleepOk.heard_of_ne
    (hself : ∀ p, st.task i = some (.release p) → p = .flag) (htask : st.task j = some (.call c))
    (hphase : c.phase.Committed) : st'.pipe.single = false ∨ PendingWake st' c.side := by
  rw [hsingle]
  rcases h.heard j c htask hphase with hopen | hwake
  · exact .inl hopen
  · refine .inr (pendingWake_of_others hothers hwake fun p hp => ?_)
    rw [hself p hp]
    cases c.side <;> decide

/-- A step of a call that has decided to sleep and sticks to it. -/
theorem SleepOk.heard_of_committed {c₀ c₁ : Call}
    (htask : st.task i = some (.call c₀)) (hphase : c₀.phase.Committed)
    (hself : st'.task i = some (.call c₁)) (hside : c₁.side = c₀.side)
    (htask' : st'.task j = some (.call c)) (hphase' : c.phase.Committed) :
    st'.pipe.single = false ∨ PendingWake st' c.side := by
  have hrelease : ∀ p, st.task i = some (.release p) → p = .flag :=
    fun p hp => by cases htask.symm.trans hp
  by_cases hj : j = i
  · subst hj
    cases hself.symm.trans htask'
    rw [hside]
    exact h.heard_of_ne hothers hsingle hrelease htask hphase
  · exact h.heard_of_ne hothers hsingle hrelease (others_call hothers hj htask' hphase'.1) hphase'

end

variable (side) in
/-- When `pipe_release` has woken a queue, nobody has decided to sleep at that end. -/
theorem SleepOk.side_ne_of_wake (h : SleepOk st) (hsafe : Safe st (.run i)) {p : ReleasePhase}
    (htask : st.task i = some (.release (wakePhase side))) (hfree : st.queueFree side)
    (htask' : ((st.wakeUpAll side).put i (.release p)).task j = some (.call c))
    (hphase' : c.phase.Committed) : c.side ≠ side := by
  rintro rfl
  have hj : j ≠ i := by
    rintro rfl
    cases (put_task_self _).symm.trans htask'
  have hothers : discipline.Others st.task i ((st.wakeUpAll c.side).put i (.release p)).task :=
    h.queue.others_wake c.side
  have hold := others_call hothers hj htask' hphase'.1
  have hrunning := h.running_wake (i := i) (t := .release p) hfree rfl j
  rw [waitOn_call htask'] at hrunning
  obtain ⟨hflush, hpark⟩ := hsafe.2 c.side htask j c hold rfl
  cases hphase : c.phase with
  | enter => exact hphase'.1 hphase
  | flush => exact hflush hphase
  | park => exact hpark hphase
  | enqueue | asleep => rw [hphase] at hrunning; cases hrunning
  | returned => exact hphase'.2 hphase

theorem SleepOk.heard_step (h : SleepOk st) (hsafe : Safe st e) (hstep : StepCase st e st')
    (htask' : st'.task j = some (.call c)) (hphase' : c.phase.Committed) :
    st'.pipe.single = false ∨ PendingWake st' c.side := by
  have hothers := h.others_step hstep
  cases hstep with
  | begin i side' len buf hnew =>
    have hj : j ≠ i := by
      rintro rfl
      cases (put_task_self _).symm.trans htask'
      exact hphase'.1 rfl
    exact h.heard_of_ne hothers rfl (fun p hp => by cases hnew.symm.trans hp)
      (others_call hothers hj htask' hphase'.1) hphase'
  | close i side' hnew =>
    have hj : j ≠ i := by
      rintro rfl
      cases (put_task_self _).symm.trans htask'
    exact h.heard_of_ne hothers rfl (fun p hp => by cases hnew.symm.trans hp)
      (others_call hothers hj htask' hphase'.1) hphase'
  | enter i c₀ htask hphase hfree =>
    by_cases hj : j = i
    · subst hj
      cases (enter_task_self st j c₀).symm.trans htask'
      exact .inl (nextPhase_ne_returned hphase'.2).2
    · exact h.heard_of_ne hothers rfl (fun p hp => by cases htask.symm.trans hp)
        (others_call hothers hj htask' hphase'.1) hphase'
  | flush _ _ htask hphase | park _ _ htask hphase | enqueue _ _ htask hphase =>
    exact h.heard_of_committed hothers rfl htask (by rw [hphase]; decide) (put_task_self _) rfl
      htask' hphase'
  | flagged i htask hsingle =>
    have hj : j ≠ i := by
      rintro rfl
      cases (put_task_self _).symm.trans htask'
    exact h.heard_of_ne hothers rfl (fun p hp => by cases htask.symm.trans hp; rfl)
      (others_call hothers hj htask' hphase'.1) hphase'
  | flag i htask hsingle => exact .inr ⟨i, .wakeRead, put_task_self _, .inl rfl⟩
  | wakeRead i htask hfree =>
    have hside := h.side_ne_of_wake .read hsafe htask hfree htask' hphase'
    have hwrite : c.side = .write := by
      cases hc : c.side with
      | read => exact absurd hc hside
      | write => rfl
    exact .inr ⟨i, .wakeWrite, put_task_self _, .inr (by rw [hwrite]; rfl)⟩
  | wakeWrite i htask hfree =>
    have hside := h.side_ne_of_wake .write hsafe htask hfree htask' hphase'
    have hread : c.side = .read := by
      cases hc : c.side with
      | read => rfl
      | write => exact absurd hc hside
    have hj : j ≠ i := by
      rintro rfl
      cases (put_task_self _).symm.trans htask'
    rcases h.heard j c (others_call hothers hj htask' hphase'.1) hphase' with hopen | hwake
    · exact .inl hopen
    · refine .inr (pendingWake_of_others hothers hwake fun p hp => ?_)
      cases htask.symm.trans hp
      rw [hread]
      decide

theorem SleepOk.closed_step (h : SleepOk st) (hstep : StepCase st e st')
    (hclosed : st'.closed side = true) :
    st'.pipe.single = true ∨ ∃ j, st'.task j = some (.release .flag) := by
  have hothers := h.others_step hstep
  -- a step of a task that is not about to set the flag
  have hkeep : st'.pipe.single = st.pipe.single → st'.closed = st.closed →
      st.task e.id ≠ some (.release .flag) →
      st'.pipe.single = true ∨ ∃ j, st'.task j = some (.release .flag) := by
    intro hsingle hsame hself
    rw [hsingle]
    rcases h.closed side (hsame ▸ hclosed) with hs | ⟨j, hj⟩
    · exact .inl hs
    · have hne : j ≠ e.id := by
        rintro rfl
        exact hself hj
      exact .inr ⟨j, hothers.keep hne hj fun side hasleep => by cases hasleep⟩
  cases hstep with
  | begin i side' len buf hnew => exact hkeep rfl rfl fun hp => by cases hnew.symm.trans hp
  | close i side' hnew => exact .inr ⟨i, put_task_self _⟩
  | enter _ _ htask | flush _ _ htask | park _ _ htask | enqueue _ _ htask | wakeRead _ htask
  | wakeWrite _ htask => exact hkeep rfl rfl fun hp => by cases htask.symm.trans hp
  | flagged i htask hsingle => exact .inl hsingle
  | flag i htask hsingle => exact .inl rfl

end Parts

/-! ## Runs -/

section Run

variable {st st' : State}

theorem SleepOk.step (h : SleepOk st) (hstep : SafeStep st st') : SleepOk st' := by
  obtain ⟨e, hsafe, he⟩ := hstep
  have hcase := step_cases he
  exact
    { queue := h.queue_step hcase
      holder := fun _ _ => h.holder_step hcase
      newly := fun _ _ => h.newly_step hcase
      blocked := fun _ _ => h.blocked_step hsafe hcase
      heard := fun _ _ => h.heard_step hsafe hcase
      closed := fun _ => h.closed_step hcase }

theorem sleepOk_newPipe (cell : Nat → UInt8) : SleepOk (newPipe cell) where
  queue _ := queueOk_init fun _ => rfl
  holder _ _ htask := by cases htask
  newly _ _ htask := by cases htask
  blocked _ _ hwait := absurd rfl hwait
  heard _ _ htask := by cases htask
  closed _ hclosed := by cases hclosed

theorem SleepOk.run (h : SleepOk st) (hrun : Relation.ReflTransGen SafeStep st st') :
    SleepOk st' := by
  induction hrun with
  | refl => exact h
  | tail _ hstep ih => exact ih.step hstep

theorem SleepOk.nobodyStranded (h : SleepOk st) (hquiet : Quiescent st) : NobodyStranded st := by
  intro side i hasleep
  obtain ⟨c, htask, hside, hwait⟩ := exists_call_of_waitOn (by rw [hasleep]; decide)
  have hphase : c.phase = .asleep := Phase.wait_eq_asleep (hwait.symm.trans hasleep)
  constructor
  · refine (h.blocked side i (by rw [hasleep]; decide)).resolve_right ?_
    rintro ⟨j, c', htask', -, hflush⟩
    rcases hquiet j _ htask' with hp | hp <;> cases hflush.symm.trans hp
  · have hopen : st.pipe.single = false := by
      refine (h.heard i c htask (by rw [hphase]; decide)).resolve_right ?_
      rintro ⟨j, p, htask', hp⟩
      have hreturned : p = .returned := hquiet j _ htask'
      rw [hreturned] at hp
      rcases hp with hp | hp
      · cases hp
      · cases hc : c.side <;> rw [hc] at hp <;> cases hp
    by_contra hclosed
    rcases h.closed side.other (by simpa using hclosed) with hsingle | ⟨j, hj⟩
    · rw [hopen] at hsingle
      cases hsingle
    · cases (hquiet j _ hj : ReleasePhase.flag = .returned)

end Run

/-- In every run of a pipe in which no wake-up is lost, whenever nobody is inside
`pipe_read`, `pipe_write` or `pipe_release` except sleepers, readers sleep on an empty pipe
and writers on a full one, with the other end open. -/
theorem nobodyStranded_of_safe_run {cell : Nat → UInt8} {st : State}
    (hrun : Relation.ReflTransGen SafeStep (newPipe cell) st) (hquiet : Quiescent st) :
    NobodyStranded st :=
  ((sleepOk_newPipe cell).run hrun).nobodyStranded hquiet

/-- A number that the event is not about stays unused. -/
theorem task_eq_none_of_step {st st' : State} {e : Event} {j : Nat} (hne : j ≠ e.id)
    (hnone : st.task j = none) (h : step st e = some st') : st'.task j = none := by
  have hwake : ∀ side, (st.wakeUpAll side).task j = none := by
    intro side
    rcases wakeUpAll_task st side j with heq | ⟨c, htask, -⟩
    · exact heq.trans hnone
    · cases hnone.symm.trans htask
  cases step_cases h with
  | begin | close | park | enqueue | flagged | flag => exact (put_task_of_ne hne _).trans hnone
  | enter => exact (Function.update_of_ne hne _ _).trans hnone
  | flush | wakeRead | wakeWrite => exact (put_task_of_ne hne _).trans (hwake _)

/-- In a run of the calls 0 and 1, being quiescent is about these two. -/
theorem quiescent_of_run {st : State} {cell : Nat → UInt8} {es : List Event}
    (h : runEvents step (newPipe cell) es = some st) (hids : ∀ e ∈ es, e.id < 2)
    (hout : ∀ i < 2, (st.task i).all fun t => t.Outside) : Quiescent st := by
  intro i t htask
  by_cases hi : i < 2
  · have hall := hout i hi
    rw [htask] at hall
    exact of_decide_eq_true hall
  · have hnone : st.task i = none := by
      refine runEvents_induction (P := fun st => st.task i = none) h
        (fun st st' e he hst hstep => ?_) rfl
      exact task_eq_none_of_step (fun heq => hi (heq ▸ hids e he)) hst hstep
    cases hnone.symm.trans htask

/-- A reader goes to sleep on an empty pipe. -/
def readerSleeps : List Event :=
  [.begin 0 .read 1 (fun _ => 0), .run 0, .run 0, .run 0]

/-- Then a writer puts one byte in and returns. -/
def writerReturns : List Event := [.begin 1 .write 1 (fun _ => 65), .run 1]

/-- The writer returns without waking the reader, who sleeps on although the pipe is not
empty. -/
theorem reader_stranded : ∃ st, Reachable st ∧ Quiescent st ∧ waitOn st .read 0 = .asleep ∧
    ¬ st.pipe.ring.IsEmpty ∧ ¬ NobodyStranded st := by
  have hview : (runEvents step (newPipe fun _ => 0) (readerSleeps ++ writerReturns)).map (fun st =>
      (decide (∀ i < 2, (st.task i).all fun t => t.Outside), waitOn st .read 0,
        decide st.pipe.ring.IsEmpty)) = some (true, .asleep, false) := by
    decide +kernel
  obtain ⟨st, hrun, hst⟩ := map_eq_some_iff.mp hview
  simp only [Prod.mk.injEq, decide_eq_true_eq, decide_eq_false_iff_not] at hst
  obtain ⟨hout, hasleep, hnonempty⟩ := hst
  refine ⟨st, ⟨_, steps_of_runEvents hrun⟩, quiescent_of_run hrun (by decide) hout,
    hasleep, hnonempty, fun h => ?_⟩
  exact hnonempty (h .read 0 hasleep).1

theorem safe_of_call {st : State} {i : Nat} {c : Call} (htask : st.task i = some (.call c))
    (h : c.phase ≠ .enter ∨ Blocked c.side st.pipe.ring) : Safe st (.run i) := by
  refine ⟨fun c' htask' hphase hbytes => ?_, fun side htask' => ?_⟩
  · cases htask.symm.trans htask'
    rcases h with hne | hblocked
    · exact absurd hphase hne
    · rw [Call.move_of_blocked hblocked] at hbytes
      exact absurd rfl hbytes
  · cases htask.symm.trans htask'

/-- The run up to where the reader sleeps loses no wake-up. -/
theorem nobodyStranded_of_safe_run_sample : ∃ st,
    Relation.ReflTransGen SafeStep (newPipe fun _ => 0) st ∧ Quiescent st ∧
      waitOn st .read 0 = .asleep ∧ NobodyStranded st := by
  obtain ⟨st, hrun⟩ : ∃ st, runEvents step (newPipe fun _ => 0) readerSleeps = some st := ⟨_, rfl⟩
  have hview : (runEvents step (newPipe fun _ => 0) readerSleeps).map (fun st =>
      (decide (∀ i < 2, (st.task i).all fun t => t.Outside), waitOn st .read 0)) =
        some (true, .asleep) := by
    decide +kernel
  rw [hrun] at hview
  simp only [map_some, some_inj, Prod.mk.injEq, decide_eq_true_eq] at hview
  have hquiet := quiescent_of_run hrun (by decide) hview.1
  have hsteps : Relation.ReflTransGen SafeStep (newPipe fun _ => 0) st := by
    cases hrun
    refine .head ⟨.begin 0 .read 1 (fun _ => 0), trivial, rfl⟩ ?_
    refine .head ⟨.run 0, safe_of_call rfl (.inr rfl), rfl⟩ ?_
    refine .head ⟨.run 0, safe_of_call rfl (.inl (by decide)), rfl⟩ ?_
    exact .single ⟨.run 0, safe_of_call rfl (.inl (by decide)), rfl⟩
  exact ⟨st, hsteps, hquiet, hview.2, nobodyStranded_of_safe_run hsteps hquiet⟩

end Osx64.Pipes
