import Osx64.Console.Pty

/-!
# Sleeping on a pseudo terminal

Whenever the two locks of a pair are free, a slave should sleep in `pty_slave_read` only while
no completed line is there, and in `pty_slave_write` only while the buffer is full.

This holds as long as `pty_master_open` does not initialise the pair under a slave that waits:
it empties the buffers and forgets the sleepers, and nobody wakes them again.  The proof is by
an invariant with these parts:

* `queue`: the queues know their tasks;
* `holder`: calls that are inside a locked section hold the lock;
* `parked`: a slave on its way to sleep has found its buffer blocked;
* `blocked`: where a slave waits, its buffer is blocked, or a master is about to wake it.
-/

namespace Osx64.Pty

open Function WaitQueue Option

/-! ## The property -/

/-- What call `i` does with one of the queues. -/
def waitOn (st : State) (d : Dir) (i : Nat) : Wait := discipline.waitOn st.task d i

/-- There is no line to read, or no room to write. -/
def Blocked : Dir → Pair → Prop
  | .read, pair => pair.ldisc.completed.IsEmpty
  | .write, pair => pair.s2m.IsFull

instance : (d : Dir) → (pair : Pair) → Decidable (Blocked d pair)
  | .read, pair => inferInstanceAs (Decidable pair.ldisc.completed.IsEmpty)
  | .write, pair => inferInstanceAs (Decidable pair.s2m.IsFull)

/-- With both locks free, who sleeps has reason to. -/
def BlockingSound (st : State) : Prop :=
  st.pair.ldisc.lock = none → st.pair.lock = none →
    ∀ d i, waitOn st d i = .asleep → Blocked d st.pair

/-! ## Runs in which the pair is not initialised under a waiting slave -/

/-- `pty_master_open` initialises the pair only when nobody sleeps, is about to, or is inside
a locked section. -/
def Safe (st : State) : Event → Prop
  | .masterOpen => st.pair.masterRef = 0 → ∀ i t, st.task i = some t → t.activity = .outside
  | _ => True

def SafeStep (st st' : State) : Prop := ∃ e, Safe st e ∧ step st e = some st'

/-! ## The invariant -/

/-- The call holds the lock of this direction. -/
def Activity.Holds (d : Dir) (a : Activity) : Prop := a = .park d ∨ ∃ wakes, a = .holding d wakes

structure PtyOk (st : State) : Prop where
  queue : discipline.QueuesOk st.pair.wq st.task
  holder : ∀ i t d, st.task i = some t → t.activity.Holds d → st.pair.guard d = some i
  parked : ∀ i t d, st.task i = some t → t.activity = .park d → Blocked d st.pair
  blocked : ∀ d i, waitOn st d i ≠ .running →
    Blocked d st.pair ∨ ∃ j t, st.task j = some t ∧ t.activity = .holding d true

section Advance

variable {st st' : State} {i j : Nat} {d : Dir} {t t' : Task}

theorem waitOn_outside (htask : st.task i = some t) (h : t.activity = .outside) (d : Dir) :
    waitOn st d i = .running := by
  refine (Discipline.waitOn_eq htask).trans ?_
  show t.activity.wait d = .running
  rw [h]
  rfl

/-- A sleeper that is woken starts from outside. -/
theorem activity_wake_of_asleep (h : t.activity.wait d = .asleep) : t.wake.activity = .outside := by
  cases t with
  | masterWrite _ phase | masterRead _ _ phase => cases phase <;> cases h
  | slaveRead len out phase => rfl
  | slaveWrite rest count phase => rfl

/-- A task other than the one that steps is as it was, unless it is outside now. -/
theorem others_back (hothers : discipline.Others st.task i st'.task) (hj : j ≠ i)
    (htask : st'.task j = some t) (hne : t.activity ≠ .outside) : st.task j = some t := by
  rcases hothers j hj with heq | ⟨d, t₀, -, hasleep, heq⟩
  · exact heq ▸ htask
  · cases htask.symm.trans heq
    exact absurd (activity_wake_of_asleep hasleep) hne

theorem Activity.Holds.ne_outside {a : Activity} (h : a.Holds d) : a ≠ .outside := by
  rcases h with rfl | ⟨wakes, rfl⟩ <;> exact fun heq => by cases heq

/-- One task steps, from `t` to `t'`.  It changes no lock that another task holds; where a
buffer was blocked, it still is or the task is going to wake those who wait for it. -/
theorem PtyOk.advance (h : PtyOk st) (hqueue : discipline.QueuesOk st'.pair.wq st'.task)
    (hothers : discipline.Others st.task i st'.task) (hself : st'.task i = some t')
    (hguard : ∀ d j, j ≠ i → st.pair.guard d = some j → st'.pair.guard d = some j)
    (hholds : ∀ d, t'.activity.Holds d → st'.pair.guard d = some i)
    (hparked : ∀ d, t'.activity = .park d → Blocked d st'.pair)
    (hwaits : ∀ d, waitOn st' d i ≠ .running → waitOn st d i ≠ .running ∨ Blocked d st'.pair)
    (hblocked : ∀ d, Blocked d st.pair → Blocked d st'.pair ∨ t'.activity = .holding d true)
    (hwakes : ∀ t d, st.task i = some t → t.activity = .holding d true →
      t'.activity = .holding d true ∨ ∀ j, waitOn st' d j = .running) : PtyOk st' where
  queue := hqueue
  holder j u d htask hu := by
    by_cases hj : j = i
    · subst hj
      cases hself.symm.trans htask
      exact hholds d hu
    · exact hguard d j hj (h.holder j u d (others_back hothers hj htask hu.ne_outside) hu)
  parked j u d htask hu := by
    by_cases hj : j = i
    · subst hj
      cases hself.symm.trans htask
      exact hparked d hu
    · have hold := others_back hothers hj htask (Activity.Holds.ne_outside (.inl hu))
      -- the task that steps does not hold the lock, so it is not going to wake anybody
      refine (hblocked d (h.parked j u d hold hu)).resolve_right fun hwake => hj ?_
      have hlock := hguard d j hj (h.holder j u d hold (.inl hu))
      exact some_inj.mp (hlock.symm.trans (hholds d (.inr ⟨true, hwake⟩)))
  blocked d j hwait := by
    have hold : waitOn st d j ≠ .running ∨ Blocked d st'.pair := by
      by_cases hj : j = i
      · subst hj
        exact hwaits d hwait
      · exact .inl (hothers.waitOn hj hwait)
    rcases hold with hold | hnow
    · rcases h.blocked d j hold with hb | ⟨k, u, hk, hu⟩
      · rcases hblocked d hb with hb' | hwake
        · exact .inl hb'
        · exact .inr ⟨i, t', hself, hwake⟩
      · by_cases hki : k = i
        · subst hki
          rcases hwakes u d hk hu with hwake | hall
          · exact .inr ⟨k, t', hself, hwake⟩
          · exact absurd (hall j) hwait
        · refine .inr ⟨k, u, hothers.keep hki hk fun d' hasleep => ?_, hu⟩
          have hrunning : u.activity.wait d' = .running := by rw [hu]; rfl
          cases hrunning.symm.trans hasleep
    · exact .inl hnow

end Advance

/-! ## The buffers -/

variable {data out : List UInt8} {len : Nat} {alloc : Bool} {c : UInt8}

section Buffers

variable {s2m : Ring UInt8 ptyBufsize} {pair : Pair} {d d' : Dir}

theorem ldiscEcho_of_full (h : s2m.IsFull) (text : List UInt8) : ldiscEcho s2m text = s2m := by
  cases text with
  | nil => rfl
  | cons c rest => exact if_pos h

theorem fill_of_full (h : s2m.IsFull) (data : List UInt8) : fill s2m data = (s2m, data) := by
  cases data with
  | nil => rfl
  | cons c rest => exact if_pos h

theorem isFull_of_fill (h : (fill s2m data).2 ≠ []) :
    (fill s2m data).1.IsFull := by
  induction data generalizing s2m with
  | nil => exact absurd rfl h
  | cons c rest ih =>
    rw [fill] at h ⊢
    split
    · next hfull => exact hfull
    · next hfull =>
      rw [if_neg hfull] at h
      exact ih h

theorem drain_eq_self (h : (drain s2m len).2 = []) : (drain s2m len).1 = s2m := by
  cases len with
  | zero => rfl
  | succ len =>
    rw [drain] at h ⊢
    split
    · rfl
    · next hne =>
      rw [if_neg hne] at h
      cases h

theorem lock_input (ld : LineDiscipline) (alloc : Bool) (c : UInt8) :
    (ld.input alloc c).1.lock = ld.lock := by
  unfold LineDiscipline.input LineDiscipline.complete
  split_ifs <;> rfl

/-- Lines are queued by newlines only. -/
theorem completed_input {ld : LineDiscipline}
    (h : (decide (c = 10) && alloc) = false) : (ld.input alloc c).1.completed = ld.completed := by
  unfold LineDiscipline.input LineDiscipline.complete
  split_ifs with hnl hq <;> first | rfl | simp_all

theorem guard_setGuard_of_ne (h : d' ≠ d) (holder : Option Nat) :
    (pair.setGuard d holder).guard d' = pair.guard d' := by
  cases d <;> cases d' <;> first | rfl | exact absurd rfl h

@[simp] theorem wq_setGuard (holder : Option Nat) : (pair.setGuard d holder).wq = pair.wq := by
  cases d <;> rfl

@[simp] theorem blocked_setGuard (holder : Option Nat) :
    Blocked d' (pair.setGuard d holder) ↔ Blocked d' pair := by
  cases d <;> cases d' <;> rfl

@[simp] theorem guard_setWq (q : WaitQueue) : (pair.setWq d q).guard d' = pair.guard d' := by
  cases d' <;> rfl

@[simp] theorem blocked_setWq (q : WaitQueue) :
    Blocked d' (pair.setWq d q) ↔ Blocked d' pair := by
  cases d' <;> rfl

end Buffers

/-! ## The steps -/

section Steps

variable {st st' : State} {i : Nat} {d : Dir} {t t' : Task} {pair : Pair} {phase : Phase}

/-- A task that waits on no queue steps to one that does not either. -/
theorem PtyOk.put (h : PtyOk st)
    (hold : ∀ t, st.task i = some t → (∀ d, t.activity.wait d = .running) ∧
      ∀ d, t.activity = .holding d true → t'.activity = .holding d true)
    (hnew : ∀ d, t'.activity.wait d = .running) (hwq : pair.wq = st.pair.wq)
    (hguard : ∀ d j, j ≠ i → st.pair.guard d = some j → pair.guard d = some j)
    (hholds : ∀ d, t'.activity.Holds d → pair.guard d = some i)
    (hparked : ∀ d, t'.activity = .park d → Blocked d pair)
    (hblocked : ∀ d, Blocked d st.pair → Blocked d pair ∨ t'.activity = .holding d true) :
    PtyOk (st.put pair i t') := by
  have hself : (st.put pair i t').task i = some t' := update_self _ _ _
  have hrunning : ∀ d, waitOn st d i = .running := by
    intro d
    cases htask : st.task i with
    | none => exact Discipline.waitOn_of_none htask
    | some t => exact (Discipline.waitOn_eq htask).trans ((hold t htask).1 d)
  refine h.advance ?_ Discipline.others_put hself hguard hholds hparked (fun d hwait => ?_)
    hblocked fun t d ht hw => .inl ((hold t ht).2 d hw)
  · show discipline.QueuesOk pair.wq _
    rw [hwq]
    exact h.queue.put hrunning hnew
  · exact absurd ((Discipline.waitOn_eq hself).trans (hnew d)) hwait

theorem only_task {P : Task → Prop} (htask : st.task i = some t) (ht : P t) (u : Task)
    (hu : st.task i = some u) : P u := some_inj.mp (htask.symm.trans hu) ▸ ht

/-- Taking a free lock, or giving back its own, does not take a lock from another task. -/
theorem guard_setGuard_others (hmine : st.pair.guard d = none ∨ st.pair.guard d = some i)
    (holder : Option Nat) (d' : Dir) (j : Nat) (hj : j ≠ i) (hguard : st.pair.guard d' = some j) :
    (st.pair.setGuard d holder).guard d' = some j := by
  by_cases hd : d' = d
  · subst hd
    rcases hmine with hfree | hmine
    · cases hfree.symm.trans hguard
    · exact absurd (some_inj.mp (hguard.symm.trans hmine)) hj
  · rw [guard_setGuard_of_ne hd, hguard]

section

variable (h : PtyOk st)
include h

theorem PtyOk.begin (hnew : t.activity = .outside) (hrun : st.begin i t = some st') :
    PtyOk st' := by
  cases htask : st.task i with
  | some u =>
    rw [State.begin, htask] at hrun
    cases hrun
  | none =>
    rw [State.begin, htask] at hrun
    cases hrun
    exact h.put (fun u hu => by cases htask.symm.trans hu) (fun d => by rw [hnew]; rfl) rfl
      (fun d j _ hj => hj) (fun d hd => absurd hnew hd.ne_outside)
      (fun d hd => by cases hnew.symm.trans hd) fun d hd => .inl hd

/-- A call that holds the lock of a direction wakes the queue and gives the lock back. -/
theorem PtyOk.wakeUpAll (htask : st.task i = some t)
    (hact : t.activity = .holding d true) (hnew : t'.activity = .outside)
    (hfree : (st.pair.wq d).lock = none) : PtyOk (st.wakeUpAll d i t') := by
  have hself : (st.wakeUpAll d i t').task i = some t' := update_self _ _ _
  have hwait : ∀ d, t'.activity.wait d = .running := fun d => by rw [hnew]; rfl
  have hold : ∀ d', waitOn st d' i = .running := fun d' =>
    (Discipline.waitOn_eq htask).trans (show t.activity.wait d' = .running by rw [hact]; rfl)
  have hmine := h.holder i t d htask (.inr ⟨true, hact⟩)
  refine h.advance ?_ (h.queue.others_wake d) hself (fun d' j hj hg => ?_)
    (fun d' hd => absurd hnew hd.ne_outside) (fun d' hd => by cases hnew.symm.trans hd)
    (fun d' hw => absurd ((Discipline.waitOn_eq hself).trans (hwait d')) hw)
    (fun d' hb => .inl ?_) fun u d' hu hu' => .inr ?_
  · show discipline.QueuesOk (((st.pair.setWq d ⟨none, []⟩).setGuard d none).wq) _
    rw [wq_setGuard]
    exact h.queue.wake hfree hold hwait
  · show ((st.pair.setWq d ⟨none, []⟩).setGuard d none).guard d' = some j
    by_cases hd : d' = d
    · subst hd
      exact absurd (some_inj.mp (hg.symm.trans hmine)) hj
    · rw [guard_setGuard_of_ne hd, guard_setWq, hg]
  · show Blocked d' ((st.pair.setWq d ⟨none, []⟩).setGuard d none)
    simpa using hb
  · cases htask.symm.trans hu
    cases hact.symm.trans hu'
    exact h.queue.running_of_wake hfree (hwait d)

/-- One character is put in.  If it completes a line, the slave is going to be woken. -/
theorem PtyOk.inputChar {rest : List UInt8} {newLines : Bool}
    (htask : st.task i = some (.masterWrite data (.loop (c :: rest) newLines)))
    (hmine : st.pair.guard .read = some i)
    (hrun : st.runInput i data alloc (.loop (c :: rest) newLines) = some st') : PtyOk st' := by
  obtain ⟨hfree, heq⟩ := ite_none_right_eq_some.mp hrun
  cases heq
  have hlock := lock_input st.pair.ldisc alloc c
  refine h.put (only_task htask ⟨fun d => rfl, fun d hd => ?_⟩) (fun d => rfl) rfl
    (fun d j hj hg => ?_) ?_
    (fun d hd => by cases hd) fun d hb => ?_
  · cases hd
    rfl
  · cases d with
    | read => exact hlock.trans hg
    | write => exact hg
  · rintro d (hd | ⟨wakes, hd⟩)
    · cases hd
    · cases hd
      exact hlock.trans hmine
  · cases d with
    | read =>
      cases hnew : decide (c = 10) && alloc with
      | true =>
        right
        rw [Bool.or_true]
        rfl
      | false =>
        left
        show (st.pair.ldisc.input alloc c).1.completed.IsEmpty
        rw [completed_input hnew]
        exact hb
    | write =>
      left
      rw [ldiscEcho_of_full hb]
      exact hb

theorem PtyOk.runInput {phase : InputPhase} (htask : st.task i = some (.masterWrite data phase))
    (hrun : st.runInput i data alloc phase = some st') : PtyOk st' := by
  cases phase with
  | enter =>
    obtain ⟨hfree, heq⟩ := ite_none_right_eq_some.mp hrun
    cases heq
    refine h.put (only_task htask ⟨fun d => rfl, nofun⟩) (fun d => rfl) rfl
      (guard_setGuard_others (d := .read) (.inl hfree) _) ?_ nofun fun d hb =>
        .inl (by simpa using hb)
    rintro d (hd | ⟨wakes, hd⟩)
    · cases hd
    · cases hd
      rfl
  | loop rest newLines =>
    have hmine : st.pair.guard .read = some i := h.holder i _ .read htask (.inr ⟨newLines, rfl⟩)
    cases rest with
    | nil =>
      cases newLines with
      | true =>
        obtain ⟨hfree, heq⟩ := ite_none_right_eq_some.mp hrun
        cases heq
        exact h.wakeUpAll htask rfl rfl hfree
      | false =>
        cases hrun
        exact h.put (only_task htask ⟨fun d => rfl, nofun⟩) (fun d => rfl) rfl
          (guard_setGuard_others (.inr hmine) _) (fun d hd => absurd rfl hd.ne_outside) nofun
          fun d hb => .inl (by simpa using hb)
    | cons c rest => exact h.inputChar htask hmine hrun
  | returned => cases hrun

theorem PtyOk.runDrain {phase : DrainPhase} (htask : st.task i = some (.masterRead len out phase))
    (hrun : st.runDrain i len out phase = some st') : PtyOk st' := by
  cases phase with
  | enter =>
    obtain ⟨hfree, heq⟩ := ite_none_right_eq_some.mp hrun
    split at heq
    · next hnil =>
      cases heq
      refine h.put (only_task htask ⟨fun d => rfl, nofun⟩) (fun d => rfl) rfl
        (fun d j _ hg => by cases d <;> exact hg) (fun d hd => absurd rfl hd.ne_outside) nofun
        fun d hb => .inl ?_
      rw [drain_eq_self hnil]
      cases d <;> exact hb
    · next hsome =>
      cases heq
      refine h.put (only_task htask ⟨fun d => rfl, nofun⟩) (fun d => rfl) rfl
        (fun d j hj hg => ?_) ?_
        nofun fun d hb => ?_
      · cases d with
        | read => exact hg
        | write => cases hfree.symm.trans hg
      · rintro d (hd | ⟨wakes, hd⟩)
        · cases hd
        · cases hd
          rfl
      · cases d with
        | read => exact .inl hb
        | write => exact .inr rfl
  | wake =>
    obtain ⟨hfree, heq⟩ := ite_none_right_eq_some.mp hrun
    cases heq
    exact h.wakeUpAll htask rfl rfl hfree
  | returned => cases hrun

/-- Going to sleep, in either direction. -/
theorem PtyOk.runSleep {f : Phase → Task}
    (hf : ∀ p, (f p).activity = p.activity d) (htask : st.task i = some (f phase))
    (hrun : st.runSleep d i f phase = some st') : PtyOk st' := by
  cases phase with
  | enter => cases hrun
  | asleep => cases hrun
  | returned => cases hrun
  | park =>
    obtain ⟨hfree, heq⟩ := ite_none_right_eq_some.mp hrun
    cases heq
    have hact : (f .park).activity = .park d := hf .park
    have hnew : (f .enqueue).activity = .enqueue d := hf .enqueue
    have hmine := h.holder i _ d htask (.inl hact)
    have hold : ∀ d', waitOn st d' i = .running := fun d' =>
      (Discipline.waitOn_eq htask).trans
        (show (f .park).activity.wait d' = .running by rw [hact]; rfl)
    have hself : (st.put ((st.pair.setWq d { st.pair.wq d with lock := some i }).setGuard d none)
        i (f .enqueue)).task i = some (f .enqueue) := update_self _ _ _
    have hbl : ∀ d' : Dir, Blocked d' st.pair → Blocked d'
        ((st.pair.setWq d { st.pair.wq d with lock := some i }).setGuard d none) :=
      fun d' hb => by simpa using hb
    refine h.advance ?_ Discipline.others_put hself (fun d' j hj hg => ?_) ?_ ?_ ?_
      (fun d' hb => .inl (hbl d' hb)) ?_
    · show discipline.QueuesOk (((st.pair.setWq d _).setGuard d none).wq) _
      rw [wq_setGuard]
      refine h.queue.enter hfree hold ?_
      show (f .enqueue).activity.wait d = .entering
      rw [hnew]
      exact if_pos rfl
    · show ((st.pair.setWq d _).setGuard d none).guard d' = some j
      by_cases hd : d' = d
      · subst hd
        exact absurd (some_inj.mp (hg.symm.trans hmine)) hj
      · rw [guard_setGuard_of_ne hd, guard_setWq, hg]
    · rintro d' (hd | ⟨wakes, hd⟩) <;> cases hnew.symm.trans hd
    · intro d' hd
      cases hnew.symm.trans hd
    · intro d' hwait
      have hne : (f .enqueue).activity.wait d' ≠ .running :=
        fun heq => hwait ((Discipline.waitOn_eq hself).trans heq)
      rw [hnew] at hne
      rcases Activity.wait_ne_running hne with hd | hd <;> cases hd
      exact .inr (hbl d (h.parked i _ d htask hact))
    · intro u d' hu hd
      cases htask.symm.trans hu
      cases hact.symm.trans hd
  | enqueue =>
    cases hrun
    have hact : (f .enqueue).activity = .enqueue d := hf .enqueue
    have hnew : (f .asleep).activity = .asleep d := hf .asleep
    have hself : (st.put (st.pair.setWq d ⟨none, (st.pair.wq d).list ++ [i]⟩) i
        (f .asleep)).task i = some (f .asleep) := update_self _ _ _
    have hentering : (f .enqueue).activity.wait d = .entering := by
      rw [hact]
      exact if_pos rfl
    refine h.advance ?_ Discipline.others_put hself (fun d' j _ hg => ?_) ?_ ?_ ?_ ?_ ?_
    · refine h.queue.sleep htask hentering ?_
      show (f .asleep).activity.wait d = .asleep
      rw [hnew]
      exact if_pos rfl
    · exact (guard_setWq _).trans hg
    · rintro d' (hd | ⟨wakes, hd⟩) <;> cases hnew.symm.trans hd
    · intro d' hd
      cases hnew.symm.trans hd
    · intro d' hwait
      have hne : (f .asleep).activity.wait d' ≠ .running :=
        fun heq => hwait ((Discipline.waitOn_eq hself).trans heq)
      rw [hnew] at hne
      rcases Activity.wait_ne_running hne with hd | hd <;> cases hd
      refine .inl fun hrunning => ?_
      cases (((Discipline.waitOn_eq htask).trans hentering).symm.trans hrunning)
    · exact fun d' hb => .inl ((blocked_setWq _).mpr hb)
    · intro u d' hu hd
      cases htask.symm.trans hu
      cases hact.symm.trans hd

theorem PtyOk.runRead (htask : st.task i = some (.slaveRead len out phase))
    (hrun : st.runRead i len out phase = some st') : PtyOk st' := by
  cases phase with
  | park | enqueue => exact h.runSleep (fun _ => rfl) htask hrun
  | asleep => cases hrun
  | returned => cases hrun
  | enter =>
    obtain ⟨hfree, heq⟩ := ite_none_right_eq_some.mp hrun
    split at heq
    · next hempty =>
      cases heq
      refine h.put (only_task htask ⟨fun d => rfl, nofun⟩) (fun d => rfl) rfl
        (guard_setGuard_others (d := .read) (.inl hfree) _) ?_ ?_ fun d hb =>
          .inl (by simpa using hb)
      · rintro d (hd | ⟨wakes, hd⟩)
        · cases hd
          rfl
        · cases hd
      · intro d hd
        cases hd
        exact hempty
    · next hline =>
      cases heq
      refine h.put (only_task htask ⟨fun d => rfl, nofun⟩) (fun d => rfl) rfl
        (fun d j _ hg => by cases d <;> exact hg) (fun d hd => absurd rfl hd.ne_outside) nofun
        fun d hb => ?_
      cases d with
      | read => exact absurd hb hline
      | write => exact .inl hb

theorem PtyOk.runWrite {count : Nat} (htask : st.task i = some (.slaveWrite data count phase))
    (hrun : st.runWrite i data count phase = some st') : PtyOk st' := by
  cases phase with
  | park | enqueue => exact h.runSleep (fun _ => rfl) htask hrun
  | asleep => cases hrun
  | returned => cases hrun
  | enter =>
    obtain ⟨hfree, heq⟩ := ite_none_right_eq_some.mp hrun
    -- a full buffer stays as it is
    have hfull : st.pair.s2m.IsFull → (fill st.pair.s2m data).1.IsFull := by
      intro hb
      rw [fill_of_full hb]
      exact hb
    split at heq
    · cases heq
      refine h.put (only_task htask ⟨fun d => rfl, nofun⟩) (fun d => rfl) rfl
        (fun d j _ hg => by cases d <;> exact hg) (fun d hd => absurd rfl hd.ne_outside) nofun
        fun d hb => .inl ?_
      cases d with
      | read => exact hb
      | write => exact hfull hb
    · next hrest =>
      cases heq
      refine h.put (only_task htask ⟨fun d => rfl, nofun⟩) (fun d => rfl) rfl
        (fun d j hj hg => ?_) ?_ ?_
        fun d hb => .inl ?_
      · cases d with
        | read => exact hg
        | write => cases hfree.symm.trans hg
      · rintro d (hd | ⟨wakes, hd⟩)
        · cases hd
          rfl
        · cases hd
      · intro d hd
        cases hd
        exact isFull_of_fill hrest
      · cases d with
        | read => exact hb
        | write => exact hfull hb

/-- A change of the pair that leaves the locks, the queues and the buffers alone. -/
theorem PtyOk.setPair (hwq : pair.wq = st.pair.wq) (hguard : ∀ d, pair.guard d = st.pair.guard d)
    (hblocked : ∀ d, Blocked d pair ↔ Blocked d st.pair) : PtyOk { st with pair := pair } where
  queue := by
    rw [hwq]
    exact h.queue
  holder i t d htask ht := (hguard d).trans (h.holder i t d htask ht)
  parked i t d htask ht := (hblocked d).mpr (h.parked i t d htask ht)
  blocked d i hwait := (h.blocked d i hwait).imp_left (hblocked d).mpr

end

/-- Initialising the pair is harmless while everybody is outside. -/
theorem ptyOk_of_outside (hwq : st.pair.wq = fun _ => .init)
    (houtside : ∀ i t, st.task i = some t → t.activity = .outside) : PtyOk st where
  queue d := by
    rw [hwq]
    refine queueOk_init fun i => ?_
    cases htask : st.task i with
    | none => exact Discipline.waitOn_of_none htask
    | some t => exact waitOn_outside htask (houtside i t htask) d
  holder i t d htask ht := absurd (houtside i t htask) ht.ne_outside
  parked i t d htask ht := by cases (houtside i t htask).symm.trans ht
  blocked d i hwait := by
    obtain ⟨t, htask, -⟩ := Discipline.exists_of_waitOn hwait
    exact absurd (waitOn_outside htask (houtside i t htask) d) hwait

theorem PtyOk.locked (h : PtyOk st) {f : Pair → Pair} (hrun : st.locked f = some st')
    (hwq : (f st.pair).wq = st.pair.wq) (hguard : ∀ d, (f st.pair).guard d = st.pair.guard d)
    (hblocked : ∀ d, Blocked d (f st.pair) ↔ Blocked d st.pair) : PtyOk st' := by
  obtain ⟨-, heq⟩ := ite_none_right_eq_some.mp hrun
  cases heq
  exact h.setPair hwq hguard hblocked

theorem PtyOk.masterOpen (h : PtyOk st) (hsafe : Safe st .masterOpen)
    (hrun : st.locked Pair.masterOpen = some st') : PtyOk st' := by
  by_cases href : st.pair.masterRef = 0
  · obtain ⟨-, heq⟩ := ite_none_right_eq_some.mp hrun
    cases heq
    refine ptyOk_of_outside ?_ (hsafe href)
    rw [Pair.masterOpen, if_pos href]
  · have hsame : st.pair.masterOpen = { st.pair with masterRef := st.pair.masterRef + 1 } :=
      if_neg href
    exact h.locked hrun (by rw [hsame]) (fun d => by rw [hsame]; cases d <;> rfl)
      fun d => by rw [hsame]; cases d <;> rfl

theorem PtyOk.slaveOpen (h : PtyOk st) (hrun : st.locked Pair.slaveOpen = some st') :
    PtyOk st' := by
  have hsame : ∃ ref, st.pair.slaveOpen = { st.pair with slaveRef := ref } := by
    unfold Pair.slaveOpen
    split
    · exact ⟨st.pair.slaveRef, rfl⟩
    · exact ⟨_, rfl⟩
  obtain ⟨ref, hsame⟩ := hsame
  exact h.locked hrun (by rw [hsame]) (fun d => by rw [hsame]; cases d <;> rfl)
    fun d => by rw [hsame]; cases d <;> rfl

theorem PtyOk.step (h : PtyOk st) (hstep : SafeStep st st') : PtyOk st' := by
  obtain ⟨e, hsafe, hrun⟩ := hstep
  cases e with
  | masterOpen => exact h.masterOpen hsafe hrun
  | slaveOpen => exact h.slaveOpen hrun
  | masterRelease | slaveRelease =>
    exact h.locked hrun rfl (fun d => by cases d <;> rfl) fun d => by cases d <;> rfl
  | masterWrite | masterRead | slaveRead | slaveWrite => exact h.begin rfl hrun
  | run i alloc =>
    cases htask : st.task i with
    | none => simp [Pty.step, htask] at hrun
    | some t =>
      simp only [Pty.step, htask] at hrun
      cases t with
      | masterWrite data phase => exact h.runInput htask hrun
      | masterRead len out phase => exact h.runDrain htask hrun
      | slaveRead len out phase => exact h.runRead htask hrun
      | slaveWrite rest count phase => exact h.runWrite htask hrun

end Steps

/-! ## Runs -/

theorem ptyOk_initial : PtyOk initial := ptyOk_of_outside rfl fun _ _ htask => by cases htask

theorem PtyOk.run {st st' : State} (h : PtyOk st) (hrun : Relation.ReflTransGen SafeStep st st') :
    PtyOk st' := by
  induction hrun with
  | refl => exact h
  | tail _ hstep ih => exact ih.step hstep

/-- With the locks free nobody is about to wake anybody. -/
theorem PtyOk.blockingSound {st : State} (h : PtyOk st) : BlockingSound st := by
  intro hld hpair d i hasleep
  refine (h.blocked d i (by rw [hasleep]; decide)).resolve_right ?_
  rintro ⟨j, t, htask, hwake⟩
  have hlock := h.holder j t d htask (.inr ⟨true, hwake⟩)
  cases d with
  | read => cases hld.symm.trans hlock
  | write => cases hpair.symm.trans hlock

/-- In every run in which `pty_master_open` does not initialise the pair under a slave that
waits, a slave sleeps in `pty_slave_read` only while there is no line, and in `pty_slave_write`
only while the buffer is full. -/
theorem blockingSound_of_safe_run {st : State}
    (hrun : Relation.ReflTransGen SafeStep initial st) : BlockingSound st :=
  (ptyOk_initial.run hrun).blockingSound

/-- A slave goes to sleep because there is no line. -/
def slaveSleeps : List Event :=
  [.masterOpen, .slaveOpen, .slaveRead 0 8, .run 0 true, .run 0 true, .run 0 true]

/-- Then the master is closed and opened again, and puts in an empty line. -/
def masterReopens : List Event :=
  [.masterRelease, .masterOpen, .masterWrite 1 [10], .run 1 true, .run 1 true, .run 1 true]

/-- The slave is no longer on the queue that is woken, and sleeps on although a line is
there. -/
theorem slave_stranded : ∃ st, Relation.ReflTransGen Step initial st ∧
    st.pair.ldisc.lock = none ∧ st.pair.lock = none ∧ waitOn st .read 0 = .asleep ∧
    ¬ st.pair.ldisc.completed.IsEmpty ∧ ¬ BlockingSound st := by
  have hview : (runEvents step initial (slaveSleeps ++ masterReopens)).map (fun st =>
      (st.pair.ldisc.lock, st.pair.lock, waitOn st .read 0,
        decide st.pair.ldisc.completed.IsEmpty)) = some (none, none, .asleep, false) := by
    decide +kernel
  obtain ⟨st, hrun, hst⟩ := map_eq_some_iff.mp hview
  simp only [Prod.mk.injEq, decide_eq_false_iff_not] at hst
  obtain ⟨hld, hpair, hasleep, hline⟩ := hst
  exact ⟨st, steps_of_runEvents hrun, hld, hpair, hasleep, hline,
    fun h => hline (h hld hpair .read 0 hasleep)⟩

/-- Up to where the slave sleeps the pair has been initialised once, with nobody there. -/
theorem blockingSound_of_safe_run_sample : ∃ st, Relation.ReflTransGen SafeStep initial st ∧
    waitOn st .read 0 = .asleep ∧ BlockingSound st := by
  obtain ⟨st, hrun⟩ : ∃ st, runEvents step initial slaveSleeps = some st := ⟨_, rfl⟩
  have hview : (runEvents step initial slaveSleeps).map (fun st => waitOn st .read 0) =
      some .asleep := by
    decide +kernel
  rw [hrun, map_some, some_inj] at hview
  have hsteps : Relation.ReflTransGen SafeStep initial st := by
    have hopen : Safe initial .masterOpen := by
      intro _ i t htask
      cases htask
    cases hrun
    refine .head ⟨.masterOpen, hopen, rfl⟩ ?_
    refine .head ⟨.slaveOpen, trivial, rfl⟩ ?_
    refine .head ⟨.slaveRead 0 8, trivial, rfl⟩ ?_
    refine .head ⟨.run 0 true, trivial, rfl⟩ ?_
    refine .head ⟨.run 0 true, trivial, rfl⟩ ?_
    exact .single ⟨.run 0 true, trivial, rfl⟩
  exact ⟨st, hsteps, hview, blockingSound_of_safe_run hsteps⟩

end Osx64.Pty
