import Mathlib.Logic.Function.Basic
import Osx64.Lib.Run
import Osx64.Machine.AhciSend

/-!
# The requests of an AHCI port

`ahci_submit` (`machine/ahci.c`) appends a request to the queue of the device and sleeps;
`ahci_kernel_thread` goes over the 32 slots twice, first to wake up the requests whose bit in
`port->ci` is clear, then to give the free slots to requests of the queue.

The thread drops the result of `ahci_send`.  If the port stays busy, the slot is taken but its bit
is never set, and the next pass reports the request as done; and nobody asks whether a command has
ended with an error.  The command tables lie side by side with eight entries each, but `ahci_send`
clears these and another one for every eight sectors after the first: from nine sectors on, it also
clears in the table of the next slot, whoever has that slot.  Apart from these cases a request that
is reported as done was done, although `port->ci |= 1 << slot` may issue a command again that has
ended between the read and the write.
-/

namespace Osx64.Ahci

open Function List Relation

/-- Where `ahci_kernel_thread` stands.  In `issue s ci` it has read `ci` from the port and goes on
to write it with the bit of slot `s`. -/
inductive Pc where
  | outside
  | check (s : Nat)
  | start (s : Nat)
  | issue (s : Nat) (ci : Nat → Bool)

/-- A device and its port.  The requests are numbered in the order of the calls of `ahci_submit`. -/
structure Device where
  pc : Pc
  /-- `req_queue` -/
  queue : List Nat
  /-- `req->count` -/
  count : Nat → Nat
  active : Nat → Option Nat
  /-- `req->slot` -/
  slot : Nat → Option Nat
  /-- The request with whose fields the command table of a slot was filled, and that nobody has
  cleared. -/
  table : Nat → Option Nat
  ci : Nat → Bool
  next : Nat
  finished : List Nat
  /-- What `ahci_submit` has returned. -/
  result : Nat → Option Int
  /-- The requests whose bit in `ci` has been set. -/
  issued : List Nat
  /-- The commands that have ended, and whether with an error. -/
  ended : List (Nat × Bool)

def Device.init : Device where
  pc := .outside
  queue := []
  count := fun _ => 0
  active := fun _ => none
  slot := fun _ => none
  table := fun _ => none
  ci := fun _ => false
  next := 0
  finished := []
  result := fun _ => none
  issued := []
  ended := []

/-- One slot in the first loop. -/
def Device.check (d : Device) (s : Nat) : Device :=
  match d.active s with
  | none => d
  | some r =>
    if d.ci s then d
    else { d with active := update d.active s none, finished := r :: d.finished }

/-- `sizeof(hba_cmd_tbl_t) + (prdtl - 1) * sizeof(hba_prdt_entry_t)`, what is cleared of the
table -/
def clearedBytes (count : Nat) : Nat := 256 + (prdtl count - 1) * 16

/-- The `memset` of the table of slot `s` reaches that of slot `t`.  A page holds 16 tables of 256
bytes. -/
def Reaches (count s t : Nat) : Prop := s < t ∧ t / 16 = s / 16 ∧ (t - s) * 256 < clearedBytes count
deriving Decidable

/-- One free slot in the second loop: `ahci_send` clears and fills the table, and either reads `ci`
or gives up because of the port. -/
def Device.start (d : Device) (s r : Nat) (queue : List Nat) (timeout : Bool) : Device :=
  { d with
    pc := if timeout then .start (s + 1) else .issue s d.ci
    queue := queue
    active := update d.active s (some r)
    slot := update d.slot r (some s)
    table := update (fun t => if Reaches (d.count r) s t then none else d.table t) s (some r) }

/-- The rest of `ahci_send`.  Only the ones that are written count for the port. -/
def Device.issue (d : Device) (s : Nat) (ci : Nat → Bool) : Device :=
  { d with
    pc := .start (s + 1)
    ci := fun t => d.ci t || (ci t || t == s)
    issued := (d.table s).toList ++ d.issued }

/-- `ahci_kernel_thread` as far as to its next access to the port.  It holds the lock of the device
except in `outside`. -/
def Device.thread (d : Device) (timeout : Bool) : Device :=
  match d.pc with
  | .outside => { d with pc := .check 0 }
  | .check s =>
    if s < 32 then { d.check s with pc := .check (s + 1) } else { d with pc := .start 0 }
  | .start s =>
    if s < 32 then
      if (d.active s).isSome then { d with pc := .start (s + 1) }
      else match d.queue with
        | [] => { d with pc := .outside }
        | r :: queue => d.start s r queue timeout
    else { d with pc := .outside }
  | .issue s ci => d.issue s ci

/-- What can happen: a call of `ahci_submit`, which may find no memory; the next step of the thread,
which may find that the port stays busy; the port ends a command; a caller wakes up. -/
inductive Event where
  | submit (memory : Bool) (count : Nat)
  | thread (timeout : Bool)
  | execute (s : Nat) (error : Bool)
  | wake (r : Nat)

def step (d : Device) : Event → Device
  | .submit false _ => { d with result := update d.result d.next (some (-1)), next := d.next + 1 }
  | .submit true count =>
    if d.pc matches .outside then
      { d with
        queue := d.queue ++ [d.next]
        count := update d.count d.next count
        next := d.next + 1 }
    else d
  | .thread timeout => d.thread timeout
  | .execute s error =>
    if d.ci s then
      { d with ci := update d.ci s false, ended := (d.table s).toList.map (·, error) ++ d.ended }
    else d
  -- `req->status` is 0 from the `memset` on
  | .wake r => if r ∈ d.finished then { d with result := update d.result r (some 0) } else d

/-- A request that is reported as done was done, and a slot and its table belong to one request
until that is finished. -/
structure Sound (d : Device) : Prop where
  done : ∀ r, d.result r = some 0 → r ∈ d.issued ∧ (r, false) ∈ d.ended ∧ (r, true) ∉ d.ended
  slot : ∀ s r r', d.slot r = some s → r ∉ d.finished → d.slot r' = some s →
    r' ∉ d.finished → r = r'
  table : ∀ s r, d.slot r = some s → r ∉ d.finished → d.table s = some r

/-- If the thread is about to call `ahci_send`, that stays in the page of the table, and the other
slots whose tables it clears are free. -/
def Device.Spares (d : Device) : Prop :=
  match d.pc, d.queue with
  | .start s, r :: _ => d.active s = none → s % 16 * 256 + clearedBytes (d.count r) ≤ 4096 ∧
      ∀ t < 32, Reaches (d.count r) s t → d.active t = none
  | _, _ => True

/-- The port is ready in time, commands end without an error, and no table in use is cleared. -/
def Device.Smooth (d : Device) : Event → Prop
  | .thread timeout => timeout = false ∧ d.Spares
  | .execute _ error => error = false
  | _ => True

section Runs

variable {d : Device} {s r : Nat} {queue : List Nat} {ci : Nat → Bool}

/-- The request was issued, and its command has ended or its bit is set. -/
def Device.Sent (d : Device) (s r : Nat) : Prop :=
  r ∈ d.issued ∧ (d.ci s = true ∨ (r, false) ∈ d.ended)

structure Inv (d : Device) : Prop where
  slot : ∀ r s, d.slot r = some s → r ∉ d.finished → d.active s = some r
  table : ∀ s r, d.active s = some r → d.table s = some r
  sent : ∀ s r, d.active s = some r → (∀ ci, d.pc ≠ .issue s ci) → d.Sent s r
  finished : ∀ r ∈ d.finished, r ∈ d.issued ∧ (r, false) ∈ d.ended
  result : ∀ r, d.result r = some 0 → r ∈ d.finished
  ended : ∀ x ∈ d.ended, x.2 = false

theorem of_update {α : Type} {f : Nat → α} {i j : Nat} {x y : α} (h : update f i x j = y) :
    j = i ∧ x = y ∨ j ≠ i ∧ f j = y := by
  rw [update_apply] at h
  split at h
  · next hj => exact .inl ⟨hj, h⟩
  · next hj => exact .inr ⟨hj, h⟩

/-- The thread is not in the middle of `port->ci |= 1 << slot`. -/
def Device.Settled (d : Device) : Prop := ∀ s ci, d.pc ≠ .issue s ci

theorem Inv.setPc (h : Inv d) (hpc : d.Settled) (pc : Pc) : Inv { d with pc := pc } :=
  { h with sent := fun s r hactive _ => h.sent s r hactive (hpc s) }

theorem Device.check_pc (d : Device) : (d.check s).pc = d.pc := by
  unfold Device.check
  split
  · rfl
  · split <;> rfl

section

variable (h : Inv d)
include h

theorem Inv.check (hpc : d.Settled) : Inv (d.check s) := by
  unfold Device.check
  split
  · exact h
  next r hactive =>
  split
  · exact h
  next hci =>
  obtain ⟨hissued, hset | hended⟩ := h.sent s r hactive (hpc s)
  · exact absurd hset hci
  -- the other slots keep their requests
  have hback : ∀ t r', update d.active s none t = some r' → d.active t = some r' := by
    intro t r' ht
    rcases of_update ht with ⟨-, hnone⟩ | ⟨-, ht⟩
    · cases hnone
    · exact ht
  refine ⟨fun r' t hslot hnot => ?_, fun t r' ht => h.table t r' (hback t r' ht),
    fun t r' ht => h.sent t r' (hback t r' ht), fun r' hr' => ?_,
    fun r' hr' => .tail _ (h.result r' hr'), h.ended⟩
  · have hat := h.slot r' t hslot fun hr' => hnot (.tail _ hr')
    refine (update_of_ne ?_ _ _).trans hat
    intro hts
    rw [hts, hactive] at hat
    cases hat
    exact hnot (.head _)
  · rcases mem_cons.mp hr' with rfl | hr'
    · exact ⟨hissued, hended⟩
    · exact h.finished r' hr'

theorem Inv.start (hpc : d.Settled) (hfree : d.active s = none) (hs : s < 32)
    (hspares : ∀ t < 32, Reaches (d.count r) s t → d.active t = none) :
    Inv (d.start s r queue false) := by
  refine ⟨fun r' t hslot hnot => ?_, fun t r' ht => ?_, fun t r' ht hne => ?_, h.finished, h.result,
    h.ended⟩
  · rcases of_update hslot with ⟨rfl, hts⟩ | ⟨-, hslot⟩
    · cases hts
      exact update_self ..
    · have hat := h.slot r' t hslot hnot
      refine (update_of_ne ?_ _ _).trans hat
      intro hts
      rw [hts, hfree] at hat
      cases hat
  · rcases of_update ht with ⟨rfl, hr⟩ | ⟨hts, ht⟩
    · cases hr
      simp [Device.start]
    · have hkept : ¬Reaches (d.count r) s t := by
        intro hreach
        have hpage := hreach.2.1
        cases ht.symm.trans (hspares t (by omega) hreach)
      simpa only [Device.start, update_of_ne hts, if_neg hkept] using h.table t r' ht
  · rcases of_update ht with ⟨rfl, -⟩ | ⟨-, ht⟩
    · exact absurd rfl (hne d.ci)
    · exact h.sent t r' ht (hpc t)

theorem Inv.issue (hpc : d.pc = .issue s ci) : Inv (d.issue s ci) := by
  refine ⟨h.slot, h.table, fun t r ht _ => ?_, fun r hr => ?_, h.result, h.ended⟩
  · by_cases hts : t = s
    · have htable := h.table t r ht
      rw [hts] at htable ⊢
      exact ⟨by simp [Device.issue, htable], .inl (by simp [Device.issue])⟩
    · obtain ⟨hissued, hsent⟩ := h.sent t r ht fun ci' heq => by
        cases hpc.symm.trans heq
        exact hts rfl
      refine ⟨mem_append_right _ hissued, hsent.imp_left fun hset => ?_⟩
      simp [Device.issue, hset]
  · exact ⟨mem_append_right _ (h.finished r hr).1, (h.finished r hr).2⟩

theorem Inv.thread (hspares : d.Spares) : Inv (d.thread false) := by
  unfold Device.thread
  split
  next hpc => exact h.setPc (by rw [Device.Settled, hpc]; nofun) _
  next s hpc =>
    have hs : d.Settled := by rw [Device.Settled, hpc]; nofun
    split
    · refine (h.check hs).setPc ?_ _
      rw [Device.Settled, Device.check_pc]
      exact hs
    · exact h.setPc hs _
  next s hpc =>
    have hs : d.Settled := by rw [Device.Settled, hpc]; nofun
    split
    next hlt =>
      split
      · exact h.setPc hs _
      next hactive =>
        have hfree := Option.not_isSome_iff_eq_none.mp hactive
        split
        · exact h.setPc hs _
        next r queue hqueue =>
          unfold Device.Spares at hspares
          rw [hpc, hqueue] at hspares
          exact h.start hs hfree hlt (hspares hfree).2
    · exact h.setPc hs _
  next s ci hpc => exact h.issue hpc

/-- What the port executes is the command of the request that has the slot. -/
theorem Inv.execute (s : Nat) : Inv (step d (.execute s false)) := by
  rw [step]
  split
  case isFalse => exact h
  refine ⟨h.slot, h.table, fun t r ht hne => ?_, fun r hr => ?_, h.result, fun x hx => ?_⟩
  · obtain ⟨hissued, hsent⟩ := h.sent t r ht hne
    refine ⟨hissued, ?_⟩
    by_cases hts : t = s
    · rw [hts] at ht
      exact .inr (by simp [h.table s r ht])
    · refine hsent.imp (fun hset => ?_) (mem_append_right _)
      exact (update_of_ne hts _ _).trans hset
  · exact (h.finished r hr).imp_right (mem_append_right _)
  · rcases mem_append.mp hx with hx | hx
    · obtain ⟨r, -, rfl⟩ := mem_map.mp hx
      rfl
    · exact h.ended x hx

theorem Inv.step (e : Event) (he : d.Smooth e) : Inv (step d e) := by
  cases e with
  | submit memory count =>
    cases memory with
    | false =>
      refine { h with result := fun r hr => ?_ }
      rcases of_update hr with ⟨-, hr⟩ | ⟨-, hr⟩
      · cases hr
      · exact h.result r hr
    | true =>
      rw [Ahci.step]
      split
      · exact { h with }
      · exact h
  | thread timeout =>
    obtain ⟨rfl, hspares⟩ := he
    exact h.thread hspares
  | execute s error =>
    obtain rfl : error = false := he
    exact h.execute s
  | wake r =>
    rw [Ahci.step]
    split
    next hr =>
      refine { h with result := fun r' hr' => ?_ }
      rcases of_update hr' with ⟨rfl, -⟩ | ⟨-, hr'⟩
      · exact hr
      · exact h.result r' hr'
    · exact h

end

theorem inv_init : Inv .init := by
  constructor <;> simp [Device.init]

theorem Inv.sound (h : Inv d) : Sound d := by
  refine ⟨fun r hr => ?_, fun s r r' hs hr hs' hr' => ?_, fun s r hs hr =>
    h.table s r (h.slot r s hs hr)⟩
  · obtain ⟨hissued, hended⟩ := h.finished r (h.result r hr)
    exact ⟨hissued, hended, fun hmem => nomatch h.ended _ hmem⟩
  · exact Option.some.inj ((h.slot r s hs hr).symm.trans (h.slot r' s hs' hr'))

end Runs

/-- If the port is always ready in time, no command ends with an error and no table in use is
cleared, then `ahci_submit` returns 0 only for a request whose command was issued and has ended. -/
theorem sound_run (hrun : ReflTransGen (fun d d' => ∃ e, d.Smooth e ∧ step d e = d') .init d) :
    Sound d := by
  suffices h : Inv d from h.sound
  induction hrun with
  | refl => exact inv_init
  | tail _ hstep ih =>
    obtain ⟨e, he, rfl⟩ := hstep
    exact ih.step e he

instance (d : Device) : Decidable d.Spares := by
  unfold Device.Spares
  split <;> infer_instance

instance (d : Device) : (e : Event) → Decidable (d.Smooth e)
  | .submit .. | .wake _ => isTrue trivial
  | .thread timeout => inferInstanceAs (Decidable (timeout = false ∧ d.Spares))
  | .execute _ error => inferInstanceAs (Decidable (error = false))

/-- A request of nine sectors and one of a single sector, which has to come first to keep its table;
up to the pass of the thread in which they are reported as done. -/
def twoRequests : List Event :=
  [.submit true 1, .submit true 9] ++ replicate 39 (.thread false) ++
    [.execute 0 false, .execute 1 false] ++ replicate 3 (.thread false) ++ [.wake 0, .wake 1]

theorem sound_run_twoRequests :
    ∃ d : Device, (d.result 0 = some 0 ∧ d.result 1 = some 0) ∧ Sound d := by
  obtain ⟨d, hsteps, hresult⟩ :
    ∃ d, ReflTransGen (fun d d' => ∃ e, d.Smooth e ∧ step d e = d') .init d ∧
      d.result 0 = some 0 ∧ d.result 1 = some 0 :=
    exists_of_guarded twoRequests (by decide +kernel)
  exact ⟨d, hresult, sound_run hsteps⟩

/-- One request; the port is busy when it gets its slot. -/
def busyPort : List Event :=
  .submit true 1 :: replicate 34 (.thread false) ++
    .thread true :: replicate 4 (.thread false) ++ [.wake 0]

theorem not_sound_of_timeout : ¬ Sound (busyPort.foldl step .init) := by
  intro h
  have hnot : 0 ∉ (busyPort.foldl step .init).issued := by decide +kernel
  exact hnot (h.done 0 (by decide +kernel)).1

end Osx64.Ahci
