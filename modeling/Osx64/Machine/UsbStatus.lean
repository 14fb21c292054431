import Mathlib.Logic.Function.Iterate
import Mathlib.Logic.Relation
import Osx64.Lib.Bytes

/-!
# The status of a USB bulk request

The host controller works on the descriptors of a request in their order and stops at one that
fails.  The kernel threads of both drivers look at one descriptor only: `ehci_kernel_thread` at the
last one of the current phase, `uhci_kernel_thread` at the one for the CSW.  If an earlier one
fails, the last one stays active and the request is never completed; and no thread reads the CSW.
-/

namespace Osx64.Usb

open Relation Function Nat

inductive Driver where
  | ehci
  | uhci

/-- The error bits of a descriptor.  For EHCI a bit stuffing error is a transaction error. -/
inductive ErrorBit where
  | halted
  | dataBuffer
  | babble
  | transaction
  | bitStuff

/-- The bits that the thread tests. -/
def Driver.tests : Driver → ErrorBit → Bool
  | .uhci, .bitStuff => false
  | _, _ => true

/-- A bulk request with `packets` descriptors for its data. -/
structure Request where
  driver : Driver
  packets : Nat
  tag : Nat

/-- How many descriptors there are to the end of a phase.  For UHCI all are in one chain. -/
def Request.bound (r : Request) : Nat → Nat
  | 0 => if r.driver matches .ehci then 1 else r.packets + 2
  | 1 => r.packets + 1
  | _ => r.packets + 2

def Request.lastPhase (r : Request) : Nat := if r.driver matches .ehci then 2 else 0

/-- The descriptor that fails, if one does, and the CSW of the device. -/
structure World (r : Request) where
  fails : Option (Fin (r.packets + 2) × ErrorBit)
  csw : Buf

/-- The signature, the tag of the request and the status 0. -/
def World.CswOk {r : Request} (w : World r) : Prop :=
  w.csw.get32 0 = 0x53425355 ∧ w.csw.get32 4 = r.tag ∧ w.csw 12 = 0

/-- The first `good` descriptors have finished without error, and the next one with `error`. -/
structure State where
  phase : Nat
  good : Nat
  error : Option ErrorBit
  status : Option Int

/-- What the last descriptor of the phase looks like. -/
inductive Last where
  | active
  | failed
  | finished

def sees (r : Request) (st : State) : Last :=
  if st.good + (if st.error.isSome then 1 else 0) < r.bound st.phase then .active
  else if st.error.any r.driver.tests then .failed else .finished

/-- A pass of the thread that sees `last`. -/
def judge (r : Request) (st : State) : Last → State
  | .active => st
  | .failed => { st with status := some (-1) }
  | .finished =>
    if st.phase < r.lastPhase then { st with phase := st.phase + 1 }
    else { st with status := some 0 }

def pass (r : Request) (st : State) : State :=
  if st.status = none then judge r st (sees r st) else st

/-- The data phase of EHCI has no descriptor.  Its `last` is NULL, where `mem_linear2phy_get` has
put a fresh page when the phase was started. -/
def Empty (r : Request) (st : State) : Prop := r.driver = .ehci ∧ st.phase = 1 ∧ r.packets = 0

inductive Step (r : Request) (w : World r) : State → State → Prop where
  | execute {st : State} (hstatus : st.status = none) (herror : st.error = none)
      (hgood : st.good < r.bound st.phase) (hok : ∀ f ∈ w.fails, f.1.val ≠ st.good) :
      Step r w st { st with good := st.good + 1 }
  | fail {st : State} {f : Fin (r.packets + 2) × ErrorBit} (hstatus : st.status = none)
      (herror : st.error = none) (hgood : st.good < r.bound st.phase) (hf : f ∈ w.fails)
      (hat : f.1.val = st.good) : Step r w st { st with error := some f.2 }
  | pass {st : State} (hempty : ¬Empty r st) : Step r w st (pass r st)
  -- whatever the fresh page holds
  | stray {st : State} (last : Last) (hstatus : st.status = none) (hempty : Empty r st) :
      Step r w st (judge r st last)

def Reach (r : Request) (w : World r) : State → Prop := ReflTransGen (Step r w) ⟨0, 0, none, none⟩

/-- The status 0 is only given to a request that the device has done, and after a failure a later
pass gives -1. -/
def Truthful (r : Request) (w : World r) : Prop :=
  (∀ st, Reach r w st → st.status = some 0 → st.good = r.packets + 2 ∧ w.CswOk) ∧
    ∀ st, Reach r w st → st.status = none → st.error ≠ none →
      ∃ k, ((pass r)^[k] st).status = some (-1)

/-- The thread will see the failure of this descriptor. -/
def Seen (r : Request) (f : Fin (r.packets + 2) × ErrorBit) : Prop :=
  match r.driver with
  | .ehci => f.1.val = 0 ∨ r.packets ≤ f.1.val
  | .uhci => f.1.val = r.packets + 1 ∧ f.2 ≠ .bitStuff

/-! ## Runs -/

section Runs

variable {r : Request} {w : World r} {st st' : State}

/-- Nothing fails before the descriptor `n`. -/
def Clean (w : World r) (n : Nat) : Prop := ∀ f ∈ w.fails, n ≤ f.1.val

structure Inv (r : Request) (w : World r) (st : State) : Prop where
  phase : st.phase ≤ r.lastPhase
  good : st.good ≤ r.bound st.phase
  started : st.phase = 0 ∨ r.bound (st.phase - 1) ≤ st.good
  clean : Clean w st.good
  error : ∀ e ∈ st.error, st.good < r.bound st.phase ∧ ∃ f ∈ w.fails, f.1.val = st.good ∧ f.2 = e
  done : st.status = some 0 → st.phase = r.lastPhase ∧ sees r st = .finished

theorem bound_lastPhase (r : Request) : r.bound r.lastPhase = r.packets + 2 := by
  obtain ⟨_ | _, _, _⟩ := r <;> rfl

theorem bound_le_succ {p : Nat} (hp : p < r.lastPhase) : r.bound p ≤ r.bound (p + 1) := by
  obtain ⟨_ | _, n, tag⟩ := r
  · match p, hp with
    | 0, _ => exact le_add_left 1 n
    | 1, _ => exact le_succ (n + 1)
  · cases hp

theorem sees_of_none (h : st.error = none) :
    sees r st = if st.good < r.bound st.phase then .active else .finished := by
  rw [sees, h]
  rfl

theorem sees_of_some {e : ErrorBit} (h : st.error = some e) : sees r st =
    if st.good + 1 < r.bound st.phase then .active
    else if r.driver.tests e then .failed else .finished := by
  rw [sees, h]
  rfl

theorem of_sees_finished (hsees : sees r st = .finished) :
    st.error = none ∧ r.bound st.phase ≤ st.good ∨ ∃ e, st.error = some e ∧
    r.driver.tests e = false := by
  rcases herror : st.error with _ | e
  · rw [sees_of_none herror] at hsees
    exact .inl ⟨rfl, Nat.le_of_not_lt fun hlt => by rw [if_pos hlt] at hsees; cases hsees⟩
  · refine .inr ⟨e, rfl, Bool.eq_false_iff.mpr fun htests => ?_⟩
    rw [sees_of_some herror, htests] at hsees
    split at hsees <;> cases hsees

theorem uhci_of_tests {e : ErrorBit} (h : r.driver.tests e = false) : r.driver = .uhci ∧
    e = .bitStuff := by
  obtain ⟨_ | _, n, tag⟩ := r
  · cases e <;> cases h
  · cases e <;> first | exact ⟨rfl, rfl⟩ | cases h

/-- Only EHCI has more than one phase, and it tests all errors. -/
theorem error_eq_none_of_sees (hphase : st.phase < r.lastPhase) (hsees : sees r st = .finished) :
    st.error = none ∧ r.bound st.phase ≤ st.good := by
  rcases of_sees_finished hsees with h | ⟨e, -, htests⟩
  · exact h
  · rw [Request.lastPhase, (uhci_of_tests htests).1] at hphase
    cases hphase

theorem Inv.judge (h : Inv r w st) {last : Last}
    (hlast : last = .finished → sees r st = .finished) :
    Inv r w (judge r st last) := by
  cases last with
  | active => exact h
  | failed => exact { h with done := nofun }
  | finished =>
    have hsees := hlast rfl
    rw [Usb.judge]
    split
    · next hphase =>
      obtain ⟨herror, hgood⟩ := error_eq_none_of_sees hphase hsees
      refine ⟨hphase, Nat.le_trans h.good (bound_le_succ hphase), .inr hgood, h.clean,
        fun e he => ?_, fun hs => absurd (h.done hs).1 (Nat.ne_of_lt hphase)⟩
      rw [herror] at he
      cases he
    · next hphase =>
      have hphase : st.phase = r.lastPhase := by have := h.phase; omega
      exact { h with done := fun _ => ⟨hphase, hsees⟩ }

theorem Inv.sees_of_empty (h : Inv r w st) (hempty : Empty r st) : sees r st = .finished := by
  obtain ⟨hdriver, hphase, hn⟩ := hempty
  have hbefore : r.bound (1 - 1) = 1 := by simp [Request.bound, hdriver]
  have hbound : r.bound 1 = 1 := congrArg (· + 1) hn
  have hstarted := h.started
  have hgood := h.good
  have herror := h.error
  rw [hphase] at hstarted hgood herror
  have hnone : st.error = none := by
    refine Option.eq_none_iff_forall_not_mem.mpr fun e he => ?_
    have := (herror e he).1
    omega
  rw [sees_of_none hnone, hphase]
  exact if_neg (by omega)

theorem Inv.step (h : Inv r w st) (hstep : Step r w st st') : Inv r w st' := by
  cases hstep with
  | execute hstatus herror hgood hok =>
    refine ⟨h.phase, hgood, h.started.imp_right le_succ_of_le, fun f hf => ?_, fun e he => ?_,
      fun hs => ?_⟩
    · exact Nat.lt_of_le_of_ne (h.clean f hf) (hok f hf).symm
    · rw [herror] at he
      cases he
    · rw [hstatus] at hs
      cases hs
  | @fail f hstatus herror hgood hf hat =>
    refine { h with error := fun e he => ?_, done := fun hs => ?_ }
    · cases he
      exact ⟨hgood, f, hf, hat, rfl⟩
    · rw [hstatus] at hs
      cases hs
  | pass hempty =>
    rw [Usb.pass]
    split
    · exact h.judge id
    · exact h
  | stray last hstatus hempty =>
    exact h.judge fun _ => h.sees_of_empty hempty

theorem Reach.inv (h : Reach r w st) : Inv r w st := by
  induction h with
  | refl => exact ⟨zero_le _, zero_le _, .inl rfl, fun _ _ => zero_le _, nofun, nofun⟩
  | tail _ hstep ih => exact ih.step hstep

theorem Clean.mono {m n : Nat} (h : Clean w n) (hmn : m ≤ n) : Clean w m :=
  fun f hf => Nat.le_trans hmn (h f hf)

theorem Reach.execute {p g g' : Nat} (h : Reach r w ⟨p, g, none, none⟩) (hle : g ≤ g')
    (hg : g' ≤ r.bound p) (hclean : Clean w g') : Reach r w ⟨p, g', none, none⟩ := by
  induction hle with
  | refl => exact h
  | step _ ih =>
    refine (ih (le_of_succ_le hg) (hclean.mono (le_succ _))).tail ?_
    exact .execute rfl rfl hg fun f hf => (ne_of_lt (hclean f hf)).symm

/-- As long as nothing fails, all descriptors can be reached. -/
theorem reach_clean {p g : Nat} (hp : p ≤ r.lastPhase) (hstarted : p = 0 ∨ r.bound (p - 1) ≤ g)
    (hg : g ≤ r.bound p) (hclean : Clean w g) : Reach r w ⟨p, g, none, none⟩ := by
  induction p generalizing g with
  | zero => exact Reach.execute .refl (zero_le g) hg hclean
  | succ p ih =>
    have hle : r.bound p ≤ g := hstarted.resolve_left (succ_ne_zero p)
    have hbefore : p = 0 ∨ r.bound (p - 1) ≤ r.bound p := by
      rcases Nat.eq_zero_or_pos p with h0 | hpos
      · exact .inl h0
      · obtain ⟨q, rfl⟩ := Nat.exists_eq_add_of_lt hpos
        rw [Nat.zero_add]
        exact .inr (bound_le_succ (by omega))
    have hend := ih (le_of_succ_le hp) hbefore (Nat.le_refl _) (hclean.mono hle)
    have hjudge : judge r ⟨p, r.bound p, none, none⟩ .finished = ⟨p + 1, r.bound p, none, none⟩ :=
      if_pos hp
    refine Reach.execute (hend.tail ?_) hle hg hclean
    rw [← hjudge]
    by_cases hempty : Empty r ⟨p, r.bound p, none, none⟩
    · exact .stray .finished rfl hempty
    · have hpass : pass r ⟨p, r.bound p, none, none⟩ =
          judge r ⟨p, r.bound p, none, none⟩ .finished := by
        rw [pass, if_pos rfl, sees_of_none rfl, if_neg (Nat.lt_irrefl _)]
      rw [← hpass]
      exact .pass hempty

end Runs

/-! ## When the status is truthful -/

section Truth

variable {r : Request} {w : World r} {st : State} {f : Fin (r.packets + 2) × ErrorBit}

/-- A failure that leads to -1 is seen. -/
theorem seen_of_iterate {e : ErrorBit} {k : Nat} (hstatus : st.status = none)
    (herror : st.error = some e) (hk : ((pass r)^[k] st).status = some (-1)) :
    r.bound st.phase ≤ st.good + 1 ∧ r.driver.tests e = true := by
  have hpass : pass r st = judge r st (sees r st) := if_pos hstatus
  rw [sees_of_some herror] at hpass
  by_cases hactive : st.good + 1 < r.bound st.phase
  · rw [if_pos hactive] at hpass
    rw [iterate_fixed hpass, hstatus] at hk
    cases hk
  · refine ⟨Nat.le_of_not_lt hactive, ?_⟩
    by_contra htests
    -- an error that is not tested ends in the status 0
    have hlast : r.lastPhase = 0 := by
      rw [Request.lastPhase, (uhci_of_tests (Bool.eq_false_iff.mpr htests)).1]
      rfl
    rw [if_neg hactive, if_neg htests, judge, if_neg (by omega)] at hpass
    cases k with
    | zero =>
      rw [iterate_zero, id, hstatus] at hk
      cases hk
    | succ k =>
      rw [iterate_succ_apply, hpass, iterate_fixed rfl] at hk
      cases hk

theorem cswOk_of_truthful (h : Truthful r w) (hnone : w.fails = none) : w.CswOk := by
  have hclean : Clean w (r.packets + 2) := fun f hf => by rw [hnone] at hf; cases hf
  have hstarted : r.lastPhase = 0 ∨ r.bound (r.lastPhase - 1) ≤ r.packets + 2 := by
    obtain ⟨_ | _, n, tag⟩ := r
    · exact .inr (le_succ (n + 1))
    · exact .inl rfl
  have hreach := reach_clean (Nat.le_refl _) hstarted (Nat.le_of_eq (bound_lastPhase r).symm) hclean
  have hpass : pass r ⟨r.lastPhase, r.packets + 2, none, none⟩ =
      ⟨r.lastPhase, r.packets + 2, none, some 0⟩ := by
    rw [pass, if_pos rfl, sees_of_none rfl,
      if_neg (by rw [bound_lastPhase]; exact Nat.lt_irrefl _), judge, if_neg (Nat.lt_irrefl _)]
  refine (h.1 _ (hpass ▸ hreach.tail (.pass ?_)) rfl).2
  rintro ⟨hdriver, hphase, -⟩
  simp [Request.lastPhase, hdriver] at hphase

/-- The thread sees a failure in the phase `p`. -/
theorem seen_at_of_truthful (h : Truthful r w) (hf : w.fails = some f)
    {p : Nat} (hp : p ≤ r.lastPhase) (hstarted : p = 0 ∨ r.bound (p - 1) ≤ f.1.val)
    (hlt : f.1.val < r.bound p) : r.bound p ≤ f.1.val + 1 ∧ r.driver.tests f.2 = true := by
  have hclean : Clean w f.1.val := fun f' hf' => by
    rw [hf] at hf'
    cases hf'
    exact Nat.le_refl _
  have hreach := (reach_clean hp hstarted (Nat.le_of_lt hlt) hclean).tail (.fail rfl rfl hlt hf rfl)
  obtain ⟨k, hk⟩ := h.2 _ hreach rfl nofun
  exact seen_of_iterate rfl rfl hk

theorem seen_of_truthful (h : Truthful r w) (hf : w.fails = some f) :
    Seen r f := by
  have hat := fun {p} => @seen_at_of_truthful r w f h hf p
  have hi := f.1.isLt
  obtain ⟨_ | _, n, tag⟩ := r
  · by_contra hseen
    simp only [Seen, not_or, Nat.not_le] at hseen
    have hlast : n + 1 ≤ f.1.val + 1 :=
      (@hat 1 (le_succ 1) (.inr (Nat.pos_of_ne_zero hseen.1)) (lt_succ_of_lt hseen.2)).1
    omega
  · obtain ⟨hlast, htests⟩ := @hat 0 (zero_le _) (.inl rfl) hi
    refine ⟨Nat.le_antisymm (le_of_lt_succ hi) (le_of_succ_le_succ hlast), fun hbit => ?_⟩
    rw [hbit] at htests
    cases htests

/-- The descriptor of a failure that is seen is the last one of its phase. -/
theorem Inv.last_of_seen (h : Inv r w st) (hat : f.1.val = st.good)
    (hseen : Seen r f) : r.bound st.phase ≤ st.good + 1 ∧ r.driver.tests f.2 = true := by
  have hphase := h.phase
  have hstarted := h.started
  generalize st.phase = p at hphase hstarted
  rw [← hat] at hstarted ⊢
  constructor
  · obtain ⟨_ | _, n, tag⟩ := r
    · match p, hphase with
      | 0, _ => exact le_add_left 1 _
      | 1, _ =>
        have hpos := hstarted.resolve_left Nat.one_ne_zero
        exact succ_le_succ (hseen.resolve_left (Nat.ne_of_gt hpos))
      | 2, _ => exact succ_le_succ (hstarted.resolve_left (succ_ne_zero 1))
    · obtain rfl : p = 0 := le_zero.mp hphase
      exact Nat.le_of_eq (congrArg (· + 1) hseen.1.symm)
  · by_contra htests
    obtain ⟨hdriver, hbit⟩ := uhci_of_tests (Bool.eq_false_iff.mpr htests)
    rw [Seen, hdriver] at hseen
    exact hseen.2 hbit

/-- The status of a request is truthful if and only if the thread sees the descriptor that fails, or
none fails and the CSW happens to be the right one. -/
theorem truthful_iff (r : Request) (w : World r) :
    Truthful r w ↔ w.fails.elim w.CswOk (Seen r) := by
  constructor
  · intro h
    rcases hf : w.fails with _ | f
    · exact cswOk_of_truthful h hf
    · exact seen_of_truthful h hf
  · intro h
    refine ⟨fun st hst hstatus => ?_, fun st hst hstatus herror => ?_⟩
    · have hinv := hst.inv
      obtain ⟨hphase, hsees⟩ := hinv.done hstatus
      rcases of_sees_finished hsees with ⟨-, hgood⟩ | ⟨e, he, htests⟩
      · have hle := hinv.good
        rw [hphase, bound_lastPhase] at hgood hle
        refine ⟨Nat.le_antisymm hle hgood, ?_⟩
        rcases hf : w.fails with _ | f
        · rwa [hf] at h
        · exact absurd (hinv.clean f hf) (Nat.not_le.mpr (Nat.lt_of_lt_of_le f.1.isLt hgood))
      · obtain ⟨-, f, hf, hat, rfl⟩ := hinv.error e he
        rw [hf] at h
        rw [(hinv.last_of_seen hat h).2] at htests
        cases htests
    · obtain ⟨e, he⟩ := Option.ne_none_iff_exists'.mp herror
      obtain ⟨-, f, hf, hat, rfl⟩ := hst.inv.error e he
      rw [hf] at h
      obtain ⟨hlast, htests⟩ := hst.inv.last_of_seen hat h
      refine ⟨1, ?_⟩
      rw [iterate_one, pass, if_pos hstatus, sees_of_some he, if_neg (Nat.not_lt.mpr hlast),
        if_pos htests]
      rfl

/-- The device has refused to read a sector and says so. -/
theorem not_truthful_of_refused : ¬Truthful ⟨.ehci, 1, 1⟩
    ⟨none, fun i => [0x55, 0x53, 0x42, 0x53, 1, 0, 0, 0, 0, 2, 0, 0, 1].getD i 0⟩ := by
  intro h
  cases (cswOk_of_truthful h rfl).2.2

end Truth

end Osx64.Usb
