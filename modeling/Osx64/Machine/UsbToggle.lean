import Osx64.Machine.UsbStatus

/-!
# The toggle bits of USB bulk requests

A device expects the toggle bits of the packets on each endpoint to alternate.  Both drivers start
every request with the same bits: 0 for the CBW, and 1 for the first packet of the data.  The CSW
gets the bit after that of the data with EHCI, also when the data went over the other endpoint, and
1 with UHCI.
-/

namespace Osx64.Usb

open List

/-- `toggle` after `n` rounds of the loop over the data. -/
def flips : Nat → Bool → Bool
  | 0, toggle => toggle
  | n + 1, toggle => flips n (!toggle)

/-- The toggle bits of `n` packets in the loop. -/
def toggles : Nat → Bool → List Bool
  | 0, _ => []
  | n + 1, toggle => toggle :: toggles n (!toggle)

/-- A request that writes or reads data of `packets` packets. -/
structure Transfer where
  write : Bool
  packets : Nat

def cswToggle (packets : Nat) : Driver → Bool
  | .ehci => flips packets true
  | .uhci => true

/-- The packets of a request as (input, toggle), in order. -/
def chain (driver : Driver) (req : Transfer) : List (Bool × Bool) :=
  (false, false) :: (toggles req.packets true).map (fun toggle => (!req.write, toggle)) ++
    [(true, cswToggle req.packets driver)]

/-- The toggle bits on the input or the output endpoint. -/
def on (driver : Driver) (input : Bool) (reqs : List Transfer) : List Bool :=
  ((reqs.flatMap (chain driver)).filter fun p => p.1 = input).map Prod.snd

/-- The toggle bits start with `toggle` and alternate. -/
def Alternates : Bool → List Bool → Prop
  | _, [] => True
  | toggle, t :: ts => t = toggle ∧ Alternates (!toggle) ts

/-- On both endpoints the toggle bits are 0, 1, 0, 1, and so on. -/
def TogglesAlternate (driver : Driver) (reqs : List Transfer) : Prop :=
  ∀ input, Alternates false (on driver input reqs)

/-- A request that writes an odd number of packets. -/
def Transfer.OddWrite (req : Transfer) : Prop := req.write = true ∧ req.packets % 2 = 1

section Toggles

variable {driver : Driver} {req : Transfer} {reqs : List Transfer} {n : Nat} {t t' out inp : Bool}
  {xs ys : List Bool}

theorem alternates_append :
    Alternates t (xs ++ ys) ↔ Alternates t xs ∧ Alternates (flips xs.length t) ys := by
  induction xs generalizing t with
  | nil => simp [Alternates, flips]
  | cons x xs ih => rw [cons_append, Alternates, Alternates, ih, length_cons, flips, and_assoc]

theorem length_toggles : (toggles n t).length = n := by
  induction n generalizing t with
  | zero => rfl
  | succ n ih => rw [toggles, length_cons, ih]

theorem alternates_toggles : Alternates t (toggles n t') ↔ n = 0 ∨ t' = t := by
  induction n generalizing t t' with
  | zero => simp [toggles, Alternates]
  | succ n ih =>
    rw [toggles, Alternates, ih]
    cases t <;> cases t' <;> simp

theorem flips_eq : flips n t = if n % 2 = 0 then t else !t := by
  induction n generalizing t with
  | zero => rfl
  | succ n ih =>
    rw [flips, ih, Bool.not_not]
    rcases Nat.mod_two_eq_zero_or_one n with h | h
    · rw [if_pos h, if_neg (by omega)]
    · rw [if_neg (by omega), if_pos (by omega)]

/-- The bits that a request adds: on the output endpoint those of the CBW and of the data of a
write, on the input endpoint those of the data of a read and of the CSW. -/
theorem on_cons : on driver false (req :: reqs) =
      toggles (if req.write then req.packets + 1 else 1) false ++ on driver false reqs ∧
    on driver true (req :: reqs) =
      toggles (if req.write then 0 else req.packets) true ++ [cswToggle req.packets driver] ++
        on driver true reqs := by
  obtain ⟨_ | _, n⟩ := req <;> simp [on, chain, filter_map, Function.comp_def, toggles]

/-- `out` and `inp` are due on the output and the input endpoint. -/
def AlternateFrom (driver : Driver) (out inp : Bool) (reqs : List Transfer) : Prop :=
  Alternates out (on driver false reqs) ∧ Alternates inp (on driver true reqs)

/-- Each request starts with 0 on the output endpoint, and goes on rightly. -/
theorem alternateFrom_cons : AlternateFrom driver out inp (req :: reqs) ↔ out = false ∧
    Alternates inp (toggles (if req.write then 0 else req.packets)
      true ++ [cswToggle req.packets driver]) ∧
    AlternateFrom driver (flips (if req.write then req.packets + 1 else 1) out)
      (flips ((if req.write then 0 else req.packets) + 1) inp) reqs := by
  rw [AlternateFrom, on_cons.1, on_cons.2, alternates_append, alternates_append, alternates_toggles,
    length_append, length_toggles, length_toggles, AlternateFrom, and_and_and_comm, and_assoc,
    @eq_comm _ false, or_iff_right (by split <;> nofun)]
  rfl

theorem alternateFrom_true : AlternateFrom driver true inp reqs ↔ reqs = [] := by
  cases reqs with
  | nil => exact iff_of_true ⟨trivial, trivial⟩ rfl
  | cons req reqs => simp [alternateFrom_cons]

/-- With EHCI only a write of an odd number of packets starts with 0 on the input endpoint, and only
after such a write 0 is due on the output endpoint. -/
theorem alternateFrom_ehci : AlternateFrom .ehci false inp (req :: reqs) ↔
    req.OddWrite ∧ inp = false ∧ AlternateFrom .ehci false true reqs ∨
      ¬req.OddWrite ∧ inp = true ∧ reqs = [] := by
  rw [alternateFrom_cons, Transfer.OddWrite]
  obtain ⟨_ | _, n⟩ := req
  · -- the data and the status of a read alternate from 1 on
    have hbits : Alternates inp (toggles n true ++ [flips n true]) ↔ inp = true := by
      rw [alternates_append, alternates_toggles, length_toggles, Alternates, Alternates, and_true]
      cases inp with
      | true => simp
      | false => cases n <;> simp [flips]
    simp [cswToggle, hbits, flips, alternateFrom_true]
  · have hbits : Alternates inp ([] ++ [flips n true]) ↔ inp = flips n true := by
      rw [nil_append, Alternates, Alternates, and_true, eq_comm]
    simp only [cswToggle, toggles, hbits, flips, if_true, true_and, Bool.not_false]
    rw [flips_eq]
    rcases Nat.mod_two_eq_zero_or_one n with h | h
    · simp [h, alternateFrom_true]
    · cases inp <;> simp [h]

/-- The toggle bits alternate exactly if there is no request; or, with EHCI, if the first request
writes an odd number of packets, and at most one follows, a read or a write of an even number. -/
theorem togglesAlternate_iff (driver : Driver) (reqs : List Transfer) :
    TogglesAlternate driver reqs ↔
    reqs = [] ∨ driver = .ehci ∧ ∃ req, req.OddWrite ∧
      (reqs = [req] ∨ ∃ req', reqs = [req, req'] ∧ ¬req'.OddWrite) := by
  have hfrom : TogglesAlternate driver reqs ↔ AlternateFrom driver false false reqs :=
    Bool.forall_bool
  rw [hfrom]
  cases reqs with
  | nil => exact iff_of_true ⟨trivial, trivial⟩ (.inl rfl)
  | cons req reqs =>
    cases driver with
    | uhci =>
      -- the first packet on the input endpoint has toggle 1, be it data or status
      have hbits : ∀ n, ¬Alternates false (toggles n true ++ [true]) := by
        intro n h
        cases n <;> cases h.1
      simp [alternateFrom_cons, cswToggle, hbits]
    | ehci =>
      rw [alternateFrom_ehci]
      cases reqs with
      | nil => simp [AlternateFrom, on, Alternates]
      | cons req' reqs => simp [alternateFrom_ehci, and_comm]

/-- A single read of a sector starts with 1 on the input endpoint, with either driver. -/
theorem not_togglesAlternate_of_read :
    ¬TogglesAlternate .ehci [⟨false, 1⟩] ∧ ¬TogglesAlternate .uhci [⟨false, 1⟩] := by
  constructor
  · intro h
    cases (h true).1
  · intro h
    cases (h true).1

end Toggles

end Osx64.Usb
