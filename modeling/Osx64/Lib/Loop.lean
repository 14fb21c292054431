import Mathlib.Logic.Basic

/-!
# Loops that may not end

A loop is a function that says what one turn does: go on in another state, end with a result, or
fail.  `Loop.Ends` says that it ends.  A set of states that every turn stays in is a trap.
-/

namespace Osx64

/-- A fallible computation succeeds if its first part does and what follows it. -/
theorem bind_eq_ok {ε α β : Type} {x : Except ε α} {g : α → Except ε β} {r : β} :
    (x >>= g) = .ok r ↔ ∃ a, x = .ok a ∧ g a = .ok r := by
  rcases x with e | a
  · simp [bind, Except.bind]
  · simp [bind, Except.bind]

theorem eq_ok_of_toOption {ε α : Type} {x : Except ε α} {a : α} (h : x.toOption = some a) :
    x = .ok a := by
  cases x with
  | error halt => cases h
  | ok b =>
    cases h
    rfl

/-- What one turn of a loop comes to. -/
inductive Turn (ε σ α : Type*)
  | next (s : σ)
  | done (a : α)
  | fail (e : ε)

namespace Loop

variable {ε σ α : Type*}

/-- The loop ends, without a failure, with the result `a`. -/
inductive Ends (step : σ → Turn ε σ α) : σ → α → Prop
  | done {s a} : step s = .done a → Ends step s a
  | next {s t a} : step s = .next t → Ends step t a → Ends step s a

variable {step : σ → Turn ε σ α} {s : σ} {a : α}

/-- A loop does not get out of a set of states that every turn stays in. -/
theorem not_ends_of_trap {P : σ → Prop}
    (htrap : ∀ s, P s → ∃ t, step s = .next t ∧ P t) (hs : P s) :
    ¬Ends step s a := by
  intro hends
  induction hends with
  | done hstep =>
    obtain ⟨t, hnext, -⟩ := htrap _ hs
    rw [hnext] at hstep
    cases hstep
  | next hstep _ ih =>
    obtain ⟨t, hnext, ht⟩ := htrap _ hs
    rw [hnext] at hstep
    cases hstep
    exact ih ht

end Loop

end Osx64
