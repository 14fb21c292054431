import Mathlib.Logic.Relation

/-!
# Runs of a transition function

A system whose steps are a partial function of the state and an event runs through a list of
events one after the other.
-/

namespace Osx64

open Option

variable {σ ε : Type*} {es : List ε} {st st' : σ}

/-- The state after the events, if every one of them is possible. -/
def runEvents (step : σ → ε → Option σ) : σ → List ε → Option σ
  | st, [] => some st
  | st, e :: rest => (step st e).bind fun st => runEvents step st rest

/-- A run is made of steps. -/
theorem steps_of_runEvents {step : σ → ε → Option σ} (h : runEvents step st es = some st') :
    Relation.ReflTransGen (fun st st' => ∃ e, step st e = some st') st st' := by
  induction es generalizing st with
  | nil =>
    cases h
    exact .refl
  | cons e rest ih =>
    obtain ⟨st₁, hstep, hrest⟩ := bind_eq_some_iff.mp h
    exact .head ⟨e, hstep⟩ (ih hrest)

/-- Steps that are possible under a guard. -/
def guarded (guard : σ → ε → Prop) [∀ st e, Decidable (guard st e)] (exec : σ → ε → σ) (st : σ)
    (e : ε) : Option σ :=
  if guard st e then some (exec st e) else none

theorem steps_of_guarded {guard : σ → ε → Prop} [∀ st e, Decidable (guard st e)] {exec : σ → ε → σ}
    (h : runEvents (guarded guard exec) st es = some st') :
    Relation.ReflTransGen (fun st st' => ∃ e, guard st e ∧ exec st e = st') st st' := by
  refine Relation.ReflTransGen.mono (fun st st' hstep => ?_) _ _ (steps_of_runEvents h)
  obtain ⟨e, he⟩ := hstep
  obtain ⟨hguard, hexec⟩ := ite_none_right_eq_some.mp he
  exact ⟨e, hguard, some_inj.mp hexec⟩

/-- Some events lead to a state with the property. -/
theorem exists_of_guarded {guard : σ → ε → Prop} [∀ st e, Decidable (guard st e)] {exec : σ → ε → σ}
    {P : σ → Prop} [DecidablePred P] (es : List ε)
    (h : (runEvents (guarded guard exec) st es).any (fun st => decide (P st)) = true) :
    ∃ st', Relation.ReflTransGen (fun st st' => ∃ e, guard st e ∧ exec st e = st') st st' ∧
      P st' := by
  obtain ⟨st', hrun, hview⟩ := (any_eq_true _ _).mp h
  exact ⟨st', steps_of_guarded hrun, of_decide_eq_true hview⟩

/-- A property that every step with one of the events keeps. -/
theorem runEvents_induction {step : σ → ε → Option σ} {P : σ → Prop}
    (h : runEvents step st es = some st')
    (hstep : ∀ st st', ∀ e ∈ es, P st → step st e = some st' → P st') (hinit : P st) : P st' := by
  induction es generalizing st with
  | nil =>
    cases h
    exact hinit
  | cons e rest ih =>
    obtain ⟨st₁, hfirst, hrest⟩ := bind_eq_some_iff.mp h
    exact ih hrest (fun s s' e' he' => hstep s s' e' (List.mem_cons_of_mem _ he'))
      (hstep st st₁ e List.mem_cons_self hinit hfirst)

end Osx64
