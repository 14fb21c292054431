import Mathlib.Order.Interval.Finset.Nat

/-!
# Linear searches over an interval of naturals

Allocators look for free slots with loops of two shapes: the first index of an
interval that satisfies a test, and the first run of `n` consecutive indices
that all do.  Both are written here once, over an arbitrary decidable test, with
the characterisation their clients use.
-/

namespace Osx64.Scan

open Finset Bool Nat

/-! ## The first index that passes a test -/

/-- `for (j = lo; j < lo + len; j++) if (p(j)) return j;` -/
def firstFrom (p : Nat → Bool) (lo : Nat) : Nat → Option Nat
  | 0 => none
  | len + 1 => if p lo then some lo else firstFrom p (lo + 1) len

/-- The first index of `[lo, hi)` that satisfies `p`. -/
def first (p : Nat → Bool) (lo hi : Nat) : Option Nat :=
  firstFrom p lo (hi - lo)

variable {p : Nat → Bool} {lo len k hi n j start m r : Nat}

theorem firstFrom_eq_some :
    firstFrom p lo len = some k ↔
      lo ≤ k ∧ k < lo + len ∧ p k = true ∧ ∀ j, lo ≤ j → j < k → p j = false := by
  induction len generalizing lo with
  | zero => simp only [firstFrom, reduceCtorEq, false_iff]; omega
  | succ len ih =>
    rw [firstFrom]
    by_cases hlo : p lo = true
    · rw [if_pos hlo, Option.some_inj]
      refine ⟨?_, fun ⟨hle, _, _, hbefore⟩ => ?_⟩
      · rintro rfl
        exact ⟨le_rfl, by omega, hlo, fun j h1 h2 => by omega⟩
      · by_contra hne
        have := hbefore lo le_rfl (by omega)
        simp_all
    · rw [if_neg hlo, ih]
      refine ⟨fun ⟨hle, hlt, hk, hbefore⟩ => ⟨by omega, by omega, hk, ?_⟩,
        fun ⟨hle, hlt, hk, hbefore⟩ => ?_⟩
      · intro j hj hjk
        rcases eq_or_lt_of_le hj with rfl | hj
        · simpa using hlo
        · exact hbefore j hj hjk
      · have hne : lo ≠ k := fun heq => hlo (heq ▸ hk)
        exact ⟨by omega, by omega, hk, fun j h1 h2 => hbefore j (by omega) h2⟩

theorem firstFrom_eq_none :
    firstFrom p lo len = none ↔ ∀ j, lo ≤ j → j < lo + len → p j = false := by
  induction len generalizing lo with
  | zero => simp only [firstFrom, true_iff]; intro j _ _; omega
  | succ len ih =>
    rw [firstFrom]
    by_cases hlo : p lo = true
    · rw [if_pos hlo]
      simp only [reduceCtorEq, false_iff]
      intro hall
      simp [hall lo le_rfl (by omega)] at hlo
    · rw [if_neg hlo, ih]
      refine ⟨fun hall j hj hlt => ?_, fun hall j hj hlt => hall j (by omega) (by omega)⟩
      rcases eq_or_lt_of_le hj with rfl | hj
      · simpa using hlo
      · exact hall j hj (by omega)

theorem first_eq_some :
    first p lo hi = some k ↔
      lo ≤ k ∧ k < hi ∧ p k = true ∧ ∀ j, lo ≤ j → j < k → p j = false := by
  rw [first, firstFrom_eq_some]
  constructor <;> rintro ⟨h1, h2, h3⟩ <;> exact ⟨h1, by omega, h3⟩

theorem first_eq_none :
    first p lo hi = none ↔ ∀ j, lo ≤ j → j < hi → p j = false := by
  rw [first, firstFrom_eq_none]
  constructor <;> intro h j h1 h2 <;> exact h j h1 (by omega)

/-! ## The first run of `n` consecutive indices -/

/-- A scan with a run counter: `m` consecutive hits end just before `j`, the
first of them at `start`. -/
def firstRunFrom (p : Nat → Bool) (n : Nat) (j start m : Nat) : Nat → Option Nat
  | 0 => none
  | len + 1 =>
    if p j then
      let start := if m = 0 then j else start
      if m + 1 = n then some start else firstRunFrom p n (j + 1) start (m + 1) len
    else firstRunFrom p n (j + 1) start 0 len

/-- The first run of `n` indices inside `[lo, hi)` that all satisfy `p`. -/
def firstRun (p : Nat → Bool) (n lo hi : Nat) : Option Nat :=
  firstRunFrom p n lo 0 0 (hi - lo)

/-- `[start, start + n)` lies inside `[lo, hi)` and passes the test throughout. -/
def IsRun (p : Nat → Bool) (n lo hi start : Nat) : Prop :=
  lo ≤ start ∧ start + n ≤ hi ∧ ∀ k, k < n → p (start + k) = true

theorem isRun_of_firstRunFrom (hlo : lo ≤ j) (hcount : m = 0 ∨ lo ≤ start ∧ start + m = j)
    (hhits : ∀ k, k < m → p (start + k) = true) (hscan : firstRunFrom p n j start m len = some r) :
    IsRun p n lo (j + len) r := by
  -- `hcount` and `hhits` say what the run counter means at the head of the loop
  induction len generalizing j start m with
  | zero => simp [firstRunFrom] at hscan
  | succ len ih =>
    rw [firstRunFrom] at hscan
    split at hscan
    · rename_i hj
      have hstart : (if m = 0 then j else start) + m = j := by split <;> omega
      have hlow : lo ≤ (if m = 0 then j else start) := by split <;> omega
      have hnext : ∀ k, k < m + 1 → p ((if m = 0 then j else start) + k) = true := by
        intro k hk
        rcases Nat.lt_succ_iff_lt_or_eq.mp hk with hk | rfl
        · rw [if_neg (by omega)]
          exact hhits k hk
        · rwa [hstart]
      simp only at hscan
      split at hscan
      · rename_i hn
        obtain rfl := Option.some.inj hscan
        exact ⟨hlow, by omega, fun k hk => hnext k (by omega)⟩
      · have := ih (by omega) (Or.inr ⟨hlow, by omega⟩) hnext hscan
        rwa [add_right_comm] at this
    · have := ih (by omega) (Or.inl rfl) (fun k hk => absurd hk (not_lt_zero k)) hscan
      rwa [add_right_comm] at this

theorem firstRunFrom_isSome (hm : m < n)
    (hrun : IsRun p n (j - m) (j + len) r) : (firstRunFrom p n j start m len).isSome := by
  induction len generalizing j start m with
  | zero =>
    obtain ⟨h1, h2, _⟩ := hrun
    omega
  | succ len ih =>
    obtain ⟨h1, h2, h3⟩ := hrun
    rw [firstRunFrom]
    by_cases hj : p j = true
    · rw [if_pos hj]
      by_cases hn : m + 1 = n
      · simp [hn]
      · simp only [if_neg hn]
        exact ih (by omega) ⟨by omega, by omega, h3⟩
    · rw [if_neg hj]
      -- the run cannot straddle `j`, so it starts after it
      have hafter : j < r := by
        by_contra hle
        exact hj (by simpa [show r + (j - r) = j by omega] using h3 (j - r) (by omega))
      exact ih (by omega) ⟨by omega, by omega, h3⟩

theorem isRun_of_firstRun (hscan : firstRun p n lo hi = some r) : IsRun p n lo hi r := by
  have hrun := isRun_of_firstRunFrom le_rfl (Or.inl rfl)
    (fun k hk => absurd hk (not_lt_zero k)) hscan
  obtain ⟨h1, h2, h3⟩ := hrun
  rcases lt_or_ge lo hi with hlt | hge
  · exact ⟨h1, by omega, h3⟩
  · simp [firstRun, Nat.sub_eq_zero_of_le hge, firstRunFrom] at hscan

/-- A positive-length run is found whenever there is one. -/
theorem firstRun_isSome_iff (hn : 0 < n) :
    (firstRun p n lo hi).isSome ↔ ∃ r, IsRun p n lo hi r := by
  constructor
  · intro hsome
    obtain ⟨r, hr⟩ := Option.isSome_iff_exists.mp hsome
    exact ⟨r, isRun_of_firstRun hr⟩
  · rintro ⟨r, h1, h2, h3⟩
    exact firstRunFrom_isSome hn ⟨by omega, by omega, h3⟩

/-! ## Counting hits -/

/-- The number of indices of `[lo, hi)` that satisfy `p`. -/
def count (p : Nat → Bool) (lo hi : Nat) : Nat :=
  ((Finset.Ico lo hi).filter fun j => p j = true).card

theorem count_congr {q : Nat → Bool}
    (h : ∀ j, lo ≤ j → j < hi → p j = q j) : count p lo hi = count q lo hi := by
  unfold count
  congr 1
  apply filter_congr
  intro j hj
  rw [mem_Ico] at hj
  rw [h j hj.1 hj.2]

theorem count_pos_iff :
    0 < count p lo hi ↔ ∃ j, lo ≤ j ∧ j < hi ∧ p j = true := by
  rw [count, card_pos]
  constructor
  · rintro ⟨j, hj⟩
    simp only [mem_filter, mem_Ico] at hj
    exact ⟨j, hj.1.1, hj.1.2, hj.2⟩
  · rintro ⟨j, h1, h2, h3⟩
    exact ⟨j, by simp [h1, h2, h3]⟩

theorem count_all (h : ∀ j, lo ≤ j → j < hi → p j = true) : count p lo hi = hi - lo := by
  rw [count, filter_true_of_mem, card_Ico]
  intro j hj
  rw [mem_Ico] at hj
  exact h j hj.1 hj.2

theorem count_none (h : ∀ j, lo ≤ j → j < hi → p j = false) : count p lo hi = 0 := by
  rw [count, Finset.card_eq_zero, filter_eq_empty_iff]
  intro j hj
  rw [mem_Ico] at hj
  simp [h j hj.1 hj.2]

/-- Clearing a run of `n` hits lowers the count by `n`. -/
theorem count_clear (hrun : IsRun p n lo hi start) :
    count (fun j => p j && !(decide (start ≤ j) && decide (j < start + n))) lo hi + n =
      count p lo hi := by
  obtain ⟨h1, h2, h3⟩ := hrun
  have hsub : Finset.Ico start (start + n) ⊆ (Finset.Ico lo hi).filter fun j => p j = true := by
    intro j hj
    simp only [mem_Ico, mem_filter] at hj ⊢
    refine ⟨⟨by omega, by omega⟩, ?_⟩
    simpa [show start + (j - start) = j by omega] using h3 (j - start) (by omega)
  have hdiff : (Finset.Ico lo hi).filter
        (fun j => (p j && !(decide (start ≤ j) && decide (j < start + n))) = true) =
      ((Finset.Ico lo hi).filter fun j => p j = true) \ Finset.Ico start (start + n) := by
    ext j
    simp only [mem_filter, mem_sdiff, mem_Ico, and_eq_true,
      not_eq_true', and_eq_false_iff, decide_eq_false_iff_not]
    tauto
  have hcard := card_sdiff_add_card_eq_card hsub
  rw [card_Ico, Nat.add_sub_cancel_left] at hcard
  rw [count, hdiff]
  exact hcard

/-- Turning one miss into a hit raises the count by one. -/
theorem count_set {i : Nat} (h1 : lo ≤ i) (h2 : i < hi) (hi' : p i = false) :
    count (fun j => p j || decide (j = i)) lo hi = count p lo hi + 1 := by
  have hins : (Finset.Ico lo hi).filter (fun j => (p j || decide (j = i)) = true) =
      insert i ((Finset.Ico lo hi).filter fun j => p j = true) := by
    ext j
    simp only [mem_filter, mem_insert, mem_Ico, or_eq_true,
      decide_eq_true_eq]
    constructor
    · rintro ⟨hj, h | h⟩
      · exact Or.inr ⟨hj, h⟩
      · exact Or.inl h
    · rintro (rfl | ⟨hj, h⟩)
      · exact ⟨⟨h1, h2⟩, Or.inr rfl⟩
      · exact ⟨hj, Or.inl h⟩
  rw [count, hins, card_insert_of_notMem (by simp [hi']), count]

end Osx64.Scan
