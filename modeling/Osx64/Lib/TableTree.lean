import Mathlib.Data.List.Basic

/-!
# Trees of tables in a memory

A radix tree kept in a memory of tables: an entry of a table is empty, a leaf, or the name of
another table one level below.  Several roots may share tables, as long as every table is always at
one and the same place below them; that is `IsForest`.  What changes when one entry is written then
depends only on the path to it.

The level of a table is the number of levels below it.  How an entry is read may depend on the
level, so that the same word can be a leaf at one level and a pointer at another.
-/

namespace Osx64.TableTree

open Function List Option

/-- What an entry means: nothing, a leaf, or a table of the level below. -/
inductive Slot (α ρ : Type*) where
  | absent
  | leaf (r : ρ)
  | table (t : α)

def Slot.next {α ρ : Type*} : Slot α ρ → Option α
  | .table t => some t
  | .absent | .leaf _ => none

section Paths

variable {α ι ε ρ : Type*} (decode : Nat → ε → Slot α ρ)

/-- The table at the end of a path from `t`, a table of level `n`. -/
def reach (mem : α → ι → ε) (n : Nat) (t : α) : List ι → Option α
  | [] => some t
  | i :: path => (decode n (mem t i)).next.bind fun s => reach mem (n - 1) s path

/-- The leaf on a path from `t`, with what is left of the path. -/
def find (mem : α → ι → ε) (n : Nat) (t : α) : List ι → Option (ρ × List ι)
  | [] => none
  | i :: path =>
    match decode n (mem t i) with
    | .absent => none
    | .leaf r => some (r, path)
    | .table s => find mem (n - 1) s path

variable {decode} {mem mem' : α → ι → ε} {n : Nat} {t s : α} {i : ι} {p q : List ι}

theorem reach_append : reach decode mem n t (p ++ q)
    = (reach decode mem n t p).bind fun s => reach decode mem (n - p.length) s q := by
  induction p generalizing n t with
  | nil => rfl
  | cons i p ih =>
    simp only [cons_append, reach, bind_assoc, length_cons]
    congr 1
    funext s
    rw [ih, Nat.sub_sub, Nat.add_comm]

theorem reach_append_of_reach (h : reach decode mem n t p = some s) :
    reach decode mem n t (p ++ q) = reach decode mem (n - p.length) s q := by
  rw [reach_append, h, bind_some]

theorem find_append_of_reach (h : reach decode mem n t p = some s) :
    find decode mem n t (p ++ q) = find decode mem (n - p.length) s q := by
  induction p generalizing n t with
  | nil =>
    cases h
    rfl
  | cons i p ih =>
    rw [reach, bind_eq_some_iff] at h
    obtain ⟨t', hnext, hreach⟩ := h
    rw [cons_append, find]
    cases hslot : decode n (mem t i) with
    | absent | leaf => simp [hslot, Slot.next] at hnext
    | table t'' =>
      rw [hslot, Slot.next, some_inj] at hnext
      rw [hnext]
      dsimp only
      rw [ih hreach, length_cons, Nat.sub_sub, Nat.add_comm]

variable (mem') in
/-- A path looks only at the entries on it. -/
theorem path_congr (path : List ι)
    (h : ∀ p i q s, path = p ++ i :: q → reach decode mem n t p = some s →
      decode (n - p.length) (mem' s i) = decode (n - p.length) (mem s i)) :
    reach decode mem' n t path = reach decode mem n t path ∧
      find decode mem' n t path = find decode mem n t path := by
  induction path generalizing n t with
  | nil => exact ⟨rfl, rfl⟩
  | cons i path ih =>
    have hhead : decode n (mem' t i) = decode n (mem t i) := h [] i path t rfl rfl
    have htail (s : α) (hslot : decode n (mem t i) = .table s) :=
      ih (n := n - 1) (t := s) fun p j q s' hpath hreach => by
        have hstep := h (i :: p) j q s' (by rw [hpath, cons_append]) (by
          rw [reach, hslot]
          exact hreach)
        rwa [length_cons, Nat.add_comm, ← Nat.sub_sub] at hstep
    simp only [reach, find, hhead]
    cases hslot : decode n (mem t i) with
    | absent | leaf => exact ⟨rfl, rfl⟩
    | table s => exact htail s hslot

end Paths

section Forest

variable {α ι ε ρ : Type*} (decode : Nat → ε → Slot α ρ)

/-- Every table has one place below the roots, whichever of them it is reached from. -/
def IsForest (mem : α → ι → ε) (n : Nat) (roots : α → Prop) : Prop :=
  ∀ ⦃r r' s p p'⦄, roots r → roots r' → reach decode mem n r p = some s →
    reach decode mem n r' p' = some s → p = p'

/-- The table is below one of the roots. -/
def Reached (mem : α → ι → ε) (n : Nat) (roots : α → Prop) (s : α) : Prop :=
  ∃ r p, roots r ∧ reach decode mem n r p = some s

variable {decode} {mem mem' : α → ι → ε} {n : Nat} {roots : α → Prop} {r r' t s : α} {i : ι} {e : ε}
  {p q : List ι}

theorem IsForest.mono (h : IsForest decode mem n roots)
    (hless : ∀ r p s, roots r → reach decode mem' n r p = some s →
      reach decode mem n r p = some s) :
    IsForest decode mem' n roots := by
  intro r r' s p p' hr hr' hp hp'
  exact h hr hr' (hless r p s hr hp) (hless r' p' s hr' hp')

variable [DecidableEq α] [DecidableEq ι]

/-- One entry of one table is written. -/
def write (mem : α → ι → ε) (t : α) (i : ι) (e : ε) : α → ι → ε :=
  update mem t (update (mem t) i e)

theorem write_self : write mem t i e t i = e := by simp [write]

theorem write_of_ne (h : s ≠ t) : write mem t i e s = mem s := update_of_ne h ..

theorem write_of_index_ne {j : ι} (h : j ≠ i) : write mem t i e s j = mem s j := by
  by_cases hs : s = t
  · rw [hs, write, update_self, update_of_ne h]
  · rw [write_of_ne hs]

theorem eq_of_write_ne {j : ι} (h : write mem t i e s j ≠ mem s j) : s = t ∧ j = i := by
  by_contra hne
  rw [not_and_or] at hne
  rcases hne with hne | hne
  · exact h (by rw [write_of_ne hne])
  · exact h (write_of_index_ne hne)

section

variable (h : IsForest decode mem n roots) (hr : roots r)
include h hr

/-- A path that does not pass the written entry leads where it led; and a root that does not have
the table sees no change. -/
theorem path_write (hr' : roots r') (ht : reach decode mem n r p = some t)
    (hnot : ¬∃ q', q = p ++ i :: q' ∧ reach decode mem n r' p = some t) :
    reach decode (write mem t i e) n r' q = reach decode mem n r' q ∧
      find decode (write mem t i e) n r' q = find decode mem n r' q := by
  refine path_congr _ _ fun p' j q' s hq hreach => ?_
  by_cases hsame : write mem t i e s j = mem s j
  · rw [hsame]
  · obtain ⟨rfl, rfl⟩ := eq_of_write_ne hsame
    obtain rfl : p' = p := h hr' hr hreach ht
    exact absurd ⟨q', hq, hreach⟩ hnot

/-- The table itself keeps its place. -/
theorem reach_write_self (hr' : roots r') (ht : reach decode mem n r p = some t) :
    reach decode (write mem t i e) n r' p = reach decode mem n r' p := by
  refine (path_write h hr hr' ht ?_).1
  rintro ⟨q', hq, -⟩
  have hlen := congrArg length hq
  rw [length_append, length_cons] at hlen
  omega

/-- What is found through the written entry. -/
theorem find_write_through (ht : reach decode mem n r p = some t) :
    find decode (write mem t i e) n r (p ++ i :: q) =
      match decode (n - p.length) e with
      | .absent => none
      | .leaf x => some (x, q)
      | .table s => find decode (write mem t i e) (n - p.length - 1) s q := by
  have hself := (reach_write_self (e := e) (i := i) h hr hr ht).trans ht
  rw [find_append_of_reach hself, find, write_self]

theorem reach_write_through (ht : reach decode mem n r p = some t) :
    reach decode (write mem t i e) n r (p ++ i :: q) = (decode (n - p.length) e).next.bind fun s =>
      reach decode (write mem t i e) (n - p.length - 1) s q := by
  have hself := (reach_write_self (e := e) (i := i) h hr hr ht).trans ht
  rw [reach_append_of_reach hself, reach, write_self]

/-- An entry that was no pointer is overwritten: what was reached still is. -/
theorem reach_write_of_reach (hr' : roots r') (ht : reach decode mem n r p = some t)
    (hold : (decode (n - p.length) (mem t i)).next = none)
    (hs : reach decode mem n r' q = some s) : reach decode (write mem t i e) n r' q = some s := by
  rw [(path_write h hr hr' ht ?_).1, hs]
  rintro ⟨q', rfl, hhas⟩
  rw [reach_append_of_reach hhas, reach, hold, bind_none] at hs
  cases hs

/-! ### Writing an entry that is no pointer -/

theorem reach_of_reach_write (hr' : roots r')
    (ht : reach decode mem n r p = some t) (he : (decode (n - p.length) e).next = none)
    (hs : reach decode (write mem t i e) n r' q = some s) : reach decode mem n r' q = some s := by
  by_cases hthrough : ∃ q', q = p ++ i :: q' ∧ reach decode mem n r' p = some t
  · obtain ⟨q', rfl, hhas⟩ := hthrough
    rw [reach_write_through h hr' hhas, he, bind_none] at hs
    cases hs
  · rwa [(path_write h hr hr' ht hthrough).1] at hs

theorem IsForest.write
    (ht : reach decode mem n r p = some t) (he : (decode (n - p.length) e).next = none) :
    IsForest decode (write mem t i e) n roots :=
  h.mono fun _ _ _ hr' => reach_of_reach_write h hr hr' ht he

end

/-! ### Hanging in an empty table -/

section Link

variable (h : IsForest decode mem n roots) (hr : roots r) (ht : reach decode mem n r p = some t)
  (hold : decode (n - p.length) (mem t i) = .absent) (he : decode (n - p.length) e = .table s)
  (hfresh : ¬ Reached decode mem n roots s) (hempty : ∀ k j, decode k (mem s j) = .absent)

include hr ht hfresh in
theorem write_fresh : TableTree.write mem t i e s = mem s := by
  refine write_of_ne fun hst => hfresh ⟨r, p, hr, ?_⟩
  rw [hst]
  exact ht

include h hr ht he hfresh hempty in
theorem reach_link_through (hr' : roots r') (hhas : reach decode mem n r' p = some t) :
    reach decode (TableTree.write mem t i e) n r' (p ++ i :: q) =
      if q = [] then some s else none := by
  rw [reach_write_through h hr' hhas, he, Slot.next, bind_some]
  cases q with
  | nil => rfl
  | cons j q =>
    rw [reach, write_fresh hr ht hfresh, hempty, Slot.next, bind_none,
      if_neg (cons_ne_nil j q)]

include h hr ht hold he hfresh hempty in
/-- Nothing is found that was not found before, and nothing is lost. -/
theorem find_link (hr' : roots r') :
    find decode (TableTree.write mem t i e) n r' q = find decode mem n r' q := by
  by_cases hthrough : ∃ q', q = p ++ i :: q' ∧ reach decode mem n r' p = some t
  · obtain ⟨q', rfl, hhas⟩ := hthrough
    rw [find_write_through h hr' hhas, he, find_append_of_reach hhas, find, hold]
    cases q' with
    | nil => rfl
    | cons j q' =>
      dsimp only
      rw [find, write_fresh hr ht hfresh, hempty]
  · exact (path_write h hr hr' ht hthrough).2

include h hr ht he hfresh hempty in
theorem reach_of_reach_link (hr' : roots r') {u : α}
    (hu : reach decode (TableTree.write mem t i e) n r' q = some u) :
    reach decode mem n r' q = some u ∨ q = p ++ [i] ∧ u = s := by
  by_cases hthrough : ∃ q', q = p ++ i :: q' ∧ reach decode mem n r' p = some t
  · obtain ⟨q', rfl, hhas⟩ := hthrough
    rw [reach_link_through h hr ht he hfresh hempty hr' hhas] at hu
    split at hu
    · next hnil =>
      cases hu
      exact .inr ⟨by rw [hnil], rfl⟩
    · cases hu
  · rw [(path_write h hr hr' ht hthrough).1] at hu
    exact .inl hu

include h hr ht he hfresh hempty in
theorem IsForest.link : IsForest decode (TableTree.write mem t i e) n roots := by
  intro r₁ r₂ u p₁ p₂ hr₁ hr₂ hp₁ hp₂
  rcases reach_of_reach_link h hr ht he hfresh hempty hr₁ hp₁ with hp₁ | ⟨rfl, rfl⟩
  · rcases reach_of_reach_link h hr ht he hfresh hempty hr₂ hp₂ with hp₂ | ⟨rfl, rfl⟩
    · exact h hr₁ hr₂ hp₁ hp₂
    · exact absurd ⟨r₁, p₁, hr₁, hp₁⟩ hfresh
  · rcases reach_of_reach_link h hr ht he hfresh hempty hr₂ hp₂ with hp₂ | ⟨rfl, _⟩
    · exact absurd ⟨r₂, p₂, hr₂, hp₂⟩ hfresh
    · rfl

end Link

omit [DecidableEq ι] in
/-- A table that is not below the roots does not matter. -/
theorem path_update_of_not_reached (hs : ¬ Reached decode mem n roots s)
    (hr : roots r) (x : ι → ε) :
    reach decode (update mem s x) n r q = reach decode mem n r q ∧
      find decode (update mem s x) n r q = find decode mem n r q := by
  refine path_congr _ _ fun p i q' u _ hreach => ?_
  rw [update_of_ne]
  rintro rfl
  exact hs ⟨r, p, hr, hreach⟩

end Forest

end Osx64.TableTree
