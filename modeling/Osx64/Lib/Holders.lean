import Mathlib.Data.Finset.Prod

/-!
# Counting references

Objects are referred to from places: a finite set of places, each of which holds an object or
nothing.  A reference count is right when it is the number of places that hold the object.
The lemmas say how this number changes when one place changes.
-/

namespace Osx64

open Function Finset

variable {π α : Type*} [DecidableEq π] [DecidableEq α]

/-- The number of places that hold `a`. -/
def holders (places : Finset π) (held : π → Option α) (a : α) : Nat :=
  (places.filter fun x => held x = some a).card

variable {places more : Finset π} {held held' : π → Option α} {x : π} {v : Option α} {a : α}

omit [DecidableEq π] in
theorem holders_congr (h : ∀ x ∈ places, held' x = held x) :
    holders places held' a = holders places held a := by
  unfold holders
  congr 1
  exact filter_congr fun x hx => by rw [h x hx]

variable (held) in
omit [DecidableEq π] in
theorem holders_pos (hx : x ∈ places) (h : held x = some a) : 0 < holders places held a :=
  card_pos.mpr ⟨x, mem_filter.mpr ⟨hx, h⟩⟩

omit [DecidableEq π] in
theorem holders_eq_zero (h : ∀ x ∈ places, held x ≠ some a) : holders places held a = 0 := by
  unfold holders
  rw [card_eq_zero, filter_eq_empty_iff]
  exact h

omit [DecidableEq π] in
variable (places held a) in
omit [DecidableEq π] in
/-- At most one place holds the object. -/
theorem holders_of_unique (h : ∀ x ∈ places, ∀ y ∈ places, held x = some a →
    held y = some a → x = y) [Decidable (∃ x ∈ places, held x = some a)] :
    holders places held a = if ∃ x ∈ places, held x = some a then 1 else 0 := by
  split
  · next hsome =>
    obtain ⟨x, hx, hxa⟩ := hsome
    refine card_eq_one.mpr ⟨x, eq_singleton_iff_unique_mem.mpr
      ⟨mem_filter.mpr ⟨hx, hxa⟩, fun y hy => ?_⟩⟩
    obtain ⟨hy, hya⟩ := mem_filter.mp hy
    exact h y hy x hx hya hxa
  · next hnone => exact holders_eq_zero fun x hx hxa => hnone ⟨x, hx, hxa⟩

omit [DecidableEq π] in
/-- Places that hold nothing do not count. -/
theorem holders_of_subset (hsub : places ⊆ more) (h : ∀ x ∈ more, x ∉ places → held x ≠ some a) :
    holders more held a = holders places held a := by
  unfold holders
  congr 1
  ext x
  rw [mem_filter, mem_filter]
  constructor
  · rintro ⟨hx, hxa⟩
    exact ⟨by_contra fun hn => h x hx hn hxa, hxa⟩
  · rintro ⟨hx, hxa⟩
    exact ⟨hsub hx, hxa⟩

variable (held) in
/-- One place is separated from the others. -/
theorem holders_eq_erase (hx : x ∈ places) :
    holders places held a = holders (places.erase x) held a + if held x = some a then 1 else 0 := by
  unfold holders
  rw [← insert_erase hx, filter_insert]
  split
  · rw [card_insert_of_notMem, erase_insert (notMem_erase x places)]
    exact fun hmem => notMem_erase x places (mem_of_mem_filter x hmem)
  · rw [erase_insert (notMem_erase x places), Nat.add_zero]

variable (held) in
/-- A place changes what it holds. -/
theorem holders_update (hx : x ∈ places) (v : Option α) :
    holders places (update held x v) a + (if held x = some a then 1 else 0) =
      holders places held a + if v = some a then 1 else 0 := by
  have hrest : holders (places.erase x) (update held x v) a =
      holders (places.erase x) held a :=
    holders_congr fun y hy => update_of_ne (ne_of_mem_erase hy) _ _
  rw [holders_eq_erase _ hx, holders_eq_erase held hx, hrest, update_self]
  omega

end Osx64
