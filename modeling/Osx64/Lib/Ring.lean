import Mathlib.Data.List.Basic

/-!
# Ring buffers

A ring of `n` cells with one cell kept free: the buffered items are those from `tail` up to
`head`, cyclically, so that equal indices mean an empty ring and a head just before the tail
means a full one.  Seen through `contents`, `push` appends an item and `pop` takes the first
one.
-/

namespace Osx64

open Function List Nat

/-- Cells with the two indices.  Only the indices below `n` are used as cells. -/
structure Ring (α : Type*) (n : Nat) where
  cell : Nat → α
  head : Nat
  tail : Nat
  head_lt : head < n
  tail_lt : tail < n

namespace Ring

variable {α : Type*} {n : Nat} {r : Ring α n}

/-- The ring with both indices at the start. -/
def empty (cell : Nat → α) (hn : 0 < n) : Ring α n := ⟨cell, 0, 0, hn, hn⟩

/-- Is there nothing to take out? -/
def IsEmpty (r : Ring α n) : Prop := r.head = r.tail
deriving Decidable

/-- Is there no room left? -/
def IsFull (r : Ring α n) : Prop := (r.head + 1) % n = r.tail
deriving Decidable

/-- Put an item in at the head. -/
def push (r : Ring α n) (a : α) : Ring α n where
  cell := Function.update r.cell r.head a
  head := (r.head + 1) % n
  tail := r.tail
  head_lt := mod_lt _ (zero_lt_of_lt r.head_lt)
  tail_lt := r.tail_lt

/-- The item at the tail. -/
def front (r : Ring α n) : α := r.cell r.tail

/-- Take out the item at the tail. -/
def pop (r : Ring α n) : Ring α n where
  cell := r.cell
  head := r.head
  tail := (r.tail + 1) % n
  head_lt := r.head_lt
  tail_lt := mod_lt _ (zero_lt_of_lt r.tail_lt)

/-- The number of items. -/
def used (r : Ring α n) : Nat := (r.head + n - r.tail) % n

/-- The items, first in first. -/
def contents (r : Ring α n) : List α :=
  (List.range r.used).map fun k => r.cell ((r.tail + k) % n)

/-! ## Index arithmetic -/

/-- An index that has run past the end by less than one round. -/
theorem wrap_eq {i : Nat} (h : i < 2 * n) : i % n = if i < n then i else i - n := by
  split
  · next hi => exact mod_eq_of_lt hi
  · next hi =>
    rw [mod_eq_sub_mod (Nat.le_of_not_lt hi)]
    exact mod_eq_of_lt (by omega)

theorem used_eq (r : Ring α n) :
    r.used = if r.tail ≤ r.head then r.head - r.tail else r.head + n - r.tail := by
  have hhead := r.head_lt
  rw [used, wrap_eq (by omega)]
  split <;> split <;> omega

theorem next_eq {i : Nat} (h : i < n) : (i + 1) % n = if i + 1 < n then i + 1 else 0 := by
  rw [wrap_eq (by omega)]
  split
  · rfl
  · omega

theorem used_lt (r : Ring α n) : r.used < n := mod_lt _ (zero_lt_of_lt r.head_lt)

theorem used_push (h : ¬ r.IsFull) (a : α) : (r.push a).used = r.used + 1 := by
  have hhead := r.head_lt
  have htail := r.tail_lt
  rw [IsFull, next_eq hhead] at h
  have hnew := (r.push a).used_eq
  rw [show (r.push a).head = (r.head + 1) % n from rfl, next_eq hhead,
    show (r.push a).tail = r.tail from rfl] at hnew
  rw [hnew, used_eq]
  split_ifs at * <;> omega

theorem used_pop (h : ¬ r.IsEmpty) : r.used = r.pop.used + 1 := by
  have hhead := r.head_lt
  have htail := r.tail_lt
  rw [IsEmpty] at h
  have hnew := r.pop.used_eq
  rw [show r.pop.tail = (r.tail + 1) % n from rfl, next_eq htail,
    show r.pop.head = r.head from rfl] at hnew
  rw [hnew, used_eq]
  split_ifs <;> omega

/-! ## First in, first out -/

@[simp] theorem contents_empty (cell : Nat → α) (hn : 0 < n) : (empty cell hn).contents = [] := by
  simp [contents, used, empty]

@[simp] theorem length_contents (r : Ring α n) : r.contents.length = r.used := by simp [contents]

/-- The cell behind the last item is the head. -/
theorem tail_add_used (r : Ring α n) : (r.tail + r.used) % n = r.head := by
  have hhead := r.head_lt
  have htail := r.tail_lt
  rw [wrap_eq (by have := r.used_lt; omega), used_eq]
  split_ifs <;> omega

/-- None of the items is in the cell at the head. -/
theorem index_ne_head {k : Nat} (hk : k < r.used) : (r.tail + k) % n ≠ r.head := by
  have htail := r.tail_lt
  have hlt := r.used_lt
  rw [used_eq] at hk hlt
  rw [wrap_eq (by omega)]
  split_ifs at * <;> omega

theorem contents_push (h : ¬ r.IsFull) (a : α) :
    (r.push a).contents = r.contents ++ [a] := by
  rw [contents, used_push h, range_succ, map_append, map_singleton, contents]
  have hold : ∀ k ∈ List.range r.used,
      (r.push a).cell (((r.push a).tail + k) % n) = r.cell ((r.tail + k) % n) := by
    intro k hk
    exact update_of_ne (index_ne_head (mem_range.mp hk)) _ _
  have hnew : (r.push a).cell (((r.push a).tail + r.used) % n) = a := by
    show update r.cell r.head a ((r.tail + r.used) % n) = a
    rw [tail_add_used, update_self]
  rw [map_congr_left hold, hnew]

theorem contents_pop (h : ¬ r.IsEmpty) :
    r.contents = r.front :: r.pop.contents := by
  have hindex : ∀ k, (r.tail + (k + 1)) % n = (r.pop.tail + k) % n := by
    intro k
    show _ = ((r.tail + 1) % n + k) % n
    rw [mod_add_mod]
    congr 1
    omega
  rw [contents, used_pop h, range_succ_eq_map, map_cons, map_map, contents]
  congr 1
  · rw [Nat.add_zero, mod_eq_of_lt r.tail_lt]
    rfl
  · refine map_congr_left fun k _ => ?_
    show r.cell ((r.tail + (k + 1)) % n) = r.cell ((r.pop.tail + k) % n)
    rw [hindex]

end Ring

end Osx64
