import Mathlib.Data.List.Nodup

/-!
# Association lists as finite maps

A list of keys with values, read by `List.lookup`, is a finite map when no key occurs
twice.  Adding a fresh key or taking a key out changes the map at this key only, wherever
in the list this happens.
-/

namespace Osx64.Assoc

open List

variable {κ ν : Type*} [BEq κ] [LawfulBEq κ] {pre post l : List (κ × ν)} {k n : κ} {v : ν}

/-- The keys of the map. -/
def keys (l : List (κ × ν)) : List κ := l.map Prod.fst

omit [BEq κ] [LawfulBEq κ] in
theorem keys_insert : keys (pre ++ (k, v) :: post) = keys pre ++ k :: keys post := by
  simp [keys]

theorem lookup_eq_none : l.lookup k = none ↔ k ∉ keys l := by
  induction l with
  | nil => simp [keys]
  | cons entry rest ih =>
    obtain ⟨n, w⟩ := entry
    rw [lookup_cons]
    by_cases hkn : k = n
    · simp [hkn, keys]
    · have hbeq : (k == n) = false := beq_false_of_ne hkn
      simp only [hbeq, ih]
      simp [keys, hkn]

theorem lookup_insert_of_ne (hne : n ≠ k) :
    (pre ++ (k, v) :: post).lookup n = (pre ++ post).lookup n := by
  have hbeq : (n == k) = false := beq_false_of_ne hne
  rw [lookup_append, lookup_append, lookup_cons, hbeq]

theorem lookup_insert_self (hfresh : k ∉ keys pre) :
    (pre ++ (k, v) :: post).lookup k = some v := by
  rw [lookup_append, lookup_eq_none.mpr hfresh, lookup_cons_self, Option.none_or]

omit [BEq κ] [LawfulBEq κ] in
theorem nodup_insert_iff :
    (keys (pre ++ (k, v) :: post)).Nodup ↔ k ∉ keys (pre ++ post) ∧ (keys (pre ++ post)).Nodup := by
  rw [keys_insert, nodup_middle, nodup_cons]
  simp [keys]

end Osx64.Assoc
