import Mathlib.Data.Finset.Basic

/-!
# Items in places

A family of lists, one for each place, in which every item of a finite set stands exactly once.
Lists in a program are changed at their ends, and it does not matter here at which: a change is
described up to the order of the list.
-/

namespace Osx64

open List Function

variable {π α : Type*}

/-- Every item of `live` is in exactly one place, and there it stands once. -/
structure Placed (lists : π → List α) (live : Finset α) : Prop where
  nodup : ∀ p, (lists p).Nodup
  unique : ∀ p q a, a ∈ lists p → a ∈ lists q → p = q
  known : ∀ a, a ∈ live ↔ ∃ p, a ∈ lists p

namespace Placed

variable {lists lists' : π → List α} {live : Finset α} {p q : π} {a : α}

section

variable (h : Placed lists live)
include h

theorem existsUnique (ha : a ∈ live) : ∃! p, a ∈ lists p := by
  obtain ⟨p, hp⟩ := (h.known a).mp ha
  exact ⟨p, hp, fun q hq => h.unique q p a hq hp⟩

theorem mem_live (ha : a ∈ lists p) : a ∈ live :=
  (h.known a).mpr ⟨p, ha⟩

theorem congr (hlists : ∀ p, lists' p = lists p) : Placed lists' live := by
  obtain rfl : lists' = lists := funext hlists
  exact h

/-- Only `a` may be elsewhere. -/
theorem replace {live' : Finset α} (hnodup : ∀ r, (lists' r).Nodup)
    (hself : ∀ r s, a ∈ lists' r → a ∈ lists' s → r = s) (hlive : a ∈ live' ↔ ∃ r, a ∈ lists' r)
    (hothers : ∀ r b, b ≠ a → (b ∈ lists' r ↔ b ∈ lists r))
    (hlives : ∀ b, b ≠ a → (b ∈ live' ↔ b ∈ live)) : Placed lists' live' := by
  refine ⟨hnodup, fun r s b hr hs => ?_, fun b => ?_⟩
  · by_cases hb : b = a
    · rw [hb] at hr hs
      exact hself r s hr hs
    · exact h.unique r s b ((hothers r b hb).mp hr) ((hothers s b hb).mp hs)
  · by_cases hb : b = a
    · rw [hb]
      exact hlive
    · rw [hlives b hb, h.known b]
      exact exists_congr fun r => (hothers r b hb).symm

end

theorem mem_move {r : π} {b : α} (hfrom : (lists p).Perm (a :: lists' p))
    (hto : (lists' q).Perm (a :: lists q)) (hother : ∀ r, r ≠ p → r ≠ q → lists' r = lists r)
    (hb : b ≠ a) : b ∈ lists' r ↔ b ∈ lists r := by
  by_cases hrp : r = p
  · rw [hrp, hfrom.mem_iff, mem_cons]
    exact ⟨.inr, fun hmem => hmem.resolve_left hb⟩
  · by_cases hrq : r = q
    · rw [hrq, hto.mem_iff, mem_cons]
      exact ⟨fun hmem => hmem.resolve_left hb, .inr⟩
    · rw [hother r hrp hrq]

theorem mem_add {r : π} {b : α} (hto : (lists' q).Perm (a :: lists q))
    (hother : ∀ r, r ≠ q → lists' r = lists r) (hb : b ≠ a) : b ∈ lists' r ↔ b ∈ lists r := by
  by_cases hrq : r = q
  · rw [hrq, hto.mem_iff, mem_cons]
    exact ⟨fun hmem => hmem.resolve_left hb, .inr⟩
  · rw [hother r hrq]

/-- An item is taken out. -/
theorem remove [DecidableEq α] (h : Placed lists live) (hfrom : (lists p).Perm (a :: lists' p))
    (hother : ∀ r, r ≠ p → lists' r = lists r) : Placed lists' (live.erase a) := by
  have hp : a ∈ lists p := hfrom.mem_iff.mpr mem_cons_self
  obtain ⟨hp', hnodup⟩ := nodup_cons.mp (hfrom.nodup_iff.mp (h.nodup p))
  have hself : ∀ r, a ∉ lists' r := by
    intro r hmem
    by_cases hrp : r = p
    · exact hp' (hrp ▸ hmem)
    · rw [hother r hrp] at hmem
      exact hrp (h.unique r p a hmem hp)
  refine h.replace (fun r => ?_) (fun r s hr => absurd hr (hself r))
    (iff_of_false (Finset.notMem_erase a live) fun ⟨r, hr⟩ => hself r hr)
    (fun r b hb => (mem_add hfrom (fun s hs => (hother s hs).symm) hb).symm)
    fun b hb => by rw [Finset.mem_erase, and_iff_right hb]
  by_cases hrp : r = p
  · exact hrp ▸ hnodup
  · exact hother r hrp ▸ h.nodup r

/-- A new item. -/
theorem add [DecidableEq α] (h : Placed lists live) (ha : a ∉ live)
    (hto : (lists' q).Perm (a :: lists q)) (hother : ∀ r, r ≠ q → lists' r = lists r) :
    Placed lists' (insert a live) := by
  have hnew : ∀ r, a ∉ lists r := fun r hmem => ha (h.mem_live hmem)
  have hself : ∀ r, a ∈ lists' r → r = q := by
    intro r hmem
    by_contra hrq
    exact hnew r (hother r hrq ▸ hmem)
  refine h.replace (fun r => ?_) (fun r s hr hs => (hself r hr).trans (hself s hs).symm)
    (iff_of_true (Finset.mem_insert_self a live) ⟨q, hto.mem_iff.mpr mem_cons_self⟩)
    (fun r b hb => mem_add hto hother hb) fun b hb => by rw [Finset.mem_insert, or_iff_right hb]
  by_cases hrq : r = q
  · rw [hrq, hto.nodup_iff, nodup_cons]
    exact ⟨hnew q, h.nodup q⟩
  · exact hother r hrq ▸ h.nodup r

/-- An item goes from one place to another. -/
theorem move (h : Placed lists live) (hne : p ≠ q) (hfrom : (lists p).Perm (a :: lists' p))
    (hto : (lists' q).Perm (a :: lists q)) (hother : ∀ r, r ≠ p → r ≠ q → lists' r = lists r) :
    Placed lists' live := by
  classical
  have hremove : Placed (update lists p (lists' p)) (live.erase a) :=
    h.remove (by rwa [update_self]) fun r hr => update_of_ne hr _ _
  rw [← update_of_ne hne.symm (lists' p) lists] at hto
  have hadd := hremove.add (Finset.notMem_erase a live) hto fun r hr => by
    by_cases hrp : r = p
    · rw [hrp, update_self]
    · rw [update_of_ne hrp, hother r hrp hr]
  rwa [Finset.insert_erase (h.mem_live (hfrom.mem_iff.mpr mem_cons_self))] at hadd

end Placed

end Osx64
