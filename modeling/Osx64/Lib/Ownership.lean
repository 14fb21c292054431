import Mathlib.Data.Finset.Card

/-!
# Exclusive ownership

A set of places, each of which holds a resource or the distinguished `hole`.  The
ownership is exclusive when every held resource is in use and no resource is held
at two places.  An allocator keeps this so by filling a hole with a resource that
is not in use, and by emptying places before it gives their resources back.

Since a place holds one resource and a resource is at one place, holding and freeing are
two sides of one account: the places that hold something and the free resources together
do not change in number (`card_add_card_eq`).
-/

namespace Osx64.Ownership

open Finset

variable {ι β : Type*}

/-- Every place holds the hole, or a resource in use that no other place holds. -/
structure Exclusive (hole : β) (used : β → Prop) (own : ι → β) : Prop where
  used : ∀ x, own x ≠ hole → used (own x)
  inj : ∀ x y, own x ≠ hole → own x = own y → x = y

variable {hole : β} {used used' : β → Prop} {own own' : ι → β}

/-- Filling a hole with an unused resource. -/
theorem Exclusive.attach [DecidableEq ι] (h : Exclusive hole used own) {x : ι} {b : β}
    (hfresh : ¬ used b) (hb : used' b) (hmono : ∀ c, used c → used' c)
    (hown : ∀ y, own' y = if y = x then b else own y) : Exclusive hole used' own' := by
  refine ⟨fun y hy => ?_, fun y z hy hyz => ?_⟩
  · rw [hown] at hy ⊢
    split
    · exact hb
    · next hne => rw [if_neg hne] at hy; exact hmono _ (h.used y hy)
  · rw [hown] at hy
    rw [hown, hown] at hyz
    by_cases hyx : y = x <;> by_cases hzx : z = x
    · rw [hyx, hzx]
    · rw [if_pos hyx] at hy hyz
      rw [if_neg hzx] at hyz
      exact absurd (h.used z (hyz ▸ hy)) (hyz ▸ hfresh)
    · rw [if_neg hyx] at hy hyz
      rw [if_pos hzx] at hyz
      exact absurd (h.used y hy) (hyz ▸ hfresh)
    · rw [if_neg hyx] at hy hyz
      rw [if_neg hzx] at hyz
      exact h.inj y z hy hyz

/-- Emptying places, and giving back resources that no place holds any more. -/
theorem Exclusive.release (h : Exclusive hole used own) (hown : ∀ y, own' y = own y ∨ own' y = hole)
    (hkept : ∀ y, own' y ≠ hole → used (own' y) → used' (own' y)) :
    Exclusive hole used' own' := by
  have hsame : ∀ y, own' y ≠ hole → own' y = own y := fun y hy => (hown y).resolve_right hy
  refine ⟨fun y hy => ?_, fun y z hy hyz => ?_⟩
  · have heq := hsame y hy
    exact hkept y hy (heq ▸ h.used y (heq ▸ hy))
  · have hz : own' z ≠ hole := hyz ▸ hy
    rw [hsame y hy, hsame z hz] at hyz
    rw [hsame y hy] at hy
    exact h.inj y z hy hyz

/-- The places `B` without `A` and the resources `D` without `C` correspond to each
other: where places have been filled, as many resources have been taken. -/
theorem card_add_card_eq [DecidableEq ι] [DecidableEq β] {A B : Finset ι} {C D : Finset β}
    {f : ι → β} (hAB : A ⊆ B) (hCD : C ⊆ D) (hmap : ∀ x ∈ B, x ∉ A → f x ∈ D ∧ f x ∉ C)
    (hinj : ∀ x ∈ B, ∀ y ∈ B, x ∉ A → f x = f y → x = y)
    (hsurj : ∀ c ∈ D, c ∉ C → ∃ x ∈ B, x ∉ A ∧ f x = c) :
    B.card + C.card = A.card + D.card := by
  have hcard : (B \ A).card = (D \ C).card := by
    apply card_bij fun x _ => f x
    · intro x hx
      rw [mem_sdiff] at hx ⊢
      exact hmap x hx.1 hx.2
    · intro x hx y hy heq
      rw [mem_sdiff] at hx hy
      exact hinj x hx.1 y hy.1 hx.2 heq
    · intro c hc
      rw [mem_sdiff] at hc
      obtain ⟨x, hx, hxA, heq⟩ := hsurj c hc.1 hc.2
      exact ⟨x, mem_sdiff.mpr ⟨hx, hxA⟩, heq⟩
  rw [← card_sdiff_add_card_eq_card hAB, ← card_sdiff_add_card_eq_card hCD, hcard]
  omega

end Osx64.Ownership
