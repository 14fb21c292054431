import Mathlib.Algebra.Ring.Nat
import Mathlib.Data.Finset.Erase
import Mathlib.Data.Finset.Insert

/-!
# Parents and children

A task points to its parent, and the parent has a list of its children (`parent`, `childs` and
`child_list_item` of `pcb_t`).  `put_thread` adds a task to the list, `sys_exit` hands the
children of the task over to init, and `sys_waitpid` takes a child off the list that has ended.
-/

namespace Osx64.Task

open Function Option List

structure Family where
  parent : Nat → Option Nat
  childs : Nat → List Nat

namespace Family

variable (fam : Family)

/-- `put_thread`, the part about the parent -/
def addChild (t : Nat) : Option Nat → Family
  | none => { fam with parent := update fam.parent t none }
  | some p =>
    { parent := update fam.parent t (some p)
      childs := update fam.childs p (fam.childs p ++ [t]) }

/-- `sys_exit`, the section with the locks of both lists: the children of `t` are put in front of
those of init. -/
def handOver (t init : Nat) : Family where
  parent := fun z => if z ∈ fam.childs t then some init else fam.parent z
  childs := update (update fam.childs init (fam.childs t ++ fam.childs init)) t []

/-- `list_del(&child->child_list_item)` -/
def delChild (p z : Nat) : Family :=
  { fam with childs := update fam.childs p ((fam.childs p).erase z) }

/-- The list of a task has exactly the tasks that point to it and have not been waited for. -/
structure Ok (fam : Family) (unreaped : Finset Nat) : Prop where
  mem : ∀ p z, z ∈ fam.childs p ↔ z ∈ unreaped ∧ fam.parent z = some p
  nodup : ∀ p, (fam.childs p).Nodup

section Ok

variable {fam : Family} {unreaped : Finset Nat} {t p z init : Nat}

theorem Ok.addChild (h : fam.Ok unreaped) (ht : t ∉ unreaped) (parent : Option Nat) :
    (fam.addChild t parent).Ok (insert t unreaped) := by
  have hnone : ∀ q, t ∉ fam.childs q := fun q hmem => ht ((h.mem q t).mp hmem).1
  have hold : ∀ q z, z ≠ t → (z ∈ fam.childs q ↔
      z ∈ insert t unreaped ∧ update fam.parent t parent z = some q) := by
    intro q z hz
    rw [Finset.mem_insert, or_iff_right hz, update_of_ne hz]
    exact h.mem q z
  cases parent with
  | none =>
    refine ⟨fun q z => ?_, h.nodup⟩
    by_cases hz : z = t
    · subst hz
      refine ⟨fun hmem => absurd hmem (hnone q), fun hmem => ?_⟩
      have hpar : update fam.parent z none z = some q := hmem.2
      rw [update_self] at hpar
      cases hpar
    · exact hold q z hz
  | some p =>
    refine ⟨fun q z => ?_, fun q => ?_⟩
    · change z ∈ update fam.childs p (fam.childs p ++ [t]) q ↔
        z ∈ insert t unreaped ∧ update fam.parent t (some p) z = some q
      by_cases hz : z = t
      · subst hz
        rw [update_self, some_inj, update_apply]
        split
        · next heq => simp [heq]
        · next hne => exact ⟨fun hmem => absurd hmem (hnone q), fun hmem => absurd hmem.2.symm hne⟩
      · rw [← hold q z hz, update_apply]
        split
        · next heq => simp [heq, hz]
        · exact Iff.rfl
    · simp only [Family.addChild, update_apply]
      split
      · rw [← concat_eq_append]
        exact .concat (hnone p) (h.nodup p)
      · exact h.nodup q

/-- The tasks that `handOver` gives to init. -/
theorem mem_childs_handOver (hinit : t ≠ init) :
    z ∈ (fam.handOver t init).childs p ↔
      p ≠ t ∧ (z ∈ fam.childs p ∨ p = init ∧ z ∈ fam.childs t) := by
  unfold Family.handOver
  by_cases hpt : p = t
  · simp [hpt]
  · by_cases hpi : p = init
    · subst hpi
      simp [hpt, or_comm]
    · simp [hpt, hpi]

theorem Ok.handOver (h : fam.Ok unreaped) (hinit : t ≠ init) :
    (fam.handOver t init).Ok unreaped := by
  refine ⟨fun p z => ?_, fun p => ?_⟩
  · rw [mem_childs_handOver hinit]
    change _ ↔ z ∈ unreaped ∧ (if z ∈ fam.childs t then some init else fam.parent z) = some p
    by_cases hz : z ∈ fam.childs t
    · obtain ⟨hun, hpar⟩ := (h.mem t z).mp hz
      rw [if_pos hz, some_inj]
      constructor
      · rintro ⟨hpt, hmem | ⟨rfl, -⟩⟩
        · have hpar' := ((h.mem p z).mp hmem).2
          rw [hpar, some_inj] at hpar'
          exact absurd hpar'.symm hpt
        · exact ⟨hun, rfl⟩
      · rintro ⟨-, rfl⟩
        exact ⟨hinit.symm, .inr ⟨rfl, hz⟩⟩
    · rw [if_neg hz, ← h.mem p z]
      constructor
      · rintro ⟨-, hmem | ⟨-, hmem⟩⟩
        · exact hmem
        · exact absurd hmem hz
      · exact fun hmem => ⟨fun heq => hz (heq ▸ hmem), .inl hmem⟩
  · simp only [Family.handOver, update_apply]
    split
    · exact nodup_nil
    split
    · refine nodup_append.mpr ⟨h.nodup t, h.nodup init, fun a ha b hb heq => ?_⟩
      have hpar := ((h.mem t a).mp ha).2
      have hpar' := ((h.mem init a).mp (heq ▸ hb)).2
      rw [hpar, some_inj] at hpar'
      exact hinit hpar'
    · exact h.nodup p

theorem Ok.delChild (h : fam.Ok unreaped) (hz : z ∈ fam.childs p) :
    (fam.delChild p z).Ok (unreaped.erase z) := by
  refine ⟨fun q y => ?_, fun q => ?_⟩
  · rw [Finset.mem_erase, and_assoc]
    change y ∈ update fam.childs p ((fam.childs p).erase z) q ↔
      y ≠ z ∧ y ∈ unreaped ∧ fam.parent y = some q
    rw [← h.mem q y, update_apply]
    split
    · next heq => rw [heq, (h.nodup p).mem_erase_iff]
    · next hne =>
      refine ⟨fun hmem => ⟨?_, hmem⟩, And.right⟩
      rintro rfl
      have hpar := ((h.mem p y).mp hz).2
      have hpar' := ((h.mem q y).mp hmem).2
      rw [hpar, some_inj] at hpar'
      exact hne hpar'.symm
  · simp only [Family.delChild, update_apply]
    split
    · exact (h.nodup p).erase z
    · exact h.nodup q

end Ok

end Family

end Osx64.Task
