import Osx64.Mm.Page

/-!
# What the page allocator keeps

`AreaOk` says that an area's cached fields describe the reference table: `fpp`
counts the free pages, and while it is positive `nfpa` is the lowest of them.
`nfpa` is stale while `fpp` is zero, so nothing is said about it there.
`PoolOk` asks this of every area, together with the separation of the areas that
makes an update of one invisible to the others.

Every operation changes one area and the table entries of that area only;
`PoolOk.amend` is the one place where the frame argument is made.
-/

namespace Osx64.Mm

open List

/-- The number of pages of the area whose reference count is zero. -/
def freePages (mrt : Nat → UInt8) (a : PhysicAreaItem) : Nat :=
  Scan.count (isFree mrt) (a.spa / 4096) (a.epa / 4096)

/-- Page `p` of the area has reference count zero. -/
def FreeAt (mrt : Nat → UInt8) (a : PhysicAreaItem) (p : Nat) : Prop :=
  a.spa / 4096 ≤ p ∧ p < a.epa / 4096 ∧ mrt p = 0

/-- Page `p` is the lowest free page of the area. -/
def LowestFree (mrt : Nat → UInt8) (a : PhysicAreaItem) (p : Nat) : Prop :=
  FreeAt mrt a p ∧ ∀ q, FreeAt mrt a q → p ≤ q

structure AreaOk (mrt : Nat → UInt8) (a : PhysicAreaItem) : Prop where
  spa_aligned : a.spa % 4096 = 0
  epa_aligned : a.epa % 4096 = 0
  fpp_eq : a.fpp = freePages mrt a
  nfpa_lowest : 0 < a.fpp → ∃ p, a.nfpa = p * 4096 ∧ LowestFree mrt a p

/-- The address range of an area. -/
def extent (a : PhysicAreaItem) : Nat × Nat := (a.spa, a.epa)

structure PoolOk (s : PagePool) : Prop where
  areas : ∀ a ∈ s.pais, AreaOk s.mrt a
  sorted : (s.pais.map extent).Pairwise fun x y => x.2 ≤ y.1
  pageZero : s.mrt 0 = 0xff

/-! ## The free test -/

variable {mrt : Nat → UInt8} {j nfpa : Nat} {a' : PhysicAreaItem}

theorem isFree_iff : isFree mrt j = true ↔ mrt j = 0 := by
  simp [isFree]

theorem isFree_false_iff : isFree mrt j = false ↔ mrt j ≠ 0 := by
  simp [isFree]

theorem freePages_pos_iff {a : PhysicAreaItem} :
    0 < freePages mrt a ↔ ∃ p, FreeAt mrt a p := by
  simp only [freePages, Scan.count_pos_iff, isFree_iff, FreeAt]

theorem AreaOk.congr {mrt' : Nat → UInt8} {a : PhysicAreaItem} (h : AreaOk mrt a)
    (hsame : ∀ j, a.spa / 4096 ≤ j → j < a.epa / 4096 → mrt' j = mrt j) : AreaOk mrt' a := by
  have hfree : ∀ p, FreeAt mrt' a p ↔ FreeAt mrt a p := by
    intro p
    constructor
    · intro ⟨h1, h2, h3⟩
      exact ⟨h1, h2, by rw [← hsame p h1 h2, h3]⟩
    · intro ⟨h1, h2, h3⟩
      exact ⟨h1, h2, by rw [hsame p h1 h2, h3]⟩
  refine ⟨h.spa_aligned, h.epa_aligned, ?_, fun hpos => ?_⟩
  · rw [h.fpp_eq]
    apply Scan.count_congr
    intro j h1 h2
    simp only [isFree, hsame j h1 h2]
  · obtain ⟨p, hp, hlow⟩ := h.nfpa_lowest hpos
    refine ⟨p, hp, ?_⟩
    unfold LowestFree at hlow ⊢
    simpa only [hfree] using hlow

/-! ## Updating one area -/

theorem map_extent_set {pais : List PhysicAreaItem} {i : Nat} {a : PhysicAreaItem}
    (hget : pais[i]? = some a) (hextent : extent a' = extent a) :
    (pais.set i a').map extent = pais.map extent := by
  obtain ⟨hlt, hi⟩ := List.getElem?_eq_some_iff.mp hget
  apply ext_getElem (by simp)
  intro k h1 h2
  simp only [getElem_map, getElem_set]
  split
  · rename_i hk
    subst hk
    rw [hextent, hi]
  · rfl

/-- Two different areas share no page. -/
theorem PoolOk.disjoint {s : PagePool} (h : PoolOk s) {i k : Nat} {a b : PhysicAreaItem}
    (hi : s.pais[i]? = some a) (hk : s.pais[k]? = some b) (hne : i ≠ k) :
    a.epa ≤ b.spa ∨ b.epa ≤ a.spa := by
  obtain ⟨hi', rfl⟩ := List.getElem?_eq_some_iff.mp hi
  obtain ⟨hk', rfl⟩ := List.getElem?_eq_some_iff.mp hk
  have hp := pairwise_iff_getElem.mp (pairwise_map.mp h.sorted)
  rcases Nat.lt_or_gt_of_ne hne with hlt | hlt
  · exact Or.inl (hp i k hi' hk' hlt)
  · exact Or.inr (hp k i hk' hi' hlt)

/-- The frame argument: an operation that replaces area `i` by one with the same
extent, describes it correctly, and touches no table entry outside it, keeps the
invariant of the whole pool. -/
theorem PoolOk.amend {s : PagePool} (h : PoolOk s) {i : Nat} {a : PhysicAreaItem}
    {mrt' : Nat → UInt8} (hget : s.pais[i]? = some a) (hextent : extent a' = extent a)
    (hzero : mrt' 0 = 0xff)
    (hframe : ∀ j, ¬(a.spa / 4096 ≤ j ∧ j < a.epa / 4096) → mrt' j = s.mrt j)
    (hok : AreaOk mrt' a') : PoolOk { s with mrt := mrt', pais := s.pais.set i a' } := by
  refine ⟨fun b hb => ?_, ?_, hzero⟩
  · obtain ⟨k, hk, rfl⟩ := getElem_of_mem hb
    have hk' : k < s.pais.length := by simpa using hk
    rw [getElem_set]
    split
    · exact hok
    · rename_i hne
      apply (h.areas _ (getElem_mem hk')).congr
      intro j h1 h2
      apply hframe
      have hdisj := h.disjoint hget (List.getElem?_eq_getElem hk') hne
      omega
  · rw [map_extent_set hget hextent]
    exact h.sorted

/-- An operation that changes table entries without making a page free or
taking a free one leaves every cached field right. -/
theorem PoolOk.recount {s : PagePool} (h : PoolOk s) {mrt' : Nat → UInt8}
    (hzero : mrt' 0 = 0xff) (hsame : ∀ j, mrt' j = 0 ↔ s.mrt j = 0) :
    PoolOk { s with mrt := mrt' } := by
  refine ⟨fun a ha => ?_, h.sorted, hzero⟩
  have hfree : isFree mrt' = isFree s.mrt := by
    funext j
    rw [Bool.eq_iff_iff, isFree_iff, isFree_iff, hsame]
  have hat : ∀ p, FreeAt mrt' a p ↔ FreeAt s.mrt a p := by
    intro p
    simp only [FreeAt, hsame]
  have hold := h.areas a ha
  refine ⟨hold.spa_aligned, hold.epa_aligned, ?_, fun hpos => ?_⟩
  · rw [hold.fpp_eq, freePages, freePages, hfree]
  · obtain ⟨p, hp, hlow⟩ := hold.nfpa_lowest hpos
    refine ⟨p, hp, ?_⟩
    unfold LowestFree at hlow ⊢
    simpa only [hat] using hlow

/-! ## Taking a run of free pages out of an area

Both allocators take a run of free pages and then look for the new lowest free
page: `alloc_page_4k` from the page it took, `__alloc_n_pages_4k_locked` from the
old lowest free page.  Both start at or below every page that is still free. -/

/-- The run `[ret, ret + n)` of free pages of an area. -/
def FreeRun (mrt : Nat → UInt8) (a : PhysicAreaItem) (n ret : Nat) : Prop :=
  Scan.IsRun (isFree mrt) n (a.spa / 4096) (a.epa / 4096) ret

/-- The table after a run of free pages got non-zero counts. -/
def TakenRun (mrt mrt' : Nat → UInt8) (n ret : Nat) : Prop :=
  ∀ j, if ret ≤ j ∧ j < ret + n then mrt' j ≠ 0 else mrt' j = mrt j

theorem freePages_taken {mrt' : Nat → UInt8} {a : PhysicAreaItem} {n ret : Nat}
    (hrun : FreeRun mrt a n ret) (htaken : TakenRun mrt mrt' n ret) :
    freePages mrt' a + n = freePages mrt a := by
  have hclear := Scan.count_clear hrun
  rw [freePages, freePages, ← hclear]
  congr 1
  apply Scan.count_congr
  intro j _ _
  have hj := htaken j
  by_cases hin : ret ≤ j ∧ j < ret + n
  · rw [if_pos hin] at hj
    simp [isFree, hj, hin]
  · rw [if_neg hin] at hj
    rw [not_and_or] at hin
    simp only [isFree, hj]
    rcases hin with hin | hin <;> simp [hin]

theorem freeAt_of_taken {mrt' : Nat → UInt8} {a : PhysicAreaItem} {n ret q : Nat}
    (htaken : TakenRun mrt mrt' n ret) (hq : FreeAt mrt' a q) :
    FreeAt mrt a q := by
  obtain ⟨h1, h2, h3⟩ := hq
  have hj := htaken q
  by_cases hin : ret ≤ q ∧ q < ret + n
  · rw [if_pos hin] at hj
    exact absurd h3 hj
  · rw [if_neg hin] at hj
    exact ⟨h1, h2, hj ▸ h3⟩

/-- While free pages remain, the search for the next one succeeds, and what it
finds is the lowest. -/
theorem first_lowest {a : PhysicAreaItem} {lo : Nat}
    (hspa : a.spa / 4096 ≤ lo) (hlo : ∀ q, FreeAt mrt a q → lo ≤ q) (hpos : 0 < freePages mrt a) :
    ∃ p, Scan.first (isFree mrt) lo (a.epa / 4096) = some p ∧ LowestFree mrt a p := by
  cases hfind : Scan.first (isFree mrt) lo (a.epa / 4096) with
  | none =>
    obtain ⟨q, hq⟩ := freePages_pos_iff.mp hpos
    have := Scan.first_eq_none.mp hfind q (hlo q hq) hq.2.1
    exact absurd hq.2.2 (isFree_false_iff.mp this)
  | some p =>
    obtain ⟨h1, h2, h3, h4⟩ := Scan.first_eq_some.mp hfind
    refine ⟨p, rfl, ⟨by omega, h2, isFree_iff.mp h3⟩, fun q hq => ?_⟩
    by_contra hlt
    exact isFree_false_iff.mp (h4 q (hlo q hq) (by omega)) hq.2.2

section Take

variable {s : PagePool} {a : PhysicAreaItem} {i n ret : Nat} {mrt' : Nat → UInt8}

/-- An area with a run taken out, its counter lowered and `nfpa` moved to the
lowest page still free. -/
theorem AreaOk.take (h : AreaOk s.mrt a) (hrun : FreeRun s.mrt a n ret)
    (htaken : TakenRun s.mrt mrt' n ret)
    (hnfpa : 0 < a.fpp - n → ∃ p, nfpa = p * 4096 ∧ LowestFree mrt' a p) :
    AreaOk mrt' { a with fpp := a.fpp - n, nfpa := nfpa } := by
  have hcount := freePages_taken hrun htaken
  have hfpp := h.fpp_eq
  refine ⟨h.spa_aligned, h.epa_aligned, ?_, hnfpa⟩
  show a.fpp - n = freePages mrt' a
  omega

theorem PoolOk.take (h : PoolOk s) (hget : s.pais[i]? = some a)
    (hrun : FreeRun s.mrt a n ret) (htaken : TakenRun s.mrt mrt' n ret)
    (hnfpa : 0 < a.fpp - n → ∃ p, nfpa = p * 4096 ∧ LowestFree mrt' a p) :
    PoolOk { s with
      mrt := mrt',
      pais := s.pais.set i { a with fpp := a.fpp - n, nfpa := nfpa } } := by
  have harea := h.areas a (mem_of_getElem? hget)
  refine h.amend hget rfl ?_ ?_ (harea.take hrun htaken hnfpa)
  · have hz := htaken 0
    rw [if_neg] at hz
    · rw [hz]
      exact h.pageZero
    · intro hin
      have hfree := hrun.2.2 (0 - ret) (by omega)
      rw [show ret + (0 - ret) = 0 by omega, isFree_iff, h.pageZero] at hfree
      exact absurd hfree (by decide)
  · intro j hj
    have htj := htaken j
    rw [if_neg] at htj
    · exact htj
    · obtain ⟨h1, h2, _⟩ := hrun
      omega

end Take

end Osx64.Mm
