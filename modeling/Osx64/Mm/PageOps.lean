import Osx64.Mm.PageInvariant

/-!
# One step of the page allocator

For each operation: on a pool whose cached fields are right it never stops in
the search for the next free page, what it returns was free, and the pool it
leaves is right again.
-/

namespace Osx64.Mm

open Function List Except Prod

variable {s s' : PagePool} {a : PhysicAreaItem} {n ret : Nat} {p : Nat}

/-! ## `alloc_page_4k` -/

/-- The pool after the lowest free page `p` of area `i` was handed out. -/
def tookPage (s : PagePool) (a : PhysicAreaItem) (i p nfpa : Nat) : PagePool :=
  { s with
    mrt := Function.update s.mrt p 1
    pais := s.pais.set i { a with fpp := a.fpp - 1, nfpa := nfpa } }

theorem takenRun_one (mrt : Nat → UInt8) :
    TakenRun mrt (update mrt p 1) 1 p := by
  intro j
  split
  · rw [show j = p by omega, update_self]
    decide
  · rw [update_of_ne (by omega)]

variable {mrt : Nat → UInt8} {i index addr : Nat} {r : UInt8}

theorem freeRun_one (h : FreeAt mrt a p) :
    FreeRun mrt a 1 p := by
  obtain ⟨h1, h2, h3⟩ := h
  refine ⟨h1, h2, fun k hk => ?_⟩
  rw [show p + k = p by omega, isFree_iff]
  exact h3

/-- `alloc_page_4k` on an area with a free page hands out the lowest one.  The
search for the next one starts at the page just taken, below every other free
page. -/
theorem allocPage4kIn_eq (harea : AreaOk s.mrt a) (hpos : a.fpp ≠ 0) :
    ∃ p nfpa, LowestFree s.mrt a p ∧
      allocPage4kIn s a i = .ok (p * 4096, tookPage s a i p nfpa) ∧
      (0 < a.fpp - 1 →
        ∃ q, nfpa = q * 4096 ∧ LowestFree (update s.mrt p 1) a q) := by
  obtain ⟨p, hp, hlow⟩ := harea.nfpa_lowest (Nat.pos_of_ne_zero hpos)
  have hpage : a.nfpa / 4096 = p := by omega
  have hone : s.mrt p + 1 = 1 := by rw [hlow.1.2.2]; rfl
  by_cases hlast : a.fpp - 1 = 0
  · refine ⟨p, a.nfpa, hlow, ?_, fun h => absurd hlast (by omega)⟩
    simp only [allocPage4kIn, hpage, hone, hlast, ne_eq, not_true_eq_false, if_false,
      tookPage, ← hp]
  · have hcount := freePages_taken (freeRun_one hlow.1) (takenRun_one s.mrt)
    have hfpp := harea.fpp_eq
    have hbelow : ∀ q, FreeAt (update s.mrt p 1) a q → p ≤ q := fun q hq =>
      hlow.2 q (freeAt_of_taken (takenRun_one _) hq)
    obtain ⟨q, hfirst, hnext⟩ := first_lowest hlow.1.1 hbelow (by omega)
    refine ⟨p, q * 4096, hlow, ?_, fun _ => ⟨q, rfl, hnext⟩⟩
    simp only [allocPage4kIn, hpage, hone, ne_eq, hlast, not_false_eq_true, if_true, hfirst,
      tookPage, ← hp]

theorem getElem?_of_mem_zipIdx {pais : List PhysicAreaItem}
    (h : (a, i) ∈ pais.zipIdx) : pais[i]? = some a :=
  mk_mem_zipIdx_iff_getElem?.mp h

/-- What `alloc_page_4k` does on a sound pool. -/
theorem allocPage4k_cases (h : PoolOk s) :
    allocPage4k s = .error .outOfMemory ∧ (∀ a ∈ s.pais, a.fpp = 0) ∨
    ∃ a i p nfpa, s.pais[i]? = some a ∧ LowestFree s.mrt a p ∧
      allocPage4k s = .ok (p * 4096, tookPage s a i p nfpa) ∧
      PoolOk (tookPage s a i p nfpa) := by
  unfold allocPage4k
  cases hfind : s.pais.zipIdx.find? fun ai => ai.1.fpp ≠ 0 with
  | none =>
    refine Or.inl ⟨rfl, fun a ha => ?_⟩
    obtain ⟨i, hi, rfl⟩ := getElem_of_mem ha
    have hmem := mk_mem_zipIdx_iff_getElem?.mpr (getElem?_eq_getElem hi)
    have := find?_eq_none.mp hfind _ hmem
    simpa using this
  | some ai =>
    obtain ⟨a, i⟩ := ai
    have hget := getElem?_of_mem_zipIdx (mem_of_find?_eq_some hfind)
    have hpos : a.fpp ≠ 0 := by simpa using find?_some hfind
    have harea := h.areas a (mem_of_getElem? hget)
    obtain ⟨p, nfpa, hlow, heq, hnfpa⟩ := allocPage4kIn_eq (i := i) harea hpos
    exact Or.inr ⟨a, i, p, nfpa, hget, hlow, heq,
      h.take hget (freeRun_one hlow.1) (takenRun_one _) hnfpa⟩

/-! ## `alloc_n_pages_4k` -/

/-- The pool after the run of `n` free pages at `ret` was handed out. -/
def tookRun (s : PagePool) (n : Nat) (a : PhysicAreaItem) (i ret nfpa : Nat) : PagePool :=
  { s with
    mrt := fillMrt s.mrt ret 1 n
    pais := s.pais.set i { a with fpp := a.fpp - n, nfpa := nfpa } }

theorem takenRun_fill (mrt : Nat → UInt8) :
    TakenRun mrt (fillMrt mrt ret 1 n) n ret := by
  intro j
  unfold fillMrt
  split
  · decide
  · rfl

section

variable (harea : AreaOk s.mrt a) (hn : 0 < n)
include harea hn

theorem runInArea_eq_some (hrun : runInArea s.mrt n a = some ret) : FreeRun s.mrt a n ret := by
  unfold runInArea at hrun
  split at hrun
  · rename_i hle
    obtain ⟨p, hp, hlow⟩ := harea.nfpa_lowest (by omega)
    obtain ⟨h1, h2, h3⟩ := Scan.isRun_of_firstRun hrun
    have hspa := hlow.1.1
    exact ⟨by omega, h2, h3⟩
  · exact absurd hrun (by simp)

/-- Starting at the cached lowest free page loses no run. -/
theorem runInArea_isSome (hrun : FreeRun s.mrt a n ret) : (runInArea s.mrt n a).isSome := by
  have hcount := Scan.count_clear hrun
  have hfpp := harea.fpp_eq
  have hroom : n ≤ a.fpp := by
    rw [hfpp, freePages]
    omega
  rw [runInArea, if_pos hroom, Scan.firstRun_isSome_iff hn]
  obtain ⟨p, hp, hlow⟩ := harea.nfpa_lowest (by omega)
  obtain ⟨h1, h2, h3⟩ := hrun
  have hfirst : FreeAt s.mrt a ret := ⟨h1, by omega, isFree_iff.mp (h3 0 hn)⟩
  have := hlow.2 ret hfirst
  exact ⟨ret, by omega, h2, h3⟩

end

theorem takeRun_eq (harea : AreaOk s.mrt a) (hrun : FreeRun s.mrt a n ret) :
    ∃ nfpa, takeRun s n a i ret = .ok (ret * 4096, tookRun s n a i ret nfpa) ∧
      (0 < a.fpp - n →
        ∃ q, nfpa = q * 4096 ∧ LowestFree (fillMrt s.mrt ret 1 n) a q) := by
  have hcount := freePages_taken hrun (takenRun_fill s.mrt)
  have hfpp := harea.fpp_eq
  by_cases hlast : a.fpp - n = 0
  · refine ⟨a.nfpa, ?_, fun h => absurd hlast (by omega)⟩
    simp only [takeRun, hlast, ne_eq, not_true_eq_false, if_false, tookRun]
  · obtain ⟨p, hp, hlow⟩ := harea.nfpa_lowest (by omega)
    have hbelow : ∀ q, FreeAt (fillMrt s.mrt ret 1 n) a q → a.nfpa / 4096 ≤ q := by
      intro q hq
      have := hlow.2 q (freeAt_of_taken (takenRun_fill _) hq)
      omega
    have hspa := hlow.1.1
    obtain ⟨q, hfirst, hnext⟩ := first_lowest (by omega) hbelow (by omega)
    refine ⟨q * 4096, ?_, fun _ => ⟨q, rfl, hnext⟩⟩
    simp only [takeRun, ne_eq, hlast, not_false_eq_true, if_true, hfirst, tookRun]

/-- What `alloc_n_pages_4k` does on a sound pool: it takes a run of one area, or
no area has a run and nothing changes. -/
theorem allocNPages4k_cases (h : PoolOk s) {n : Nat} (hn : 0 < n) :
    allocNPages4k s n = .ok (0, s) ∧ (∀ a ∈ s.pais, ∀ ret, ¬ FreeRun s.mrt a n ret) ∨
    ∃ a i ret nfpa, s.pais[i]? = some a ∧ FreeRun s.mrt a n ret ∧
      allocNPages4k s n = .ok (ret * 4096, tookRun s n a i ret nfpa) ∧
      PoolOk (tookRun s n a i ret nfpa) := by
  rw [allocNPages4k, if_neg (by omega)]
  cases hfind : s.pais.zipIdx.findSome? fun ai =>
      (runInArea s.mrt n ai.1).map fun ret => (ai, ret) with
  | none =>
    refine Or.inl ⟨rfl, fun a ha ret hrun => ?_⟩
    obtain ⟨i, hi, rfl⟩ := getElem_of_mem ha
    have hmem := mk_mem_zipIdx_iff_getElem?.mpr (getElem?_eq_getElem hi)
    have hnone := findSome?_eq_none_iff.mp hfind _ hmem
    have hsome := runInArea_isSome (h.areas _ ha) hn hrun
    simp [Option.map_eq_none_iff.mp hnone] at hsome
  | some r =>
    obtain ⟨ai, hmem, hmap⟩ := exists_of_findSome?_eq_some hfind
    obtain ⟨ret, hret, rfl⟩ := Option.map_eq_some_iff.mp hmap
    obtain ⟨a, i⟩ := ai
    have hget := getElem?_of_mem_zipIdx hmem
    have harea := h.areas a (mem_of_getElem? hget)
    have hrun := runInArea_eq_some harea hn hret
    obtain ⟨nfpa, heq, hnfpa⟩ := takeRun_eq (i := i) harea hrun
    exact Or.inr ⟨a, i, ret, nfpa, hget, hrun, heq, h.take hget hrun (takenRun_fill _) hnfpa⟩

/-! ## Reference counts -/

theorem uint8_succ_ne_zero {x : UInt8} (h : x ≠ 0xff) : x + 1 ≠ 0 := by grind

/-- A page whose count may change is not page zero, which is reserved. -/
theorem PoolOk.index_ne_zero (h : PoolOk s) (hne : s.mrt index ≠ 0xff) :
    index ≠ 0 := fun hz => hne (hz ▸ h.pageZero)

/-- The count of a page in use becomes another one that is not 0. -/
theorem PoolOk.setCount (h : PoolOk s) {count : UInt8}
    (href : s.mrt index ≠ 0xff ∧ s.mrt index ≠ 0) (hcount : count ≠ 0) :
    PoolOk { s with mrt := update s.mrt index count } := by
  refine h.recount ?_ fun j => ?_
  · rw [update_of_ne (h.index_ne_zero href.1).symm]
    exact h.pageZero
  by_cases hj : j = index
  · rw [hj, update_self]
    exact iff_of_false hcount href.2
  · rw [update_of_ne hj]

theorem addReferencePage4k_ok (h : PoolOk s)
    (hstep : addReferencePage4k s addr = .ok (r, s')) : PoolOk s' := by
  unfold addReferencePage4k at hstep
  simp only at hstep
  split at hstep
  · exact absurd hstep (by simp)
  · rename_i href
    push Not at href
    split at hstep
    · simp only [ok.injEq, mk.injEq] at hstep
      exact hstep.2 ▸ h
    · simp only [ok.injEq, mk.injEq] at hstep
      rw [← hstep.2]
      exact h.setCount href (uint8_succ_ne_zero href.1)

/-- An area with page `p` given back to it. -/
theorem AreaOk.release (h : AreaOk mrt a)
    (h1 : a.spa / 4096 ≤ p) (h2 : p < a.epa / 4096) (hused : mrt p ≠ 0) :
    AreaOk (update mrt p 0) (releaseInto a (p * 4096)) := by
  have hfree : ∀ q, FreeAt (update mrt p 0) a q ↔ q = p ∨ FreeAt mrt a q := by
    intro q
    unfold FreeAt
    by_cases hq : q = p
    · subst hq
      simp [h1, h2]
    · simp [hq]
  have hcount : freePages (update mrt p 0) a = freePages mrt a + 1 := by
    rw [freePages, freePages, ← Scan.count_set h1 h2 (isFree_false_iff.mpr hused)]
    apply Scan.count_congr
    intro j _ _
    by_cases hj : j = p
    · subst hj
      simp [isFree]
    · simp [isFree, hj]
  refine ⟨h.spa_aligned, h.epa_aligned, ?_, fun _ => ?_⟩
  · show a.fpp + 1 = freePages (update mrt p 0) a
    rw [hcount, h.fpp_eq]
  · show ∃ q, _ ∧ LowestFree (update mrt p 0) a q
    unfold LowestFree
    simp only [hfree, releaseInto]
    by_cases hpos : a.fpp = 0
    · -- nothing was free, so `nfpa` was stale and is overwritten
      refine ⟨p, by simp [hpos], Or.inl rfl, ?_⟩
      rintro q (rfl | hq)
      · exact le_rfl
      · have := freePages_pos_iff.mpr ⟨q, hq⟩
        rw [← h.fpp_eq] at this
        omega
    · obtain ⟨m, hm, hlow⟩ := h.nfpa_lowest (Nat.pos_of_ne_zero hpos)
      by_cases hlt : m * 4096 < p * 4096
      · refine ⟨m, by simp [hpos, hm, hlt], Or.inr hlow.1, ?_⟩
        rintro q (rfl | hq)
        · omega
        · exact hlow.2 q hq
      · refine ⟨p, by simp [hpos, hm, hlt], Or.inl rfl, ?_⟩
        rintro q (rfl | hq)
        · exact le_rfl
        · have := hlow.2 q hq
          omega

theorem decreaseReferencePage4k_ok (h : PoolOk s)
    (haligned : addr % 4096 = 0) (hstep : decreaseReferencePage4k s addr = .ok (r, s')) :
    PoolOk s' := by
  unfold decreaseReferencePage4k at hstep
  simp only at hstep
  split at hstep
  · exact absurd hstep (by simp)
  · split at hstep
    · exact absurd hstep (by simp)
    · rename_i href
      push Not at href
      split at hstep
      · rename_i hone
        split at hstep
        · rename_i a i hfind
          simp only [ok.injEq, mk.injEq] at hstep
          have hget := getElem?_of_mem_zipIdx (mem_of_find?_eq_some hfind)
          have hin : a.spa ≤ addr ∧ addr < a.epa := by simpa using find?_some hfind
          have harea := h.areas a (mem_of_getElem? hget)
          have hepa := harea.epa_aligned
          have hrel := harea.release (p := addr / 4096) (by omega) (by omega) href.2
          rw [show addr / 4096 * 4096 = addr by omega] at hrel
          rw [← hstep.2, hone]
          refine h.amend hget rfl ?_ ?_ hrel
          · rw [update_of_ne (h.index_ne_zero href.1).symm]
            exact h.pageZero
          · intro j hj
            rw [update_of_ne]
            omega
        · exact absurd hstep (by simp)
      · rename_i hmore
        simp only [ok.injEq, mk.injEq] at hstep
        rw [← hstep.2]
        exact h.setCount href hmore

end Osx64.Mm
