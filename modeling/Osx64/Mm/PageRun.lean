import Osx64.Lib.Run
import Osx64.Mm.PageOps

/-!
# Every run of the page allocator

The invariant holds when `set_mrt_table` returns, for every memory map whose
available ranges are sorted and disjoint, and every operation keeps it; so it
holds in every state the allocator can reach.
-/

namespace Osx64.Mm

open List Except Nat Prod

/-! ## The areas `get_total_memory` builds -/

/-- The available ranges are sorted and disjoint, and end at `MAX_MEM_SUPPORTED` at the latest. -/
structure MultibootInfo.Sorted (info : MultibootInfo) : Prop where
  pairwise : (info.entries.filter fun e => e.type = memoryAvailable).Pairwise
    fun e f => e.addr + e.len ≤ f.addr
  range_end : ∀ e ∈ info.entries, e.type = memoryAvailable → e.addr + e.len ≤ 2 ^ 40

/-- An area as `get_total_memory` writes it. -/
structure RawArea (a : PhysicAreaItem) : Prop where
  spa_aligned : a.spa % 4096 = 0
  epa_aligned : a.epa % 4096 = 0
  nonempty : a.spa < a.epa
  epa_le : a.epa ≤ 2 ^ 40
  fpp_eq : a.fpp = (a.epa - a.spa) / 4096
  nfpa_eq : a.nfpa = a.spa

/-- The accumulator of `get_total_memory`: raw areas, sorted, and `hpa` at least
4 GiB and behind all of them. -/
structure RawAreas (acc : Nat × List PhysicAreaItem) : Prop where
  raw : ∀ a ∈ acc.2, RawArea a
  sorted : acc.2.Pairwise fun a b => a.epa ≤ b.spa
  hpa_ge : 0x100000000 ≤ acc.1
  hpa_le : acc.1 ≤ 2 ^ 40
  below : ∀ a ∈ acc.2, a.epa ≤ acc.1

variable {acc acc' : Nat × List PhysicAreaItem} {info : MultibootInfo} {mrt : Nat → UInt8}
  {a : PhysicAreaItem} {start count j addr n : Nat} {value : UInt8}

theorem addEntry_raw {e : MmapEntry} (h : RawAreas acc)
    (hend : e.type = memoryAvailable → e.addr + e.len ≤ 2 ^ 40)
    (hbefore : e.type = memoryAvailable → ∀ a ∈ acc.2, a.epa ≤ e.addr)
    (hstep : addEntry acc e = .ok acc') :
    RawAreas acc' ∧ ∀ a ∈ acc'.2, a ∈ acc.2 ∨ a.epa ≤ e.addr + e.len ∧
    e.type = memoryAvailable := by
  unfold addEntry at hstep
  split at hstep
  · rename_i hav
    have hspa : u64 (e.addr + 0xfff) = e.addr + 0xfff := mod_eq_of_lt (by omega)
    have hepa : u64 (e.addr + e.len) = e.addr + e.len := mod_eq_of_lt (by omega)
    simp only [hspa, hepa, pageDown] at hstep
    split at hstep
    · split at hstep
      · rename_i hlt
        simp only [ok.injEq] at hstep
        subst hstep
        refine ⟨⟨?_, ?_, ?_, ?_, ?_⟩, ?_⟩
        · intro a ha
          rcases mem_append.mp ha with ha | ha
          · exact h.raw a ha
          · rw [mem_singleton.mp ha]
            exact ⟨by simp, by simp, hlt, by simp only; omega, rfl, rfl⟩
        · rw [pairwise_append]
          refine ⟨h.sorted, pairwise_singleton _ _, ?_⟩
          intro a ha b hb
          rw [mem_singleton.mp hb]
          have := hbefore hav a ha
          simp only
          omega
        · have := h.hpa_ge
          simp only
          split <;> omega
        · have := h.hpa_le
          simp only
          split <;> omega
        · intro a ha
          rcases mem_append.mp ha with ha | ha
          · have := h.below a ha
            simp only
            split <;> omega
          · rw [mem_singleton.mp ha]
            simp only
            split <;> omega
        · intro a ha
          rcases mem_append.mp ha with ha | ha
          · exact Or.inl ha
          · rw [mem_singleton.mp ha]
            exact Or.inr ⟨by simp only; omega, hav⟩
      · simp only [ok.injEq] at hstep
        exact ⟨hstep ▸ h, fun a ha => Or.inl (hstep ▸ ha)⟩
    · exact absurd hstep (by simp)
  · simp only [ok.injEq] at hstep
    exact ⟨hstep ▸ h, fun a ha => Or.inl (hstep ▸ ha)⟩

theorem foldlM_addEntry_raw {entries : List MmapEntry} (h : RawAreas acc)
    (hsorted : (entries.filter fun e => e.type = memoryAvailable).Pairwise
      fun e f => e.addr + e.len ≤ f.addr)
    (hend : ∀ e ∈ entries, e.type = memoryAvailable → e.addr + e.len ≤ 2 ^ 40)
    (hbefore : ∀ e ∈ entries, e.type = memoryAvailable → ∀ a ∈ acc.2, a.epa ≤ e.addr)
    (hfold : entries.foldlM addEntry acc = .ok acc') : RawAreas acc' := by
  induction entries generalizing acc with
  | nil =>
    simp only [foldlM_nil, pure, Except.pure, ok.injEq] at hfold
    exact hfold ▸ h
  | cons e rest ih =>
    rw [foldlM_cons] at hfold
    cases hstep : addEntry acc e with
    | error err => simp [hstep, bind, Except.bind] at hfold
    | ok mid =>
      simp only [hstep, bind, Except.bind] at hfold
      obtain ⟨hmid, hnew⟩ := addEntry_raw h (hend e (mem_cons_self ..))
        (hbefore e (mem_cons_self ..)) hstep
      refine ih hmid (hsorted.sublist ((sublist_cons_self e rest).filter _))
        (fun f hf => hend f (mem_cons_of_mem _ hf)) ?_ hfold
      intro f hf hav a ha
      rcases hnew a ha with hold | ⟨hle, heav⟩
      · exact hbefore f (mem_cons_of_mem _ hf) hav a hold
      · rw [filter_cons_of_pos (by simpa using heav), pairwise_cons] at hsorted
        have := hsorted.1 f (mem_filter.mpr ⟨hf, by simpa using hav⟩)
        omega

theorem getTotalMemory_raw {s : PagePool}
    (hmap : info.Sorted) (hget : getTotalMemory info mrt = .ok s) :
    RawAreas (s.hpa, s.pais) ∧ s.tpp = (s.hpa + 0xfff) / 4096 := by
  unfold getTotalMemory at hget
  split at hget
  · cases hfold : info.entries.foldlM addEntry (0x100000000, []) with
    | error err => simp [hfold, bind, Except.bind] at hget
    | ok acc =>
      simp only [hfold, bind, Except.bind, pure, Except.pure, ok.injEq] at hget
      subst hget
      refine ⟨foldlM_addEntry_raw ?_ hmap.pairwise hmap.range_end ?_ hfold, rfl⟩
      · exact ⟨by simp, List.Pairwise.nil, le_rfl, by decide, by simp⟩
      · simp
  · exact absurd hget (by simp)

/-! ## The table `set_mrt_table` writes -/

theorem areaOk_of_all_free (hspa : a.spa % 4096 = 0) (hepa : a.epa % 4096 = 0) (hlt : a.spa < a.epa)
    (hfpp : a.fpp = (a.epa - a.spa) / 4096) (hnfpa : a.nfpa = a.spa)
    (hfree : ∀ j, a.spa / 4096 ≤ j → j < a.epa / 4096 → mrt j = 0) : AreaOk mrt a := by
  refine ⟨hspa, hepa, ?_, fun _ => ⟨a.spa / 4096, by omega, ⟨le_rfl, by omega, ?_⟩, ?_⟩⟩
  · rw [freePages, Scan.count_all fun j h1 h2 => isFree_iff.mpr (hfree j h1 h2), hfpp]
    omega
  · exact hfree _ le_rfl (by omega)
  · exact fun q hq => hq.1

theorem areaOk_of_none_free (hspa : a.spa % 4096 = 0) (hepa : a.epa % 4096 = 0) (hfpp : a.fpp = 0)
    (hused : ∀ j, j < a.epa / 4096 → mrt j = 0xff) : AreaOk mrt a := by
  refine ⟨hspa, hepa, ?_, fun hpos => by omega⟩
  rw [freePages, Scan.count_none, hfpp]
  intro j _ h2
  rw [isFree_false_iff, hused j h2]
  decide

theorem fillMrt_of_mem (h1 : start ≤ j) (h2 : j < start + count) :
    fillMrt mrt start value count j = value := if_pos ⟨h1, h2⟩

theorem memsetMrt_of_lt (h : j < start) : memsetMrt mrt start value count j = mrt j := by
  rw [memsetMrt, fillMrt, if_neg (by omega)]

theorem memsetMrt_of_mem (h1 : start ≤ j) (h2 : j < start + count) (hcount : count < 2 ^ 32) :
    memsetMrt mrt start value count j = value := by
  rw [memsetMrt, u32_of_lt hcount]
  exact fillMrt_of_mem h1 h2

/-- What the loop of `set_mrt_table` leaves: the table below `last_addr` is not
touched again, every area is described correctly, and no area moved left. -/
structure MrtAreas (lastAddr : Nat) (mrt : Nat → UInt8) (pais : List PhysicAreaItem)
    (mrt' : Nat → UInt8) (pais' : List PhysicAreaItem) : Prop where
  frame : ∀ j, j < lastAddr / 4096 → mrt' j = mrt j
  areas : ∀ a ∈ pais', AreaOk mrt' a
  within : ∀ a' ∈ pais', ∃ a ∈ pais, a'.epa = a.epa ∧ a.spa ≤ a'.spa
  sorted : (pais'.map extent).Pairwise fun x y => x.2 ≤ y.1

theorem MrtAreas.cons {lastAddr : Nat} {mrt₁ mrt' : Nat → UInt8} {a' : PhysicAreaItem}
    {pais pais' : List PhysicAreaItem} {lastAddr' : Nat}
    (h : MrtAreas lastAddr' mrt₁ pais mrt' pais')
    (hframe : ∀ j, j < lastAddr / 4096 → mrt' j = mrt j) (hok : AreaOk mrt' a')
    (hepa : a'.epa = a.epa) (hspa : a.spa ≤ a'.spa) (hsorted : ∀ b ∈ pais, a.epa ≤ b.spa) :
    MrtAreas lastAddr mrt (a :: pais) mrt' (a' :: pais') := by
  refine ⟨hframe, ?_, ?_, ?_⟩
  · intro b hb
    rcases mem_cons.mp hb with rfl | hb
    · exact hok
    · exact h.areas b hb
  · intro b hb
    rcases mem_cons.mp hb with rfl | hb
    · exact ⟨a, mem_cons_self .., hepa, hspa⟩
    · obtain ⟨c, hc, hcb⟩ := h.within b hb
      exact ⟨c, mem_cons_of_mem _ hc, hcb⟩
  · rw [map_cons, pairwise_cons]
    refine ⟨fun x hx => ?_, h.sorted⟩
    obtain ⟨b, hb, rfl⟩ := mem_map.mp hx
    obtain ⟨c, hc, _, hcb⟩ := h.within b hb
    have := hsorted c hc
    simp only [extent]
    omega

theorem setMrtAreas_areas (haddr : addr % 4096 = 0) (pais : List PhysicAreaItem) :
    ∀ (lastAddr tfpp : Nat) (mrt : Nat → UInt8), (∀ a ∈ pais, RawArea a) →
      pais.Pairwise (fun a b => a.epa ≤ b.spa) → addr ≤ lastAddr → lastAddr % 4096 = 0 →
      (∀ a ∈ pais, addr < a.epa → lastAddr = addr ∨ lastAddr ≤ a.spa) →
      (∀ j, j < addr / 4096 → mrt j = 0xff) →
      MrtAreas lastAddr mrt pais (setMrtAreas addr lastAddr tfpp mrt pais).2.1
        (setMrtAreas addr lastAddr tfpp mrt pais).2.2 := by
  induction pais with
  | nil =>
    intro lastAddr tfpp mrt _ _ _ _ _ _
    exact ⟨fun _ _ => rfl, by simp [setMrtAreas], by simp [setMrtAreas], List.Pairwise.nil⟩
  | cons a rest ih =>
    intro lastAddr tfpp mrt hraw hsorted hle hlast hpos hused
    have ha := hraw a (mem_cons_self ..)
    have h1 := ha.spa_aligned
    have h2 := ha.epa_aligned
    have h3 := ha.nonempty
    have hmax := ha.epa_le
    have hrest : ∀ b ∈ rest, RawArea b := fun b hb => hraw b (mem_cons_of_mem _ hb)
    rw [pairwise_cons] at hsorted
    have hpos' : ∀ b ∈ rest, addr < b.epa → a.epa = addr ∨ a.epa ≤ b.spa :=
      fun b hb _ => Or.inr (hsorted.1 b hb)
    rw [setMrtAreas]
    split
    · rename_i hbelow
      have hr := ih lastAddr tfpp mrt hrest hsorted.2 hle hlast
        (fun b hb => hpos b (mem_cons_of_mem _ hb)) hused
      refine hr.cons hr.frame (areaOk_of_none_free h1 h2 rfl fun j hj => ?_) rfl le_rfl hsorted.1
      have hj' : j < addr / 4096 := hj.trans_le (Nat.div_le_div_right hbelow)
      rw [hr.frame j (hj'.trans_le (Nat.div_le_div_right hle)), hused j hj']
    · rename_i habove
      split
      · rename_i hin
        have heq : lastAddr = addr := by
          rcases hpos a (mem_cons_self ..) (by omega) with h | h <;> omega
        have hr := ih a.epa (tfpp + (a.epa - addr) / 4096)
          (memsetMrt mrt (addr / 4096) 0 ((a.epa - addr) / 4096)) hrest hsorted.2
          (by omega) h2 hpos' (fun j hj => by rw [memsetMrt_of_lt hj, hused j hj])
        refine hr.cons ?_ (areaOk_of_all_free haddr h2 (by simp only; omega) rfl rfl ?_) rfl
          (by simp only; omega) hsorted.1
        · intro j hj
          rw [hr.frame j (by omega), memsetMrt_of_lt (by omega)]
        · intro j h4 h5
          simp only at h4 h5
          rw [hr.frame j h5, memsetMrt_of_mem h4 (by omega) (by omega)]
      · rename_i hout
        have hlow : lastAddr ≤ a.spa := by
          rcases hpos a (mem_cons_self ..) (by omega) with h | h <;> omega
        have hgap := ha.fpp_eq
        have hr := ih a.epa (tfpp + a.fpp)
          (memsetMrt (memsetMrt mrt (lastAddr / 4096) 0xff ((a.spa - lastAddr) / 4096))
            (a.spa / 4096) 0 a.fpp) hrest hsorted.2 (by omega) h2 hpos'
          (fun j hj => by rw [memsetMrt_of_lt (by omega), memsetMrt_of_lt (by omega), hused j hj])
        refine hr.cons ?_ (areaOk_of_all_free h1 h2 h3 ha.fpp_eq ha.nfpa_eq ?_) rfl le_rfl hsorted.1
        · intro j hj
          rw [hr.frame j (by omega), memsetMrt_of_lt (by omega), memsetMrt_of_lt (by omega)]
        · intro j h4 h5
          rw [hr.frame j h5, memsetMrt_of_mem h4 (by omega) (by omega)]

/-- The invariant holds when the boot code is done with the tables. -/
theorem bootPool_ok {mrtStart : Nat} {s : PagePool}
    (hmap : info.Sorted) (hlow : mrtStart < 2 ^ 32) (hboot : bootPool mrtStart info mrt = .ok s) :
    PoolOk s := by
  unfold bootPool at hboot
  cases hget : getTotalMemory info mrt with
  | error err => simp [hget, Except.map] at hboot
  | ok s₀ =>
    simp only [hget, Except.map, ok.injEq] at hboot
    obtain ⟨hraw, htpp⟩ := getTotalMemory_raw hmap hget
    have hhpa := hraw.hpa_ge
    have hmax := hraw.hpa_le
    have haddr : mrtEnd mrtStart s₀.tpp % 4096 = 0 := by simp [mrtEnd, pageDown]
    have hpage : 0 < mrtEnd mrtStart s₀.tpp / 4096 := by
      simp only [mrtEnd, pageDown]
      simp only at hhpa
      omega
    have hcount : mrtEnd mrtStart s₀.tpp / 4096 < 2 ^ 32 := by
      simp only [mrtEnd, pageDown]
      simp only at hmax
      omega
    have hused : ∀ j, j < mrtEnd mrtStart s₀.tpp / 4096 →
        memsetMrt s₀.mrt 0 0xff (mrtEnd mrtStart s₀.tpp / 4096) j = 0xff := fun j hj =>
      memsetMrt_of_mem (zero_le j) (by omega) hcount
    have hareas := setMrtAreas_areas haddr s₀.pais (mrtEnd mrtStart s₀.tpp) s₀.tfpp _ hraw.raw
      hraw.sorted le_rfl haddr (fun _ _ _ => Or.inl rfl) hused
    subst hboot
    exact ⟨hareas.areas, hareas.sorted, (hareas.frame 0 hpage).trans (hused 0 hpage)⟩

/-! ## Runs -/

/-- The calls other parts of the kernel make. -/
inductive PageOp
  | allocPage4k
  | allocNPages4k (n : Nat)
  | addReferencePage4k (addr : Nat)
  | decreaseReferencePage4k (addr : Nat)
  | freeNPages4k (n addr : Nat)

/-- A page-aligned address whose page has a reference count from 1 to 0xfe. -/
def Referenced (s : PagePool) (addr : Nat) : Prop :=
  addr % 4096 = 0 ∧ s.mrt (addr / 4096) ≠ 0 ∧ s.mrt (addr / 4096) ≠ 0xff

def PageOp.Allowed (s : PagePool) : PageOp → Prop
  | .allocPage4k | .allocNPages4k _ => True
  | .addReferencePage4k addr | .decreaseReferencePage4k addr => Referenced s addr
  | .freeNPages4k n addr => addr % 4096 = 0 ∧ ∀ i, i < n → Referenced s (addr + i * 4096)

def PageOp.run (s : PagePool) : PageOp → Except Stop PagePool
  | .allocPage4k => (Mm.allocPage4k s).map snd
  | .allocNPages4k n => (Mm.allocNPages4k s n).map snd
  | .addReferencePage4k addr => (Mm.addReferencePage4k s addr).map snd
  | .decreaseReferencePage4k addr => (Mm.decreaseReferencePage4k s addr).map snd
  | .freeNPages4k n addr => Mm.freeNPages4k s n addr

def PageStep (s s' : PagePool) : Prop :=
  ∃ op : PageOp, op.Allowed s ∧ op.run s = .ok s'

theorem map_snd_eq_ok {α β : Type} {x : Except Stop (α × β)} {b : β}
    (h : x.map snd = .ok b) : ∃ a, x = .ok (a, b) := by
  cases x with
  | error err => simp [Except.map] at h
  | ok r =>
    simp only [Except.map, ok.injEq] at h
    exact ⟨r.1, by rw [← h]⟩

theorem foldlM_decrease_ok (haddr : addr % 4096 = 0) (turns : List Nat) :
    ∀ {s s' : PagePool}, PoolOk s →
      turns.foldlM (fun s i => (decreaseReferencePage4k s (freedAddr addr i)).map snd) s = .ok s' →
      PoolOk s' := by
  induction turns with
  | nil =>
    intro s s' h hfold
    simp only [foldlM_nil, pure, Except.pure, ok.injEq] at hfold
    exact hfold ▸ h
  | cons i rest ih =>
    intro s s' h hfold
    rw [foldlM_cons] at hfold
    cases hstep : (decreaseReferencePage4k s (freedAddr addr i)).map snd with
    | error err => simp [hstep, bind, Except.bind] at hfold
    | ok mid =>
      simp only [hstep, bind, Except.bind] at hfold
      obtain ⟨r, hr⟩ := map_snd_eq_ok hstep
      exact ih (decreaseReferencePage4k_ok h (by unfold freedAddr u32; omega) hr) hfold

theorem PoolOk.step {s s' : PagePool} (h : PoolOk s) (hstep : PageStep s s') : PoolOk s' := by
  obtain ⟨op, hallowed, hrun⟩ := hstep
  cases op with
  | allocPage4k =>
    obtain ⟨r, hr⟩ := map_snd_eq_ok hrun
    rcases allocPage4k_cases h with ⟨herr, _⟩ | ⟨a, i, p, nfpa, _, _, heq, hok⟩
    · simp [herr] at hr
    · simp only [heq, ok.injEq, mk.injEq] at hr
      exact hr.2 ▸ hok
  | allocNPages4k n =>
    obtain ⟨r, hr⟩ := map_snd_eq_ok hrun
    rcases Nat.eq_zero_or_pos n with rfl | hn
    · simp only [allocNPages4k, if_true, ok.injEq, mk.injEq] at hr
      exact hr.2 ▸ h
    · rcases allocNPages4k_cases h hn with ⟨heq, _⟩ | ⟨a, i, ret, nfpa, _, _, heq, hok⟩
      · simp only [heq, ok.injEq, mk.injEq] at hr
        exact hr.2 ▸ h
      · simp only [heq, ok.injEq, mk.injEq] at hr
        exact hr.2 ▸ hok
  | addReferencePage4k addr =>
    obtain ⟨r, hr⟩ := map_snd_eq_ok hrun
    exact addReferencePage4k_ok h hr
  | decreaseReferencePage4k addr =>
    obtain ⟨r, hr⟩ := map_snd_eq_ok hrun
    exact decreaseReferencePage4k_ok h hallowed.1 hr
  | freeNPages4k n addr =>
    simp only [PageOp.run, freeNPages4k] at hrun
    rw [if_neg (by simpa using hallowed.1)] at hrun
    exact foldlM_decrease_ok hallowed.1 _ h hrun

theorem PoolOk.run {s s' : PagePool} (h : PoolOk s) (hrun : Relation.ReflTransGen PageStep s s') :
    PoolOk s' := by
  induction hrun with
  | refl => exact h
  | tail _ hstep ih => exact ih.step hstep

/-! ## What follows in every reachable state -/

section Consequences

variable {s s' : PagePool}

section

variable (h : PoolOk s)
include h

theorem PoolOk.allocPage4k_ne_lost : allocPage4k s ≠ .error .nextFreeLost := by
  rcases allocPage4k_cases h with ⟨heq, _⟩ | ⟨a, i, p, nfpa, _, _, heq, _⟩
  · simp [heq]
  · simp [heq]

theorem PoolOk.allocNPages4k_ne_lost (n : Nat) :
    allocNPages4k s n ≠ .error .nextFreeLost := by
  rcases Nat.eq_zero_or_pos n with rfl | hn
  · simp [allocNPages4k]
  · rcases allocNPages4k_cases h hn with ⟨heq, _⟩ | ⟨a, i, ret, nfpa, _, _, heq, _⟩
    · simp [heq]
    · simp [heq]

theorem PoolOk.allocPage4k_free (halloc : allocPage4k s = .ok (addr, s')) :
    addr % 4096 = 0 ∧ s.mrt (addr / 4096) = 0 ∧ s'.mrt (addr / 4096) = 1 := by
  rcases allocPage4k_cases h with ⟨heq, _⟩ | ⟨a, i, p, nfpa, _, hlow, heq, _⟩
  · simp [heq] at halloc
  · simp only [heq, ok.injEq, mk.injEq] at halloc
    obtain ⟨rfl, rfl⟩ := halloc
    rw [Nat.mul_div_cancel _ (by decide)]
    exact ⟨by simp, hlow.1.2.2, by simp [tookPage]⟩

/-- Page zero is reserved, so a run that was found has a non-zero address. -/
theorem PoolOk.run_ne_zero {ret : Nat} (hn : 0 < n)
    (hrun : FreeRun s.mrt a n ret) : ret ≠ 0 := by
  intro hz
  have hfree := isFree_iff.mp (hrun.2.2 0 hn)
  rw [hz, h.pageZero] at hfree
  exact absurd hfree (by decide)

theorem PoolOk.allocNPages4k_free (hn : 0 < n)
    (halloc : allocNPages4k s n = .ok (addr, s')) (haddr : addr ≠ 0) :
    addr % 4096 = 0 ∧ ∀ k, k < n → s.mrt (addr / 4096 + k) = 0 ∧ s'.mrt (addr / 4096 + k) = 1 := by
  rcases allocNPages4k_cases h hn with ⟨heq, _⟩ | ⟨a, i, ret, nfpa, _, hrun, heq, _⟩
  · simp only [heq, ok.injEq, mk.injEq] at halloc
    exact absurd halloc.1.symm haddr
  · simp only [heq, ok.injEq, mk.injEq] at halloc
    obtain ⟨rfl, rfl⟩ := halloc
    rw [Nat.mul_div_cancel _ (by decide)]
    exact ⟨by simp, fun k hk => ⟨isFree_iff.mp (hrun.2.2 k hk),
      fillMrt_of_mem (by omega) (by omega)⟩⟩

/-- `n` pages are handed out exactly when some area has `n` consecutive free ones. -/
theorem PoolOk.allocNPages4k_iff (hn : 0 < n) :
    (∃ addr s', allocNPages4k s n = .ok (addr, s') ∧ addr ≠ 0 ∧
        ∃ a ∈ s.pais, a.spa ≤ addr ∧ addr + n * 4096 ≤ a.epa) ↔
      ∃ a ∈ s.pais, ∃ ret, FreeRun s.mrt a n ret := by
  rcases allocNPages4k_cases h hn with ⟨heq, hnone⟩ | ⟨a, i, ret, nfpa, hget, hrun, heq, _⟩
  · refine iff_of_false ?_ ?_
    · rintro ⟨addr, s', halloc, haddr, _⟩
      simp only [heq, ok.injEq, mk.injEq] at halloc
      exact haddr halloc.1.symm
    · rintro ⟨a, ha, ret, hrun⟩
      exact hnone a ha ret hrun
  · have ha := mem_of_getElem? hget
    refine iff_of_true ⟨_, _, heq, ?_, a, ha, ?_⟩ ⟨a, ha, ret, hrun⟩
    · have := h.run_ne_zero hn hrun
      omega
    · have h1 := (h.areas a ha).spa_aligned
      obtain ⟨h3, h4, _⟩ := hrun
      omega

theorem PoolOk.allocNPages4k_unchanged (hn : 0 < n)
    (hnone : ¬ ∃ a ∈ s.pais, ∃ ret, FreeRun s.mrt a n ret) : allocNPages4k s n = .ok (0, s) := by
  rcases allocNPages4k_cases h hn with ⟨heq, _⟩ | ⟨a, i, ret, nfpa, hget, hrun, _, _⟩
  · exact heq
  · exact absurd ⟨a, mem_of_getElem? hget, ret, hrun⟩ hnone

end

end Consequences

/-- In every state reachable from a boot on a sorted memory map, with the reference table in the low
4 GiB, where the kernel is loaded: `fpp` counts the free pages of its area and, while positive,
`nfpa` is the lowest of them.  So the searches for the next free page never run off their area, both
allocators hand out pages whose count was zero, and `alloc_n_pages_4k` succeeds exactly when some
area has room, changing nothing when none has. -/
theorem pageAllocator_sound {mrtStart : Nat} {info : MultibootInfo} {mrt : Nat → UInt8}
    {s₀ s : PagePool} (hmap : info.Sorted) (hlow : mrtStart < 2 ^ 32)
    (hboot : bootPool mrtStart info mrt = .ok s₀) (hrun : Relation.ReflTransGen PageStep s₀ s) :
    (∀ (i : Nat) (a : PhysicAreaItem), s.pais[i]? = some a →
      a.fpp = freePages s.mrt a ∧
      (0 < a.fpp → ∃ p, a.nfpa = p * 4096 ∧ LowestFree s.mrt a p)) ∧
    allocPage4k s ≠ .error .nextFreeLost ∧
    (∀ n, allocNPages4k s n ≠ .error .nextFreeLost) ∧
    (∀ addr s', allocPage4k s = .ok (addr, s') →
      addr % 4096 = 0 ∧ s.mrt (addr / 4096) = 0 ∧ s'.mrt (addr / 4096) = 1) ∧
    (∀ n addr s', 0 < n → allocNPages4k s n = .ok (addr, s') → addr ≠ 0 →
      addr % 4096 = 0 ∧ ∀ k, k < n → s.mrt (addr / 4096 + k) = 0 ∧ s'.mrt (addr / 4096 + k) = 1) ∧
    (∀ n, 0 < n →
      ((∃ addr s', allocNPages4k s n = .ok (addr, s') ∧ addr ≠ 0 ∧
          ∃ a ∈ s.pais, a.spa ≤ addr ∧ addr + n * 4096 ≤ a.epa) ↔
        ∃ a ∈ s.pais, ∃ ret, FreeRun s.mrt a n ret)) ∧
    (∀ n, 0 < n → (¬ ∃ a ∈ s.pais, ∃ ret, FreeRun s.mrt a n ret) →
      allocNPages4k s n = .ok (0, s)) := by
  have h : PoolOk s := (bootPool_ok hmap hlow hboot).run hrun
  refine ⟨fun i a hget => ?_, h.allocPage4k_ne_lost, h.allocNPages4k_ne_lost, ?_, ?_, ?_, ?_⟩
  · have harea := h.areas a (mem_of_getElem? hget)
    exact ⟨harea.fpp_eq, harea.nfpa_lowest⟩
  · exact fun addr s' halloc => h.allocPage4k_free halloc
  · exact fun n addr s' hn halloc haddr => h.allocNPages4k_free hn halloc haddr
  · exact fun n hn => h.allocNPages4k_iff hn
  · exact fun n hn hnone => h.allocNPages4k_unchanged hn hnone

/-- Two available ranges around a hole, the first of them shortened by the table. -/
def sampleMap : MultibootInfo :=
  ⟨true, [⟨0, 0x9fc00, 1⟩, ⟨0x100000, 0x7ee0000, 1⟩, ⟨0xfffc0000, 0x40000, 2⟩,
    ⟨0x100000000, 0x40000000, 1⟩]⟩

theorem sampleMap_sorted : sampleMap.Sorted :=
  ⟨by decide, by decide⟩

instance PageOp.decidableAllowed (s : PagePool) : ∀ op : PageOp, Decidable (op.Allowed s)
  | .allocPage4k | .allocNPages4k _ => inferInstanceAs (Decidable True)
  | .addReferencePage4k _ | .decreaseReferencePage4k _ => inferInstanceAs (Decidable (_ ∧ _ ∧ _))
  | .freeNPages4k _ _ => inferInstanceAs (Decidable (_ ∧ ∀ i < _, _ ∧ _ ∧ _))

def pageStep (s : PagePool) (op : PageOp) : Option PagePool :=
  if op.Allowed s then (op.run s).toOption else none

/-- A page and a run of two pages are taken, and the page and one of the run are given back. -/
def samplePages : List PageOp :=
  [.allocPage4k, .allocNPages4k 2, .decreaseReferencePage4k 0x340000, .freeNPages4k 1 0x342000]

/-- Then the first page is handed out again. -/
theorem pageAllocator_sound_sampleMap : ∃ s₀ s s',
    bootPool 0x200000 sampleMap (fun _ => 0) = .ok s₀ ∧
    Relation.ReflTransGen PageStep s₀ s ∧ s.mrt 0x341 = 1 ∧ allocPage4k s = .ok (0x340000, s') ∧
      s.mrt 0x340 = 0 ∧ s'.mrt 0x340 = 1 := by
  have hview : (((bootPool 0x200000 sampleMap fun _ => 0).toOption.bind fun s =>
      runEvents pageStep s samplePages).bind fun s => (allocPage4k s).toOption.map fun r =>
        (s.mrt 0x341, r.1)) = some (1, 0x340000) := by
    decide +kernel
  obtain ⟨s, hs, hlast⟩ := Option.bind_eq_some_iff.mp hview
  obtain ⟨s₀, hboot, hrun⟩ := Option.bind_eq_some_iff.mp hs
  obtain ⟨r, halloc, hr⟩ := Option.map_eq_some_iff.mp hlast
  obtain ⟨hused, haddr⟩ := mk.inj hr
  have hboot' := eq_ok_of_toOption hboot
  have halloc' : allocPage4k s = .ok (0x340000, r.2) := haddr ▸ eq_ok_of_toOption halloc
  have hsteps : Relation.ReflTransGen PageStep s₀ s := by
    refine Relation.ReflTransGen.mono (fun s s' hstep => ?_) _ _ (steps_of_runEvents hrun)
    obtain ⟨op, hop⟩ := hstep
    obtain ⟨hallowed, hop⟩ := Option.ite_none_right_eq_some.mp hop
    exact ⟨op, hallowed, eq_ok_of_toOption hop⟩
  have hfree := (pageAllocator_sound sampleMap_sorted (by decide) hboot' hsteps).2.2.2.1 _ _ halloc'
  exact ⟨s₀, s, r.2, hboot', hsteps, hused, halloc', hfree.2⟩

end Osx64.Mm
