import Osx64.Mm.PageTable

/-!
# The tree of page tables

`TablesOk` is what the functions on page tables keep: below the roots every table has one place,
every table is a page that the allocator does not regard as free, and the entries above the last
level are pointers without the bit for a big page, or 2 MiB leaves.  A new table is a free page
until it is hung in, and it is empty, so that no translation changes.
-/

namespace Osx64.Mm

open Function TableTree List

/-! ## Arithmetic of entries -/

section Entries

variable {phy flags level : Nat} {e : Nat}

theorem or_flags (hphy : phy % 4096 = 0) (hflags : flags < 4096) : phy ||| flags = phy + flags := by
  obtain ⟨k, rfl⟩ : ∃ k, phy = 2 ^ 12 * k := ⟨phy / 4096, by omega⟩
  exact (Nat.two_pow_add_eq_or_of_lt hflags k).symm

theorem decode_of_not_present (h : isPresent e = false) : decode level e = .absent := by
  simp [decode, h]

/-- The last level has no pointers. -/
theorem next_decode_zero (e : Nat) : (decode 0 e).next = none := by
  unfold decode
  split <;> rfl

theorem decode_leaf (h : isPresent e = true) : decode 0 e = .leaf e := by
  simp [decode, h]

theorem decode_bigLeaf (hpresent : isPresent e = true) (hbig : isBig e = true) :
    decode 1 e = .leaf e := by
  simp [decode, hpresent, hbig]

theorem decode_table (hlevel : level ≠ 0) (hpresent : isPresent e = true)
    (hbig : isBig e = false) (hbound : e / 4096 < 2 ^ 40) : decode level e = .table (e / 4096) := by
  simp only [decode, hpresent, hbig, hlevel, if_true, if_false, Bool.false_eq_true,
    Nat.mod_eq_of_lt hbound]

end Entries

/-- The flags of an entry that points to a table. -/
structure IsDirType (flags : Nat) : Prop where
  lt : flags < 4096
  present : flags % 2 = 1
  notBig : flags / 128 % 2 = 0

theorem isDirType_dirType (type : Nat) : IsDirType (dirType type) := by
  unfold dirType pageKernelDir pageUserDir pageKernel4k pageUser4k
  split_ifs <;> constructor <;> decide

theorem isDirType_kernelDir : IsDirType pageKernelDir := isDirType_dirType 0

theorem IsDirType.entry {flags p : Nat} (h : IsDirType flags) :
    isPresent (p * 4096 ||| flags) = true ∧ isBig (p * 4096 ||| flags) = false ∧
      (p * 4096 ||| flags) / 4096 = p := by
  obtain ⟨hlt, hpresent, hbig⟩ := h
  rw [or_flags (Nat.mul_mod_left ..) hlt]
  simp only [isPresent, isBig, decide_eq_true_eq, decide_eq_false_iff_not]
  omega

/-! ## The page allocator -/

/-- What the allocator never changes: the areas and the end of the memory. -/
def PagePool.layout (s : PagePool) : Nat × List (Nat × Nat) := (s.hpa, s.pais.map extent)

/-- The page belongs to one of the areas. -/
def PagePool.Holds (s : PagePool) (page : Nat) : Prop :=
  ∃ x ∈ s.pais.map extent, x.1 ≤ page * 4096 ∧ page * 4096 < x.2

/-- How many pages are free. -/
def PagePool.freeTotal (s : PagePool) : Nat := (s.pais.map PhysicAreaItem.fpp).sum

/-- The areas end below the end of the memory, and that is supported by the direct map. -/
structure PagePool.Supported (s : PagePool) : Prop where
  below : ∀ x ∈ s.pais.map extent, x.2 ≤ s.hpa
  hpa : s.hpa ≤ 2 ^ 40

section Pool

variable {s s' : PagePool} {page : Nat}

theorem PagePool.Holds.layout (h : s.Holds page) (hlayout : s'.layout = s.layout) :
    s'.Holds page := by
  rw [PagePool.layout, PagePool.layout, Prod.mk.injEq] at hlayout
  rw [PagePool.Holds, hlayout.2]
  exact h

theorem PagePool.Supported.layout (h : s.Supported) (hlayout : s'.layout = s.layout) :
    s'.Supported := by
  rw [PagePool.layout, PagePool.layout, Prod.mk.injEq] at hlayout
  exact ⟨by rw [hlayout.1, hlayout.2]; exact h.below, by rw [hlayout.1]; exact h.hpa⟩

theorem PagePool.Supported.lt (h : s.Supported) (hpage : s.Holds page) : page * 4096 < 2 ^ 40 := by
  obtain ⟨x, hx, _, hlt⟩ := hpage
  have hbelow := h.below x hx
  have hhpa := h.hpa
  omega

/-- One area has fewer free pages. -/
theorem freeTotal_set {i n : Nat} {a a' : PhysicAreaItem} (hget : s.pais[i]? = some a)
    (hless : a'.fpp + n = a.fpp) :
    ({ s with pais := s.pais.set i a' } : PagePool).freeTotal + n = s.freeTotal := by
  obtain ⟨hi, hget⟩ := List.getElem?_eq_some_iff.mp hget
  have hsplit : s.pais = s.pais.take i ++ a :: s.pais.drop (i + 1) := by
    rw [← hget, cons_getElem_drop_succ, take_append_drop]
  unfold PagePool.freeTotal
  rw [set_eq_take_append_cons_drop, if_pos hi]
  nth_rewrite 3 [hsplit]
  simp only [map_append, map_cons, sum_append, sum_cons]
  omega

/-- `alloc_page_4k` takes a page that was free, or there is none. -/
theorem PoolOk.allocPage4k_spec (h : PoolOk s) :
    allocPage4k s = .error .outOfMemory ∧ s.freeTotal = 0 ∨
      ∃ page s', allocPage4k s = .ok (page * 4096, s') ∧ s.mrt page = 0 ∧ s.Holds page ∧
        s'.mrt = update s.mrt page 1 ∧ PoolOk s' ∧ s'.layout = s.layout ∧
        s'.freeTotal + 1 = s.freeTotal := by
  rcases allocPage4k_cases h with ⟨heq, hnone⟩ | ⟨a, i, p, nfpa, hget, hlow, heq, hok⟩
  · refine .inl ⟨heq, sum_eq_zero fun x hx => ?_⟩
    obtain ⟨a, ha, rfl⟩ := mem_map.mp hx
    exact hnone a ha
  · have ha := mem_of_getElem? hget
    have hpos : 0 < a.fpp := by
      rw [(h.areas a ha).fpp_eq]
      exact freePages_pos_iff.mpr ⟨p, hlow.1⟩
    refine .inr ⟨p, _, heq, hlow.1.2.2, ⟨extent a, mem_map_of_mem ha, ?_⟩, rfl, hok, ?_,
      freeTotal_set hget (by dsimp only; omega)⟩
    · have hspa := (h.areas a ha).spa_aligned
      obtain ⟨h1, h2, _⟩ := hlow.1
      unfold extent
      omega
    · have hext := map_extent_set hget
        (rfl : extent { a with fpp := a.fpp - 1, nfpa := nfpa } = extent a)
      rw [PagePool.layout, PagePool.layout, tookPage, hext]

/-- There are `n` free pages one after the other. -/
def PagePool.HasRun (s : PagePool) (n : Nat) : Prop :=
  0 < n ∧ ∃ a ∈ s.pais, ∃ start, FreeRun s.mrt a n start

theorem PoolOk.allocNPages4k_none (h : PoolOk s) {n : Nat} (hrun : ¬ s.HasRun n) :
    allocNPages4k s n = .ok (0, s) := by
  by_cases hn : n = 0
  · rw [allocNPages4k, if_pos hn]
  · rcases allocNPages4k_cases h (Nat.pos_of_ne_zero hn) with ⟨halloc, _⟩ | ⟨a, i, ret, _,
      hget, hfree, _⟩
    · exact halloc
    · exact absurd ⟨Nat.pos_of_ne_zero hn, a, mem_of_getElem? hget, ret, hfree⟩ hrun

/-- `alloc_n_pages_4k` takes `n` of the free pages. -/
theorem PoolOk.allocNPages4k_run (h : PoolOk s) {n : Nat} (hrun : s.HasRun n) :
    ∃ addr s', allocNPages4k s n = .ok (addr + 1, s') ∧ PoolOk s' ∧ s'.layout = s.layout ∧
      (∀ p, s.mrt p ≠ 0 → s'.mrt p ≠ 0) ∧ s'.freeTotal + n = s.freeTotal := by
  obtain ⟨hn, a₀, ha₀, start, hstart⟩ := hrun
  rcases allocNPages4k_cases h hn with ⟨_, hnone⟩ | ⟨a, i, ret, nfpa, hget, hfree, halloc, hok⟩
  · exact absurd hstart (hnone a₀ ha₀ start)
  have hret : ret ≠ 0 := by
    rintro rfl
    have hzero := isFree_iff.mp (hfree.2.2 0 hn)
    rw [Nat.zero_add, h.pageZero] at hzero
    cases hzero
  have hcount := freePages_taken hfree (takenRun_fill s.mrt)
  have hfpp := (h.areas a (mem_of_getElem? hget)).fpp_eq
  refine ⟨ret * 4096 - 1, _, ?_, hok, ?_, fun p hp => ?_, freeTotal_set hget ?_⟩
  · rw [halloc, Nat.sub_add_cancel (by omega)]
  · have hext := map_extent_set hget
      (rfl : extent { a with fpp := a.fpp - n, nfpa := nfpa } = extent a)
    rw [PagePool.layout, PagePool.layout, tookRun, hext]
  · change fillMrt s.mrt ret 1 n p ≠ 0
    unfold fillMrt
    split
    · decide
    · exact hp
  · dsimp only
    omega

/-- A page with one reference becomes free again. -/
theorem PoolOk.decrease_spec (h : PoolOk s) (hsupported : s.Supported) (hpage : s.Holds page)
    (hone : s.mrt page = 1) :
    ∃ s', decreaseReferencePage4k s (page * 4096) = .ok (0, s') ∧
      s'.mrt = update s.mrt page 0 ∧ PoolOk s' ∧ s'.layout = s.layout := by
  obtain ⟨x, hx, hlo, hhi⟩ := hpage
  have hbelow := hsupported.below x hx
  obtain ⟨a, ha, rfl⟩ := mem_map.mp hx
  have hdiv : page * 4096 / 4096 = page := Nat.mul_div_cancel _ (by decide)
  -- the search for the area succeeds
  have hfind : ∃ b i, s.pais.zipIdx.find? (fun ai => ai.1.spa ≤ page * 4096 ∧
    page * 4096 < ai.1.epa)
      = some (b, i) := by
    obtain ⟨i, hi, rfl⟩ := getElem_of_mem ha
    have hmem := mk_mem_zipIdx_iff_getElem?.mpr (List.getElem?_eq_getElem hi)
    cases hres : s.pais.zipIdx.find? fun ai => ai.1.spa ≤ page * 4096 ∧ page * 4096 < ai.1.epa with
    | some bi => exact ⟨bi.1, bi.2, rfl⟩
    | none =>
      have hnone := List.find?_eq_none.mp hres _ hmem
      rw [decide_eq_true_eq] at hnone
      exact absurd ⟨hlo, hhi⟩ hnone
  obtain ⟨b, i, hfind⟩ := hfind
  have hget := getElem?_of_mem_zipIdx (mem_of_find?_eq_some hfind)
  have hres : decreaseReferencePage4k s (page * 4096) = .ok (0,
      { s with
        mrt := update s.mrt page 0
        pais := s.pais.set i (releaseInto b (page * 4096)) }) := by
    unfold decreaseReferencePage4k
    have hlt : ¬ page * 4096 ≥ s.hpa := by
      omega
    have hzero : s.mrt page - 1 = 0 := by
      rw [hone]
      rfl
    have hcount : ¬ (s.mrt page = 0xff ∨ s.mrt page = 0) := by
      rw [hone]
      decide
    rw [if_neg hlt]
    simp only [hdiv, if_neg hcount, hzero, if_true, hfind]
  refine ⟨_, hres, rfl, decreaseReferencePage4k_ok h (Nat.mul_mod_left ..) hres, ?_⟩
  have hext := map_extent_set hget (rfl : extent (releaseInto b (page * 4096)) = extent b)
  rw [PagePool.layout, PagePool.layout, hext]

end Pool

/-- All pages have addresses below the bound. -/
def PagePool.Below (s : PagePool) (bound : Nat) : Prop := ∀ a ∈ s.pais, a.epa ≤ bound

theorem PagePool.Below.layout {s s' : PagePool} {bound : Nat} (h : s.Below bound)
    (hlayout : s'.layout = s.layout) : s'.Below bound := by
  rw [PagePool.layout, PagePool.layout, Prod.mk.injEq] at hlayout
  intro a ha
  have hmem : extent a ∈ s.pais.map extent := by
    rw [← hlayout.2]
    exact mem_map_of_mem ha
  obtain ⟨b, hb, heq⟩ := mem_map.mp hmem
  have hepa : b.epa = a.epa := congrArg Prod.snd heq
  rw [← hepa]
  exact h b hb

/-- A page that was free is taken, and nothing else changes. -/
theorem PoolOk.allocPage4k_took {s s' : PagePool} {addr bound : Nat} (h : PoolOk s)
    (hbelow : s.Below bound) (halloc : allocPage4k s = .ok (addr, s')) :
    ∃ page, addr = page * 4096 ∧ s.mrt page = 0 ∧ addr < bound ∧
      s'.mrt = update s.mrt page 1 ∧ PoolOk s' ∧ s'.Below bound ∧ s'.layout = s.layout := by
  rcases h.allocPage4k_spec with ⟨herr, _⟩ | ⟨page, pool, heq, hfree, hholds, hmrt, hok, hlayout, _⟩
  · rw [herr] at halloc
    cases halloc
  · rw [heq, Except.ok.injEq, Prod.mk.injEq] at halloc
    obtain ⟨rfl, rfl⟩ := halloc
    refine ⟨page, rfl, hfree, ?_, hmrt, hok, hbelow.layout hlayout, hlayout⟩
    obtain ⟨x, hx, _, hlt⟩ := hholds
    obtain ⟨a, ha, rfl⟩ := mem_map.mp hx
    exact hlt.trans_le (hbelow a ha)

/-! ## What the functions keep -/

/-- An entry above the last level. -/
def DirEntry (depth e : Nat) : Prop :=
  isPresent e = true → isBig e = true ∧ depth = 2 ∨ isBig e = false ∧ e / 4096 < 2 ^ 40

structure TablesOk (m : Machine) (roots : Nat → Prop) : Prop where
  pool : PoolOk m.pool
  below : m.pool.Below (2 ^ 52)
  forest : IsForest decode m.mem 3 roots
  used : ∀ s, Reached decode m.mem 3 roots s → m.pool.mrt s ≠ 0
  dir : ∀ r p s i, roots r → reach decode m.mem 3 r p = some s → p.length < 3 →
    DirEntry p.length (m.mem s i)

/-- From `m` to `m'` free pages have been taken for tables, and of the pages in use only those of
`touched` have been written. -/
structure Extended (m m' : Machine) (roots touched : Nat → Prop) : Prop where
  layout : m'.pool.layout = m.pool.layout
  mrt : ∀ p, m.pool.mrt p ≠ 0 → m'.pool.mrt p = m.pool.mrt p
  mem : ∀ p, m.pool.mrt p ≠ 0 → ¬ touched p → m'.mem p = m.mem p
  reached : ∀ r q s, roots r → reach decode m'.mem 3 r q = some s →
    reach decode m.mem 3 r q = some s ∨ m.pool.mrt s = 0

theorem Extended.refl {m : Machine} {roots touched : Nat → Prop} : Extended m m roots touched :=
  ⟨rfl, fun _ _ => rfl, fun _ _ _ => rfl, fun _ _ _ _ hs => .inl hs⟩

theorem Extended.trans {m m₁ m' : Machine} {roots touched touched' : Nat → Prop}
    (h : Extended m m₁ roots touched) (h' : Extended m₁ m' roots touched')
    (hsub : ∀ p, m.pool.mrt p ≠ 0 → touched' p → touched p) : Extended m m' roots touched := by
  have hused {p : Nat} (hp : m.pool.mrt p ≠ 0) : m₁.pool.mrt p ≠ 0 := by rwa [h.mrt p hp]
  refine ⟨h'.layout.trans h.layout, fun p hp => ?_, fun p hp hnot => ?_, fun r q s hr hs => ?_⟩
  · rw [h'.mrt p (hused hp), h.mrt p hp]
  · rw [h'.mem p (hused hp) fun htouched => hnot (hsub p hp htouched), h.mem p hp hnot]
  · rcases h'.reached r q s hr hs with hs | hs
    · exact h.reached r q s hr hs
    · refine .inr ?_
      by_contra hne
      exact hused hne hs

theorem Extended.mono {m m' : Machine} {roots touched touched' : Nat → Prop}
    (h : Extended m m' roots touched) (hsub : ∀ p, touched p → touched' p) :
    Extended m m' roots touched' :=
  { h with mem := fun p hp hnot => h.mem p hp fun htouched => hnot (hsub p htouched) }

section Keep

variable {m m' : Machine} {roots : Nat → Prop} {r t l : Nat} {p : List Nat}

/-- An entry is written that points to no table. -/
theorem TablesOk.write (h : TablesOk m roots) {i e : Nat} (hr : roots r)
    (ht : reach decode m.mem 3 r p = some t) (he : (decode (3 - p.length) e).next = none)
    (hdir : p.length < 3 → DirEntry p.length e) :
    TablesOk { m with mem := TableTree.write m.mem t i e } roots := by
  have hback {r' q s} (hr' : roots r')
      (hs : reach decode (TableTree.write m.mem t i e) 3 r' q = some s) :=
    reach_of_reach_write h.forest hr hr' ht he hs
  refine ⟨h.pool, h.below, h.forest.write hr ht he, fun s ⟨r', q, hr', hs⟩ => ?_,
    fun r' q s j hr' hs hlen => ?_⟩
  · exact h.used s ⟨r', q, hr', hback hr' hs⟩
  · have hold := hback hr' hs
    dsimp only
    by_cases hsame : TableTree.write m.mem t i e s j = m.mem s j
    · rw [hsame]
      exact h.dir r' q s j hr' hold hlen
    · obtain ⟨rfl, rfl⟩ := eq_of_write_ne hsame
      rw [write_self]
      have hq : q = p := h.forest hr' hr hold ht
      rw [hq] at hlen ⊢
      exact hdir hlen

variable (m') in
/-- A free page is cleared and hung in. -/
theorem TablesOk.link (h : TablesOk m roots) {pool : PagePool} (page : Nat) {flags : Nat}
    (hr : roots r) (ht : reach decode m.mem 3 r p = some t) (hlen : p.length < 3)
    (hold : isPresent (m.mem t l) = false) (hflags : IsDirType flags) (hfree : m.pool.mrt page = 0)
    (hpage : page < 2 ^ 40) (hpool : PoolOk pool) (hbelow : pool.Below (2 ^ 52))
    (hlayout : pool.layout = m.pool.layout) (hmrt : pool.mrt = update m.pool.mrt page 1)
    (hmem : m'.mem = TableTree.write (update m.mem page fun _ => 0) t l (page * 4096 ||| flags))
    (hpool' : m'.pool = pool) :
    TablesOk m' roots ∧ reach decode m'.mem 3 r (p ++ [l]) = some page ∧
      (∀ r' q, roots r' → find decode m'.mem 3 r' q = find decode m.mem 3 r' q) ∧
      Extended m m' roots (· = t) := by
  obtain ⟨hpresent, hbig, haddr⟩ := hflags.entry (p := page)
  have hnot : ¬ Reached decode m.mem 3 roots page := fun hreached => h.used page hreached hfree
  -- first the page is cleared, which nobody sees
  have hclear {r' q} (hr' : roots r') := path_update_of_not_reached (q := q) hnot hr' fun _ => 0
  have hreach {r' q s} (hr' : roots r')
      (hs : reach decode (update m.mem page fun _ => 0) 3 r' q = some s) :
      reach decode m.mem 3 r' q = some s := by rwa [(hclear hr').1] at hs
  have hforest := h.forest.mono fun r' q s hr' hs => hreach hr' hs
  have hnot' : ¬ Reached decode (update m.mem page fun _ => 0) 3 roots page :=
    fun ⟨r', q, hr', hs⟩ => hnot ⟨r', q, hr', hreach hr' hs⟩
  have hempty (k j : Nat) :
      decode k ((update m.mem page fun _ => 0) page j) = .absent := by
    rw [update_self]
    exact decode_of_not_present rfl
  have hne : t ≠ page := by
    rintro rfl
    exact hnot ⟨r, p, hr, ht⟩
  have ht' : reach decode (update m.mem page fun _ => 0) 3 r p = some t := by
    rw [(hclear hr).1]
    exact ht
  have hold' : decode (3 - p.length) ((update m.mem page fun _ => 0) t l) = .absent := by
    rw [update_of_ne hne]
    exact decode_of_not_present hold
  have he : decode (3 - p.length) (page * 4096 ||| flags) = .table page := by
    rw [decode_table (by omega) hpresent hbig (by omega), haddr]
  -- then it is hung in
  have hback {r' q s} (hr' : roots r') (hs : reach decode m'.mem 3 r' q = some s) :
      reach decode m.mem 3 r' q = some s ∨ q = p ++ [l] ∧ s = page := by
    rw [hmem] at hs
    exact (reach_of_reach_link hforest hr ht' he hnot' hempty hr' hs).imp_left (hreach hr')
  refine ⟨⟨hpool' ▸ hpool, hpool' ▸ hbelow, ?_, fun s ⟨r', q, hr', hs⟩ => ?_,
    fun r' q s j hr' hs hq => ?_⟩, ?_, fun r' q hr' => ?_,
      ⟨?_, fun u hu => ?_, fun u hu hnot' => ?_,
    fun r' q s hr' hs => ?_⟩⟩
  · rw [hmem]
    exact hforest.link hr ht' he hnot' hempty
  · rw [hpool', hmrt]
    by_cases hs' : s = page
    · rw [hs', update_self]
      decide
    · rw [update_of_ne hs']
      rcases hback hr' hs with hs | ⟨_, hs⟩
      · exact h.used s ⟨r', q, hr', hs⟩
      · exact absurd hs hs'
  · rw [hmem]
    rcases hback hr' hs with hs | ⟨rfl, rfl⟩
    · have hsp : s ≠ page := by
        rintro rfl
        exact hnot ⟨r', q, hr', hs⟩
      by_cases hsame : TableTree.write (update m.mem page fun _ => 0) t l
          (page * 4096 ||| flags) s j = (update m.mem page fun _ => 0) s j
      · rw [hsame, update_of_ne hsp]
        exact h.dir r' q s j hr' hs hq
      · obtain ⟨rfl, rfl⟩ := eq_of_write_ne hsame
        rw [write_self]
        exact fun _ => .inr ⟨hbig, by omega⟩
    · rw [write_of_ne (Ne.symm hne), update_self]
      exact nofun
  · rw [hmem, reach_link_through hforest hr ht' he hnot' hempty hr ht', if_pos rfl]
  · rw [hmem, find_link hforest hr ht' hold' he hnot' hempty hr', (hclear hr').2]
  · rw [hpool', hlayout]
  · rw [hpool', hmrt, update_of_ne]
    rintro rfl
    exact hu hfree
  · rw [hmem, write_of_ne hnot', update_of_ne]
    rintro rfl
    exact hu hfree
  · refine (hback hr' hs).imp_right fun hs => ?_
    rw [hs.2]
    exact hfree

/-- What is done with a new page: it is cleared, and the entry is written, in either order. -/
structure IsLink (link : Machine → Nat → Nat → Nat → Machine) (flags : Nat) : Prop where
  isDirType : IsDirType flags
  mem : ∀ m t l page, t ≠ page → (link m t l (page * 4096)).mem
    = TableTree.write (Function.update m.mem page fun _ => 0) t l (page * 4096 ||| flags)
  pool : ∀ m t l temp, (link m t l temp).pool = m.pool

theorem isLink_link4k (type : Nat) : IsLink (link4k (dirType type)) (dirType type) where
  isDirType := isDirType_dirType type
  mem m t l page hne := by
    simp only [link4k, Nat.mul_div_cancel _ (by decide : 0 < 4096), TableTree.write]
    rw [update_comm hne, update_of_ne hne]
  pool _ _ _ _ := rfl

theorem isLink_link2M : IsLink link2M pageKernelDir where
  isDirType := isDirType_kernelDir
  mem m t l page _ := by simp only [link2M, Nat.mul_div_cancel _ (by decide : 0 < 4096)]
  pool _ _ _ _ := rfl

/-- One level down: the table below is there now, and no translation has changed. -/
theorem TablesOk.enter (h : TablesOk m roots) {link : Machine → Nat → Nat → Nat → Machine}
    {flags s : Nat} (hlink : IsLink link flags) (hr : roots r)
    (ht : reach decode m.mem 3 r p = some t) (hlen : p.length < 3)
    (henter : enter link t l m = .ok (s, m')) :
    TablesOk m' roots ∧ reach decode m'.mem 3 r (p ++ [l]) = some s ∧
      (∀ r' q, roots r' → find decode m'.mem 3 r' q = find decode m.mem 3 r' q) ∧
      Extended m m' roots (· = t) := by
  unfold Mm.enter at henter
  split at henter
  · next hpresent =>
    split at henter
    · cases henter
    next hbig =>
    rw [Except.ok.injEq, Prod.mk.injEq] at henter
    obtain ⟨rfl, rfl⟩ := henter
    refine ⟨h, ?_, fun _ _ _ => rfl, .refl⟩
    rcases h.dir r p t l hr ht hlen hpresent with ⟨hbig', _⟩ | ⟨hbig', hbound⟩
    · exact absurd hbig' hbig
    · rw [reach_append_of_reach ht, reach, decode_table (by omega) hpresent hbig' hbound]
      rfl
  · next hpresent =>
    split at henter
    · cases henter
    next temp pool halloc =>
    rw [Except.ok.injEq, Prod.mk.injEq] at henter
    obtain ⟨rfl, rfl⟩ := henter
    obtain ⟨page, rfl, hfree, hlt, hmrt, hpool, hbelow, hlayout⟩ :=
      h.pool.allocPage4k_took h.below halloc
    have hne : t ≠ page := by
      rintro rfl
      exact h.used t ⟨r, p, hr, ht⟩ hfree
    rw [Nat.mul_div_cancel _ (by decide : 0 < 4096)]
    exact h.link _ _ hr ht hlen (Bool.not_eq_true _ ▸ hpresent) hlink.isDirType hfree
      (by omega) hpool
      hbelow hlayout hmrt (hlink.mem _ t l page hne) (hlink.pool _ _ _ _)

theorem TablesOk.descend (h : TablesOk m roots) {link : Machine → Nat → Nat → Nat → Machine}
    {flags s : Nat} (hlink : IsLink link flags) (hr : roots r) {ls : List Nat}
    (ht : reach decode m.mem 3 r p = some t) (hlen : p.length + ls.length ≤ 3)
    (hdescend : descend link ls t m = .ok (s, m')) :
    TablesOk m' roots ∧ reach decode m'.mem 3 r (p ++ ls) = some s ∧
      (∀ r' q, roots r' → find decode m'.mem 3 r' q = find decode m.mem 3 r' q) ∧
      Extended m m' roots fun u => ∃ q, q <+: ls ∧ reach decode m.mem 3 r (p ++ q) = some u := by
  induction ls generalizing m t p with
  | nil =>
    cases hdescend
    rw [append_nil]
    exact ⟨h, ht, fun _ _ _ => rfl, .refl⟩
  | cons l ls ih =>
    rw [Mm.descend] at hdescend
    obtain ⟨⟨t', m₁⟩, henter, hdescend⟩ := bind_eq_ok.mp hdescend
    rw [length_cons] at hlen
    obtain ⟨h₁, ht₁, hfind₁, hext₁⟩ := h.enter hlink hr ht (by omega) henter
    obtain ⟨h', hs, hfind, hext⟩ := ih h₁ ht₁
      (by rw [length_append, length_singleton]; omega) hdescend
    rw [append_assoc, singleton_append] at hs
    have hfirst : Extended m m₁ roots fun u =>
        ∃ q, q <+: l :: ls ∧ reach decode m.mem 3 r (p ++ q) = some u := by
      refine hext₁.mono fun u hu => ⟨[], nil_prefix, ?_⟩
      rw [hu, append_nil]
      exact ht
    refine ⟨h', hs, fun r' q hr' => (hfind r' q hr').trans (hfind₁ r' q hr'),
      hfirst.trans hext fun u hu ⟨q, hq, hreach⟩ => ?_⟩
    rw [append_assoc, singleton_append] at hreach
    exact ⟨l :: q, cons_prefix_cons.mpr ⟨rfl, hq⟩,
      (hext₁.reached r _ u hr hreach).resolve_right hu⟩

end Keep

end Osx64.Mm
