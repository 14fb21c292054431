import Osx64.Mm.ForkCopy

/-!
# Fork and its undoing

`free_ptable_and_mem` gives back exactly the pages below the lower half, each once, and the PML4.
Together with the copy this makes a round trip: after `fork_enter` has built an address space and
`free_ptable_and_mem` has taken it down again, every page has the reference count it had before.
-/

namespace Osx64.Mm

open TableTree List Function Prod

/-! ## Giving pages back -/

/-- From `m` to `m'` the pages of `gone` have become free, and only pages of `touched` have been
written. -/
structure Freed (m m' : Machine) (touched : Nat → Prop) (gone : List Nat) : Prop where
  pool : PoolOk m'.pool
  layout : m'.pool.layout = m.pool.layout
  mrt : ∀ p, m'.pool.mrt p = if p ∈ gone then 0 else m.pool.mrt p
  mem : ∀ p, ¬ touched p → m'.mem p = m.mem p

/-- Pages that can be given back: each is there once, with one reference. -/
structure Freeable (m : Machine) (pages : List Nat) : Prop where
  pool : PoolOk m.pool
  supported : m.pool.Supported
  nodup : pages.Nodup
  one : ∀ p ∈ pages, m.pool.mrt p = 1
  holds : ∀ p ∈ pages, m.pool.Holds p

section Freed

variable {m m₁ m' : Machine} {touched : Nat → Prop} {pages pages' all : List Nat} {page : Nat}

theorem Freed.refl (hpool : PoolOk m.pool) : Freed m m touched [] :=
  ⟨hpool, rfl, fun p => by rw [if_neg not_mem_nil], fun _ _ => rfl⟩

theorem Freed.trans (h : Freed m m₁ touched pages) (h' : Freed m₁ m' touched pages')
    (hall : ∀ p, p ∈ all ↔ p ∈ pages ∨ p ∈ pages') : Freed m m' touched all := by
  refine ⟨h'.pool, h'.layout.trans h.layout, fun p => ?_, fun p hp => ?_⟩
  · rw [h'.mrt, h.mrt]
    by_cases hp' : p ∈ pages'
    · rw [if_pos hp', if_pos ((hall p).mpr (.inr hp'))]
    · by_cases hp : p ∈ pages
      · rw [if_neg hp', if_pos hp, if_pos ((hall p).mpr (.inl hp))]
      · rw [if_neg hp', if_neg hp, if_neg fun hmem => ((hall p).mp hmem).elim hp hp']
  · rw [h'.mem p hp, h.mem p hp]

/-- What is left can still be given back. -/
theorem Freeable.rest (h : Freeable m all) (hfreed : Freed m m' touched pages)
    (hnodup : pages'.Nodup) (hsub : ∀ p ∈ pages', p ∈ all ∧ p ∉ pages) : Freeable m' pages' where
  pool := hfreed.pool
  supported := h.supported.layout hfreed.layout
  nodup := hnodup
  one p hp := by
    rw [hfreed.mrt, if_neg (hsub p hp).2]
    exact h.one p (hsub p hp).1
  holds p hp := (h.holds p (hsub p hp).1).layout hfreed.layout

variable (pages) in
theorem Freeable.part (h : Freeable m all) (hnodup : pages.Nodup) (hsub : ∀ p ∈ pages, p ∈ all) :
    Freeable m pages :=
  ⟨h.pool, h.supported, hnodup, fun p hp => h.one p (hsub p hp), fun p hp => h.holds p (hsub p hp)⟩

variable (touched) in
theorem freePage_freed (h : Freeable m [page]) :
    ∃ m', m.freePage page = .ok m' ∧ Freed m m' touched [page] := by
  have hpage := mem_singleton_self page
  have hlt := h.supported.lt (h.holds page hpage)
  obtain ⟨pool, hdecrease, hmrt, hok, hlayout⟩ :=
    h.pool.decrease_spec h.supported (h.holds page hpage) (h.one page hpage)
  refine ⟨{ m with pool := pool }, ?_, hok, hlayout, fun p => ?_, fun _ _ => rfl⟩
  · rw [Machine.freePage, if_pos hlt, hdecrease]
  · change pool.mrt p = _
    rw [hmrt, update_apply]
    simp only [mem_singleton]

end Freed

/-! ## One entry -/

/-- The pages below a table of level `n`, without the table. -/
def freeBelow : Nat → Nat → Machine → Except Halt Machine
  | 0 => fun _ m => .ok m
  | n + 1 => freePagetableLevel n

theorem freePagetableLevel_eq (n t : Nat) (m : Machine) :
    freePagetableLevel n t m = (range 512).foldlM (freeEntry (freeBelow n) t) m := by
  cases n <;> rfl

/-- The pages below the entries of a table are all given back, by a loop over the entries. -/
theorem foldlM_freeEntry {n t : Nat} {m : Machine} {is : List Nat}
    (hturn : ∀ {m : Machine} {i : Nat}, Freeable m (entryPages m.mem n (m.mem t i)) →
      ∃ m', freeEntry (freeBelow n) t m i = .ok m' ∧
        Freed m m' (fun _ => False) (entryPages m.mem n (m.mem t i)))
    (h : Freeable m (is.flatMap fun i => entryPages m.mem n (m.mem t i))) :
    ∃ m', is.foldlM (freeEntry (freeBelow n) t) m = .ok m' ∧
      Freed m m' (fun _ => False) (is.flatMap fun i => entryPages m.mem n (m.mem t i)) := by
  induction is generalizing m with
  | nil => exact ⟨m, rfl, .refl h.pool⟩
  | cons i is ih =>
    rw [flatMap_cons] at h ⊢
    have hnodup := nodup_append.mp h.nodup
    obtain ⟨m₁, hfirst, hfreed⟩ := hturn
      (h.part (entryPages m.mem n (m.mem t i)) hnodup.1 fun p hp => mem_append_left _ hp)
    have hmem : m₁.mem = m.mem := funext fun p => hfreed.mem p not_false
    have hrest := h.rest hfreed hnodup.2.1 fun p hp =>
      ⟨mem_append_right _ hp, fun hp' => hnodup.2.2 p hp' p hp rfl⟩
    rw [← hmem] at hrest
    obtain ⟨m', hfold, hfreed'⟩ := ih hrest
    rw [hmem] at hfreed'
    refine ⟨m', ?_, hfreed.trans hfreed' fun p => mem_append⟩
    rw [foldlM_cons, hfirst]
    exact hfold

theorem freeEntry_freed (n : Nat) {t i : Nat} {m : Machine}
    (h : Freeable m (entryPages m.mem n (m.mem t i))) :
    ∃ m', freeEntry (freeBelow n) t m i = .ok m' ∧
      Freed m m' (fun _ => False) (entryPages m.mem n (m.mem t i)) := by
  induction n generalizing t i m with
  | zero =>
    unfold freeEntry
    cases hpresent : isPresent (m.mem t i) with
    | false =>
      rw [entryPages_of_not_present hpresent]
      exact ⟨m, rfl, .refl h.pool⟩
    | true =>
      have hpages : entryPages m.mem 0 (m.mem t i) = [m.mem t i / 4096] := by
        rw [entryPages, if_pos hpresent]
      rw [hpages] at h ⊢
      exact freePage_freed _ h
  | succ n ih =>
    unfold freeEntry
    cases hpresent : isPresent (m.mem t i) with
    | false =>
      rw [entryPages_of_not_present hpresent]
      exact ⟨m, rfl, .refl h.pool⟩
    | true =>
      rw [entryPages, if_pos hpresent] at h ⊢
      have hnodup := nodup_cons.mp h.nodup
      obtain ⟨m₁, hfold, hfreed⟩ := foldlM_freeEntry ih
        (h.part _ hnodup.2 fun p hp => mem_cons_of_mem _ hp)
      -- the table itself comes last
      obtain ⟨m', hpage, hfreed'⟩ := freePage_freed (fun _ => False)
        (h.rest hfreed (nodup_singleton (m.mem t i / 4096)) fun p hp => by
          rw [mem_singleton.mp hp]
          exact ⟨mem_cons_self, hnodup.1⟩)
      refine ⟨m', ?_, hfreed.trans hfreed' fun p => ?_⟩
      · rw [if_pos rfl, freeBelow, freePagetableLevel_eq, hfold]
        exact hpage
      · rw [mem_cons, mem_singleton, or_comm]

/-! ## The whole address space -/

/-- A turn of the loop of `free_ptable_and_mem` also clears the entry. -/
theorem freeRootEntry_freed {root i : Nat} {m : Machine}
    (h : Freeable m (entryPages m.mem 3 (m.mem root i))) :
    ∃ m', freeRootEntry root m i = .ok m' ∧
      Freed m m' (· = root) (entryPages m.mem 3 (m.mem root i)) ∧
      ∀ j, j ≠ i → m'.mem root j = m.mem root j := by
  obtain ⟨m₁, hentry, hfreed⟩ := freeEntry_freed 3 h
  have hmem (p : Nat) : m₁.mem p = m.mem p := hfreed.mem p not_false
  unfold freeEntry at hentry
  unfold freeRootEntry
  split at hentry
  · next hpresent =>
    refine ⟨m₁.setEntry root i 0, ?_, { hfreed with mem := fun p hp => ?_ },
      fun j hj => ?_⟩
    · rw [freeBelow] at hentry
      rw [if_pos hpresent, hentry]
      rfl
    · rw [mem_setEntry_of_ne hp, hmem]
    · rw [mem_setEntry_of_index_ne hj, hmem]
  · next hpresent =>
    cases hentry
    exact ⟨m, by rw [if_neg hpresent], { hfreed with mem := fun _ _ => rfl },
      fun _ _ => rfl⟩

theorem foldlM_freeRootEntry {root : Nat} {m : Machine} {is : List Nat} (hnodup : is.Nodup)
    (hroot : root ∉ is.flatMap fun i => entryPages m.mem 3 (m.mem root i))
    (h : Freeable m (is.flatMap fun i => entryPages m.mem 3 (m.mem root i))) :
    ∃ m', is.foldlM (freeRootEntry root) m = .ok m' ∧
      Freed m m' (· = root) (is.flatMap fun i => entryPages m.mem 3 (m.mem root i)) := by
  induction is generalizing m with
  | nil => exact ⟨m, rfl, .refl h.pool⟩
  | cons i is ih =>
    rw [flatMap_cons] at h hroot ⊢
    rw [nodup_cons] at hnodup
    have hpages := nodup_append.mp h.nodup
    obtain ⟨m₁, hfirst, hfreed, hframe⟩ := freeRootEntry_freed
      (h.part (entryPages m.mem 3 (m.mem root i)) hpages.1 fun p hp => mem_append_left _ hp)
    -- the other entries and what is below them are still there
    have hsame : (is.flatMap fun j => entryPages m₁.mem 3 (m₁.mem root j))
        = is.flatMap fun j => entryPages m.mem 3 (m.mem root j) := by
      refine flatMap_congr fun j hj => ?_
      rw [hframe j fun hji => hnodup.1 (hji ▸ hj)]
      refine entryPages_congr fun p hp => hfreed.mem p ?_
      rintro rfl
      exact hroot (mem_append_right _ (mem_flatMap.mpr ⟨j, hj, hp⟩))
    have hrest := h.rest hfreed hpages.2.1 fun p hp =>
      ⟨mem_append_right _ hp, fun hp' => hpages.2.2 p hp' p hp rfl⟩
    rw [← hsame] at hrest
    obtain ⟨m', hfold, hfreed'⟩ := ih hnodup.2
      (by rw [hsame]; exact fun hp => hroot (mem_append_right _ hp)) hrest
    rw [hsame] at hfreed'
    refine ⟨m', ?_, hfreed.trans hfreed' fun p => mem_append⟩
    rw [foldlM_cons, hfirst]
    exact hfold

/-- `free_ptable_and_mem` gives back the PML4 and all that is below its lower half. -/
theorem freePtableAndMem_freed {m : Machine} {kernel root : Nat} (hne : root ≠ kernel)
    (h : Freeable m (root :: lowerPages m.mem root)) :
    ∃ m', freePtableAndMem m kernel root = .ok m' ∧
      Freed m m' (· = root) (root :: lowerPages m.mem root) := by
  have hnodup := nodup_cons.mp h.nodup
  obtain ⟨m₁, hfold, hfreed⟩ := foldlM_freeRootEntry nodup_range hnodup.1
    (h.part _ hnodup.2 fun p hp => mem_cons_of_mem _ hp)
  obtain ⟨m', hpage, hfreed'⟩ := freePage_freed (· = root)
    (h.rest hfreed (nodup_singleton root) fun p hp => by
      rw [mem_singleton.mp hp]
      exact ⟨mem_cons_self, hnodup.1⟩)
  refine ⟨m', ?_, hfreed.trans hfreed' fun p => ?_⟩
  · rw [freePtableAndMem, if_neg hne, hfold]
    exact hpage
  · rw [mem_cons, mem_singleton, or_comm]
    rfl

/-! ## Copying an address space -/

/-- A user address space: its pages have 4 KiB each and are in use. -/
structure UserSpace (m : Machine) (root : Nat) : Prop where
  rootUsed : m.pool.mrt root ≠ 0
  entries : ∀ i < 256, UserEntry m.mem 3 (m.mem root i)
  pages : ∀ p ∈ lowerPages m.mem root, m.pool.mrt p ≠ 0

/-- What `copy_pagetable_and_mem` needs of the destination: it is in use, it is no page of the
source, and its lower half is empty. -/
structure EmptySpace (m : Machine) (source dest : Nat) : Prop where
  used : m.pool.mrt dest ≠ 0
  ne : source ≠ dest
  apart : dest ∉ lowerPages m.mem source
  empty : ∀ i < 256, isPresent (m.mem dest i) = false

section Copy

variable {m m' : Machine} {source dest : Nat}

/-- The machine after the upper half has been copied. -/
def upperCopied (m : Machine) (dest source : Nat) : Machine :=
  m.setPage dest fun i => if 256 ≤ i ∧ i < 512 then m.mem source i else m.mem dest i

theorem copyPagetableAndMem_eq : copyPagetableAndMem m dest source
    = (range 256).foldlM (copyAt 3 source dest) (upperCopied m dest source) := rfl

theorem mem_lowerPages {mem : Nat → Nat → Nat} {root i p : Nat} (hi : i < 256)
    (hp : p ∈ entryPages mem 3 (mem root i)) : p ∈ lowerPages mem root :=
  mem_flatMap.mpr ⟨i, mem_range.mpr hi, hp⟩

/-- The loop over the lower half can start. -/
theorem copyReady (hpool : PoolOk m.pool) (hsupported : m.pool.Supported)
    (hsource : UserSpace m source) (hdest : EmptySpace m source dest) {i : Nat} (hi : i < 256) :
    CopyReady 3 source dest (upperCopied m dest source) i := by
  have hsrc : (upperCopied m dest source).mem source = m.mem source := mem_setPage_of_ne hdest.ne
  have hkeep : ∀ p ∈ entryPages m.mem 3 (m.mem source i),
      (upperCopied m dest source).mem p = m.mem p := by
    intro p hp
    refine mem_setPage_of_ne ?_
    rintro rfl
    exact hdest.apart (mem_lowerPages hi hp)
  refine ⟨hpool, hsupported, hsource.rootUsed, hdest.used, hdest.ne, ?_, fun p hp => ?_, ?_⟩
  · rw [hsrc]
    exact (hsource.entries i hi).congr hkeep
  · rw [hsrc, entryPages_congr hkeep] at hp
    refine ⟨hsource.pages p (mem_lowerPages hi hp), ?_⟩
    rintro rfl
    exact hdest.apart (mem_lowerPages hi hp)
  · rw [upperCopied, mem_setPage_self, if_neg (by omega)]
    exact hdest.empty i hi

theorem lowerPages_upperCopied (hdest : EmptySpace m source dest) :
    (range 256).flatMap (fun i => entryPages (upperCopied m dest source).mem 3
      ((upperCopied m dest source).mem source i)) = lowerPages m.mem source := by
  refine flatMap_congr fun i hi => ?_
  have hsrc : (upperCopied m dest source).mem source = m.mem source := mem_setPage_of_ne hdest.ne
  rw [hsrc]
  refine entryPages_congr fun p hp => mem_setPage_of_ne ?_
  rintro rfl
  exact hdest.apart (mem_lowerPages (mem_range.mp hi) hp)

theorem copyPagetableAndMem_returns (hpool : PoolOk m.pool) (hsupported : m.pool.Supported)
    (hsource : UserSpace m source) (hdest : EmptySpace m source dest)
    (hroom : (lowerPages m.mem source).length ≤ m.pool.freeTotal) :
    ∃ m', copyPagetableAndMem m dest source = .ok m' := by
  cases hcopy : copyPagetableAndMem m dest source with
  | ok m' => exact ⟨m', rfl⟩
  | error halt =>
    rw [copyPagetableAndMem_eq] at hcopy
    have hready : ∀ i ∈ range 256, CopyReady 3 source dest (upperCopied m dest source) i :=
      fun i hi => copyReady hpool hsupported hsource hdest (mem_range.mp hi)
    have hless := foldlM_copyAt_error (copyAt_error 3) hready nodup_range hcopy
    rw [lowerPages_upperCopied hdest] at hless
    exact absurd hroom (Nat.not_le.mpr hless)

/-- What the copy does, seen from the machine before it. -/
theorem copyPagetableAndMem_copied (hpool : PoolOk m.pool) (hsupported : m.pool.Supported)
    (hsource : UserSpace m source) (hdest : EmptySpace m source dest)
    (hcopy : copyPagetableAndMem m dest source = .ok m') :
    Grown m m' (· = dest) (lowerPages m'.mem dest) ∧
      (∀ i, 256 ≤ i → i < 512 → m'.mem dest i = m.mem source i) ∧
      ∀ i < 256, SameEntry m'.mem 3 (m.mem source i) (m'.mem dest i) := by
  rw [copyPagetableAndMem_eq] at hcopy
  have hready : ∀ i ∈ range 256, CopyReady 3 source dest (upperCopied m dest source) i :=
    fun i hi => copyReady hpool hsupported hsource hdest (mem_range.mp hi)
  have hcopied := foldlM_copyAt (copyAt_copied 3) (by exact hpool) hready nodup_range hcopy
  have hsrc : (upperCopied m dest source).mem source = m.mem source := mem_setPage_of_ne hdest.ne
  have hstart : Grown m (upperCopied m dest source) (· = dest) [] :=
    .refl hpool rfl fun p hp => mem_setPage_of_ne hp
  refine ⟨hstart.trans hcopied.grown fun p hp => .inl hp, fun i hlo hhi => ?_, fun i hi => ?_⟩
  · rw [hcopied.frame i (by rw [mem_range]; omega), upperCopied, mem_setPage_self,
      if_pos ⟨hlo, hhi⟩]
  · have hsame := hcopied.same i (mem_range.mpr hi)
    rwa [hsrc] at hsame

/-- The copy maps the pages that the source maps. -/
theorem walk_copied (hsource : UserSpace m source) (hdest : EmptySpace m source dest)
    (hgrown : Grown m m' (· = dest) (lowerPages m'.mem dest))
    (hsame : ∀ i < 256, SameEntry m'.mem 3 (m.mem source i) (m'.mem dest i)) {v : Nat}
    (hv : v < 2 ^ 47) :
    (walk m' dest v).map snd = (walk m source v).map snd ∧
      ∀ a f a' f', walk m source v = some (a, f) → walk m' dest v = some (a', f') →
        m'.mem (a' / 4096) = m.mem (a / 4096) := by
  obtain ⟨i, q, hindices, hi, hlen, hindex⟩ :
      ∃ i q, indices v = i :: q ∧ i < 256 ∧ q.length = 3 ∧ ∀ j ∈ q, j < 512 := by
    refine ⟨_, _, rfl, by omega, rfl, fun j hj => ?_⟩
    simp only [mem_cons, not_mem_nil, or_false] at hj
    omega
  have hkeep : ∀ p ∈ entryPages m.mem 3 (m.mem source i), m'.mem p = m.mem p := by
    intro p hp
    refine hgrown.mem_used (hsource.pages p (mem_lowerPages hi hp)) ?_
    rintro rfl
    exact hdest.apart (mem_lowerPages hi hp)
  have hsrc : m'.mem source i = m.mem source i := by rw [hgrown.mem_used hsource.rootUsed hdest.ne]
  have hentry := hsource.entries i hi
  have hentry' : UserEntry m'.mem 3 (m'.mem source i) := by
    rw [hsrc]
    exact hentry.congr hkeep
  have hsame' : SameEntry m'.mem 3 (m'.mem source i) (m'.mem dest i) := by
    rw [hsrc]
    exact hsame i hi
  have hleaf := hsame'.find hentry' hlen hindex
  rw [find_congr_pages hentry hsrc hkeep hindex] at hleaf
  rw [walk, walk, hindices]
  cases hfind : find decode m.mem 3 source (i :: q) with
  | none =>
    cases hfind' : find decode m'.mem 3 dest (i :: q) with
    | none => exact ⟨rfl, fun _ _ _ _ h => nomatch h⟩
    | some leaf' =>
      rw [hfind, hfind'] at hleaf
      exact hleaf.elim
  | some leaf =>
    cases hfind' : find decode m'.mem 3 dest (i :: q) with
    | none =>
      rw [hfind, hfind'] at hleaf
      exact hleaf.elim
    | some leaf' =>
      obtain ⟨e, rest⟩ := leaf
      obtain ⟨e', rest'⟩ := leaf'
      rw [hfind, hfind'] at hleaf
      obtain ⟨rfl, rfl, hflags, hlt, hlt', hpage⟩ := hleaf
      refine ⟨?_, fun a f a' f' ha ha' => ?_⟩
      · simp [hflags]
      · simp only [Option.map_some, leafAddr, Option.some_inj, mk.injEq] at ha ha'
        rw [← ha.1, ← ha'.1, Nat.mul_div_cancel _ (by decide : 0 < 4096),
          Nat.mul_div_cancel _ (by decide : 0 < 4096), Nat.mod_eq_of_lt (by omega),
          Nat.mod_eq_of_lt (by omega), hpage]
        exact hkeep _ (mem_entryPages_of_find hentry hindex hfind)

/-- What has been built can be taken down, and the reference counts are those from before the
destination was taken. -/
theorem freePtableAndMem_copied {before : PagePool} {kernel : Nat} (hsupported : m.pool.Supported)
    (hgrown : Grown m m' (· = dest) (lowerPages m'.mem dest)) (hbefore : PoolOk before)
    (halloc : allocPage4k before = .ok (dest * 4096, m.pool)) (hne : dest ≠ kernel) :
    ∃ m'', freePtableAndMem m' kernel dest = .ok m'' ∧ m''.pool.mrt = before.mrt ∧
      ∀ p, p ∉ lowerPages m'.mem dest → p ≠ dest → m''.mem p = m.mem p := by
  rcases hbefore.allocPage4k_spec with
    ⟨herr, _⟩ | ⟨page, pool, halloc', hfree, hholds, hmrt, _, hlayout, _⟩
  · rw [herr] at halloc
    cases halloc
  rw [halloc', Except.ok.injEq, mk.injEq] at halloc
  obtain ⟨hpage, rfl⟩ := halloc
  obtain rfl : page = dest := by omega
  have hone : m.pool.mrt page = 1 := by rw [hmrt, update_self]
  have hnot : page ∉ lowerPages m'.mem page := hgrown.not_mem (by rw [hone]; decide)
  obtain ⟨m'', hfreePtable, hfreed⟩ := freePtableAndMem_freed (m := m') hne
    { pool := hgrown.pool
      supported := hsupported.layout hgrown.layout
      nodup := nodup_cons.mpr ⟨hnot, hgrown.nodup⟩
      one := fun p hp => by
        rw [hgrown.mrt]
        rcases mem_cons.mp hp with rfl | hp
        · rw [if_neg hnot, hone]
        · rw [if_pos hp]
      holds := fun p hp => by
        rcases mem_cons.mp hp with rfl | hp
        · exact hholds.layout (hgrown.layout.trans hlayout)
        · exact (hgrown.holds p hp).layout hgrown.layout }
  refine ⟨m'', hfreePtable, funext fun p => ?_, fun p hp hp' => ?_⟩
  · rw [hfreed.mrt, hgrown.mrt]
    by_cases hp : p = page
    · rw [hp, if_pos mem_cons_self, hfree]
    · have hbefore : m.pool.mrt p = before.mrt p := by rw [hmrt, update_of_ne hp]
      by_cases hlower : p ∈ lowerPages m'.mem page
      · rw [if_pos (mem_cons_of_mem _ hlower), ← hbefore, hgrown.free p hlower]
      · rw [if_neg fun hmem => (mem_cons.mp hmem).elim hp hlower, if_neg hlower, hbefore]
  · rw [hfreed.mem p hp', hgrown.mem p hp hp']

end Copy

/-- `copy_pagetable_and_mem` returns if there are as many free pages as the source has below its
lower half.  When it returns, the destination maps the user pages that the source maps, with the
same flags and contents; all its tables and frames are new and different; the source is unchanged,
and the upper halves are the same.  `free_ptable_and_mem` then brings every reference count back to
what it was before the destination was taken. -/
theorem copy_roundTrip {m : Machine} {kernel source dest : Nat} (hpool : PoolOk m.pool)
    (hsupported : m.pool.Supported) (hsource : UserSpace m source)
    (hdest : EmptySpace m source dest) :
    ((lowerPages m.mem source).length ≤ m.pool.freeTotal →
      ∃ m', copyPagetableAndMem m dest source = .ok m') ∧
    ∀ m', copyPagetableAndMem m dest source = .ok m' →
      (∀ v < 2 ^ 47, (walk m' dest v).map snd = (walk m source v).map snd ∧
        ∀ a f a' f', walk m source v = some (a, f) → walk m' dest v = some (a', f') →
          m'.mem (a' / 4096) = m.mem (a / 4096)) ∧
      ((lowerPages m'.mem dest).Nodup ∧ ∀ p ∈ lowerPages m'.mem dest,
        m.pool.mrt p = 0 ∧ m'.pool.mrt p = 1 ∧ p ∉ source :: lowerPages m.mem source) ∧
      (∀ p ∈ source :: lowerPages m.mem source,
        m'.mem p = m.mem p ∧ m'.pool.mrt p = m.pool.mrt p) ∧
      (∀ i, 256 ≤ i → i < 512 → m'.mem dest i = m'.mem source i) ∧
      ∀ before, PoolOk before → allocPage4k before = .ok (dest * 4096, m.pool) → dest ≠ kernel →
        ∃ m'', freePtableAndMem m' kernel dest = .ok m'' ∧ m''.pool.mrt = before.mrt ∧
          ∀ p ∈ source :: lowerPages m.mem source, m''.mem p = m.mem p := by
  have hold : ∀ p ∈ source :: lowerPages m.mem source, m.pool.mrt p ≠ 0 ∧ p ≠ dest := by
    intro p hp
    rcases mem_cons.mp hp with rfl | hp
    · exact ⟨hsource.rootUsed, hdest.ne⟩
    · refine ⟨hsource.pages p hp, ?_⟩
      rintro rfl
      exact hdest.apart hp
  refine ⟨copyPagetableAndMem_returns hpool hsupported hsource hdest, fun m' hcopy => ?_⟩
  obtain ⟨hgrown, hupper, hsame⟩ := copyPagetableAndMem_copied hpool hsupported hsource hdest hcopy
  refine ⟨fun v hv => walk_copied hsource hdest hgrown hsame hv, ⟨hgrown.nodup, fun p hp => ?_⟩,
    fun p hp => ⟨?_, ?_⟩, fun i hlo hhi => ?_, fun before hbefore halloc hne => ?_⟩
  · refine ⟨hgrown.free p hp, by rw [hgrown.mrt, if_pos hp], fun hmem => ?_⟩
    exact (hold p hmem).1 (hgrown.free p hp)
  · exact hgrown.mem_used (hold p hp).1 (hold p hp).2
  · rw [hgrown.mrt, if_neg (hgrown.not_mem (hold p hp).1)]
  · rw [hupper i hlo hhi, hgrown.mem_used hsource.rootUsed hdest.ne]
  · obtain ⟨m'', hfree, hmrt, hmem⟩ :=
      freePtableAndMem_copied hsupported hgrown hbefore halloc hne
    exact ⟨m'', hfree, hmrt, fun p hp => hmem p (hgrown.not_mem (hold p hp).1) (hold p hp).2⟩

/-- One user page at `0x400000`, in frame 11, and an empty PML4 in page 10. -/
def forkSample : Machine where
  pool := ⟨0x10000, 16, 8, [⟨0x1000, 0x9000, 8, 0x1000⟩],
    fun p => if 1 ≤ p ∧ p < 9 then 0 else 0xff⟩
  mem := fun p i =>
    if p = 12 ∧ i = 0 then 13 * 4096 + 7
    else if p = 13 ∧ i = 0 then 14 * 4096 + 7
    else if p = 14 ∧ i = 2 then 15 * 4096 + 7
    else if p = 15 ∧ i = 0 then 11 * 4096 + 7
    else if p = 11 then i + 42
    else 0

theorem forkSample_lowerPages : lowerPages forkSample.mem 12 = [13, 14, 15, 11] := by decide +kernel

theorem forkSample_userSpace : UserSpace forkSample 12 where
  rootUsed := by decide
  entries := by decide +kernel
  pages := by
    rw [forkSample_lowerPages]
    decide

theorem forkSample_emptySpace : EmptySpace forkSample 12 10 where
  used := by decide
  ne := by decide
  apart := by
    rw [forkSample_lowerPages]
    decide
  empty := by decide +kernel

theorem forkSample_poolOk : PoolOk forkSample.pool where
  areas a ha := by
    rw [mem_singleton.mp ha]
    exact ⟨rfl, rfl, by decide, fun _ =>
      ⟨1, rfl, ⟨by decide, by decide, by decide⟩, fun q hq => hq.1⟩⟩
  sorted := pairwise_singleton _ _
  pageZero := rfl

theorem forkSample_supported : forkSample.pool.Supported where
  below := by decide
  hpa := by decide

/-- The page is mapped in the copy. -/
theorem copy_roundTrip_sample :
    ∃ m', copyPagetableAndMem forkSample 10 12 = .ok m' ∧
      (walk m' 10 0x400000).map snd = some 7 := by
  obtain ⟨hreturns, hcopied⟩ := @copy_roundTrip _ 9 _ _ forkSample_poolOk forkSample_supported
    forkSample_userSpace forkSample_emptySpace
  obtain ⟨m', hcopy⟩ := hreturns (by rw [forkSample_lowerPages]; decide)
  refine ⟨m', hcopy, ?_⟩
  rw [((hcopied m' hcopy).1 0x400000 (by decide)).1]
  decide +kernel

end Osx64.Mm
