import Osx64.Mm.Fork

/-!
# The copy of an address space

`copy_user_pagetable` only writes pages that were free and the table it fills.  So the tree it
copies stays as it is, and what it has built before is not touched again.  `Grown` says what a part
of the copy does with the machine; the pages below an entry that has been copied are exactly the new
ones.
-/

namespace Osx64.Mm

open TableTree List Function Nat

/-! ## Taking pages -/

/-- From `m` to `m'` the pages of `new` have been taken, and only they and the pages of `touched`
have been written. -/
structure Grown (m m' : Machine) (touched : Nat → Prop) (new : List Nat) : Prop where
  pool : PoolOk m'.pool
  layout : m'.pool.layout = m.pool.layout
  nodup : new.Nodup
  free : ∀ p ∈ new, m.pool.mrt p = 0
  holds : ∀ p ∈ new, m.pool.Holds p
  mrt : ∀ p, m'.pool.mrt p = if p ∈ new then 1 else m.pool.mrt p
  total : m'.pool.freeTotal + new.length = m.pool.freeTotal
  mem : ∀ p, p ∉ new → ¬ touched p → m'.mem p = m.mem p

section Grown

variable {m m₁ m' : Machine} {touched touched' : Nat → Prop} {new new' : List Nat}
  {p page dst i e : Nat}
  {x : Nat → Nat}

section

variable (h : Grown m m' touched new)
include h

theorem Grown.used (hp : m.pool.mrt p ≠ 0) : m'.pool.mrt p ≠ 0 := by
  rw [h.mrt]
  split
  · decide
  · exact hp

theorem Grown.not_mem (hp : m.pool.mrt p ≠ 0) : p ∉ new :=
  fun hmem => hp (h.free p hmem)

theorem Grown.new_used (hp : p ∈ new) : m'.pool.mrt p ≠ 0 := by
  rw [h.mrt, if_pos hp]
  decide

/-- A page that is in use and not touched stays as it is. -/
theorem Grown.mem_used (hp : m.pool.mrt p ≠ 0) (hnot : ¬ touched p) :
    m'.mem p = m.mem p :=
  h.mem p (h.not_mem hp) hnot

end

theorem Grown.trans (h : Grown m m₁ touched new) (h' : Grown m₁ m' touched' new')
    (hsub : ∀ p, touched' p → touched p ∨ p ∈ new) : Grown m m' touched (new ++ new') := by
  have hold {p} (hp : p ∈ new') : p ∉ new ∧ m.pool.mrt p = 0 := by
    have hfree := h'.free p hp
    rw [h.mrt] at hfree
    split at hfree
    · cases hfree
    · next hnot => exact ⟨hnot, hfree⟩
  refine ⟨h'.pool, h'.layout.trans h.layout, ?_, fun p hp => ?_, fun p hp => ?_, fun p => ?_, ?_,
    fun p hp hnot => ?_⟩
  · exact h.nodup.append h'.nodup fun p hp hp' => (hold hp').1 hp
  · rcases mem_append.mp hp with hp | hp
    · exact h.free p hp
    · exact (hold hp).2
  · rcases mem_append.mp hp with hp | hp
    · exact h.holds p hp
    · exact (h'.holds p hp).layout h.layout.symm
  · rw [h'.mrt, h.mrt]
    by_cases hp : p ∈ new
    · have hnot : p ∉ new' := fun hp' => (hold hp').1 hp
      rw [if_neg hnot, if_pos hp, if_pos (mem_append_left _ hp)]
    · by_cases hp' : p ∈ new'
      · rw [if_pos hp', if_pos (mem_append_right _ hp')]
      · rw [if_neg hp', if_neg hp, if_neg fun hmem => (mem_append.mp hmem).elim hp hp']
  · have htotal := h.total
    have htotal' := h'.total
    rw [length_append]
    omega
  · rw [mem_append, not_or] at hp
    rw [h'.mem p hp.2 fun htouched => (hsub p htouched).elim hnot hp.1, h.mem p hp.1 hnot]

/-- Only entries of touched pages are written. -/
theorem Grown.refl (hpool : PoolOk m.pool) (hsame : m'.pool = m.pool)
    (hmem : ∀ p, ¬ touched p → m'.mem p = m.mem p) : Grown m m' touched [] where
  pool := hsame ▸ hpool
  layout := by rw [hsame]
  nodup := nodup_nil
  free _ hp := nomatch hp
  holds _ hp := nomatch hp
  mrt p := by rw [hsame, if_neg not_mem_nil]
  total := by rw [hsame, length_nil]; rfl
  mem p _ := hmem p

theorem mem_setEntry_of_ne (h : p ≠ dst) : (m.setEntry dst i e).mem p = m.mem p := write_of_ne h

@[simp] theorem mem_setEntry_self : (m.setEntry dst i e).mem dst i = e := write_self

theorem mem_setEntry_of_index_ne {j : Nat} (h : j ≠ i) : (m.setEntry dst i e).mem p j = m.mem p j :=
  write_of_index_ne h

theorem mem_setPage_of_ne (h : p ≠ page) : (m.setPage page x).mem p = m.mem p :=
  update_of_ne h ..

@[simp] theorem mem_setPage_self : (m.setPage page x).mem page = x :=
  update_self ..

theorem newPage_grown (hpool : PoolOk m.pool) (hnew : m.newPage = .ok (page, m₁)) :
    Grown m m₁ (fun _ => False) [page] ∧ m₁.mem = m.mem := by
  unfold Machine.newPage at hnew
  rcases hpool.allocPage4k_spec with
    ⟨herr, _⟩ | ⟨page', pool, halloc, hfree, hholds, hmrt, hok, hlayout, htotal⟩
  · rw [herr] at hnew
    cases hnew
  rw [halloc] at hnew
  dsimp only at hnew
  rw [Nat.mul_div_cancel _ (by decide), Except.ok.injEq, Prod.mk.injEq] at hnew
  obtain ⟨rfl, rfl⟩ := hnew
  refine ⟨⟨hok, hlayout, nodup_singleton _, fun p hp => ?_, fun p hp => ?_, fun p => ?_, htotal,
    fun _ _ _ => rfl⟩, rfl⟩
  · rw [mem_singleton.mp hp]
    exact hfree
  · rw [mem_singleton.mp hp]
    exact hholds
  · change pool.mrt p = _
    rw [hmrt, update_apply]
    simp only [mem_singleton]

/-- A page is taken and written, and the entry of `dst` that points to it is written. -/
theorem Grown.newPage (hpool : PoolOk m.pool) (hdst : m.pool.mrt dst ≠ 0)
    (hnew : m.newPage = .ok (page, m₁)) :
    Grown m ((m₁.setPage page x).setEntry dst i e) (· = dst) [page] ∧ page ≠ dst ∧
    m₁.mem = m.mem := by
  obtain ⟨h, hmem⟩ := newPage_grown hpool hnew
  refine ⟨{ h with mem := fun p hp hnot => ?_ }, ?_, hmem⟩
  · rw [mem_setEntry_of_ne hnot, mem_setPage_of_ne (by simpa using hp), hmem]
  · rintro rfl
    exact hdst (h.free page (mem_singleton_self page))

/-- `kmalloc` fails only when there is no free page. -/
theorem newPage_error (hpool : PoolOk m.pool) {halt : Halt} (hnew : m.newPage = .error halt) :
    m.pool.freeTotal = 0 := by
  unfold Machine.newPage at hnew
  rcases hpool.allocPage4k_spec with ⟨_, htotal⟩ | ⟨page', pool, halloc, _⟩
  · exact htotal
  · rw [halloc] at hnew
    cases hnew

end Grown

/-! ## One entry -/

/-- The turn of the loop for an entry of a table of level `n`. -/
def copyAt : Nat → Nat → Nat → Machine → Nat → Except Halt Machine
  | 0 => copyLeaf
  | n + 1 => copyDir (copyUserPagetable n)

theorem copyUserPagetable_eq (n src dst : Nat) (m : Machine) :
    copyUserPagetable n src dst m = (range 512).foldlM (copyAt n src dst) m := by
  cases n <;> rfl

/-- What the copy of entry `i` needs: the pages below it are in use, and `dst` is none of them. -/
structure CopyReady (n src dst : Nat) (m : Machine) (i : Nat) : Prop where
  pool : PoolOk m.pool
  supported : m.pool.Supported
  srcUsed : m.pool.mrt src ≠ 0
  dstUsed : m.pool.mrt dst ≠ 0
  ne : src ≠ dst
  entry : UserEntry m.mem n (m.mem src i)
  used : ∀ p ∈ entryPages m.mem n (m.mem src i), m.pool.mrt p ≠ 0 ∧ p ≠ dst
  empty : isPresent (m.mem dst i) = false

/-- What it does. -/
structure EntryCopied (n src dst : Nat) (m m' : Machine) (i : Nat) : Prop where
  grown : Grown m m' (· = dst) (entryPages m'.mem n (m'.mem dst i))
  frame : ∀ j, j ≠ i → m'.mem dst j = m.mem dst j
  same : SameEntry m'.mem n (m.mem src i) (m'.mem dst i)

section Entry

variable {n src dst i : Nat} {m m' : Machine}

/-- Another entry is as ready as before. -/
theorem CopyReady.grown {j : Nat} {new : List Nat} (h : CopyReady n src dst m j)
    (hgrown : Grown m m' (· = dst) new) (hframe : m'.mem dst j = m.mem dst j) :
    CopyReady n src dst m' j ∧ m'.mem src j = m.mem src j := by
  have hsrc : m'.mem src j = m.mem src j := by rw [hgrown.mem_used h.srcUsed h.ne]
  have hpages : ∀ p ∈ entryPages m.mem n (m.mem src j), m'.mem p = m.mem p :=
    fun p hp => hgrown.mem_used (h.used p hp).1 (h.used p hp).2
  refine ⟨⟨hgrown.pool, h.supported.layout hgrown.layout, hgrown.used h.srcUsed,
    hgrown.used h.dstUsed, h.ne, ?_, fun p hp => ?_, ?_⟩, hsrc⟩
  · rw [hsrc]
    exact h.entry.congr hpages
  · rw [hsrc, entryPages_congr hpages] at hp
    exact ⟨hgrown.used (h.used p hp).1, (h.used p hp).2⟩
  · rw [hframe]
    exact h.empty

/-- Nothing is there to copy. -/
theorem EntryCopied.absent (h : CopyReady n src dst m i)
    (hpresent : isPresent (m.mem src i) = false) :
    EntryCopied n src dst m (m.setEntry dst i 0) i := by
  have hzero : entryPages (m.setEntry dst i 0).mem n ((m.setEntry dst i 0).mem dst i) = [] := by
    rw [mem_setEntry_self]
    exact entryPages_of_not_present rfl
  refine ⟨?_, fun j hj => mem_setEntry_of_index_ne hj, ?_⟩
  · rw [hzero]
    exact .refl h.pool rfl fun p hp => mem_setEntry_of_ne hp
  · rw [mem_setEntry_self]
    cases n <;> simp [SameEntry, hpresent] <;> rfl

theorem or_flags_entry (page : Nat) {flags : Nat} (hflags : flags < 4096) :
    (page * 4096 ||| flags) / 4096 = page ∧ (page * 4096 ||| flags) % 4096 = flags := by
  rw [or_flags (mul_mod_left ..) hflags]
  omega

/-- A frame is copied. -/
theorem copyLeaf_copied (h : CopyReady 0 src dst m i) (hcopy : copyLeaf src dst m i = .ok m') :
    EntryCopied 0 src dst m m' i := by
  unfold copyLeaf at hcopy
  split at hcopy
  · next hpresent =>
    split at hcopy
    · cases hcopy
    obtain ⟨⟨page, m₁⟩, hnew, hcopy⟩ := bind_eq_ok.mp hcopy
    cases hcopy
    obtain ⟨haddr, hflags⟩ := or_flags_entry page
      (mod_lt (m.mem src i) (by decide : 0 < 4096))
    obtain ⟨hgrown, hne, hmem⟩ := Grown.newPage (i := i) (x := m₁.mem (m.mem src i / 4096))
      (e := page * 4096 ||| m.mem src i % 4096) h.pool h.dstUsed hnew
    generalize page * 4096 ||| m.mem src i % 4096 = e at *
    have hpresent' : isPresent e = true := (isPresent_of_mod_eq hflags).trans hpresent
    have hsrc := h.used _ (mem_entryPages_self hpresent)
    have hpages (mem : Nat → Nat → Nat) : entryPages mem 0 e = [page] := by
      rw [entryPages, if_pos hpresent', haddr]
    refine ⟨?_, fun j hj => ?_, ?_⟩
    · rw [mem_setEntry_self, hpages]
      exact hgrown
    · rw [mem_setEntry_of_index_ne hj, mem_setPage_of_ne hne.symm, hmem]
    · have hlt : page * 4096 < 2 ^ 40 :=
        h.supported.lt (hgrown.holds page (mem_singleton_self page))
      have hkeep := hgrown.mem_used hsrc.1 hsrc.2
      rw [mem_setEntry_self, SameEntry, if_pos hpresent, haddr, hkeep, mem_setEntry_of_ne hne,
        mem_setPage_self, hmem]
      exact ⟨hflags, by omega, rfl⟩
  · next hpresent =>
    cases hcopy
    exact .absent h (Bool.not_eq_true _ ▸ hpresent)

end Entry

/-! ## The entries of a table -/

/-- What the loop over entries of a table does. -/
structure TableCopied (n src dst : Nat) (m m' : Machine) (is : List Nat) : Prop where
  grown : Grown m m' (· = dst) (is.flatMap fun i => entryPages m'.mem n (m'.mem dst i))
  frame : ∀ j, j ∉ is → m'.mem dst j = m.mem dst j
  same : ∀ i ∈ is, SameEntry m'.mem n (m.mem src i) (m'.mem dst i)

section Table

variable {n src dst : Nat} {m m' : Machine} {is : List Nat}

/-- The later entries leave the earlier ones as they are. -/
theorem TableCopied.cons {m₁ : Machine} {i : Nat} (hready : CopyReady n src dst m i) (hi : i ∉ is)
    (hfirst : EntryCopied n src dst m m₁ i) (hrest : TableCopied n src dst m₁ m' is)
    (hsrc : ∀ j ∈ is, m₁.mem src j = m.mem src j) : TableCopied n src dst m m' (i :: is) := by
  have hdst : m'.mem dst i = m₁.mem dst i := hrest.frame i hi
  have hnew : ∀ p ∈ entryPages m₁.mem n (m₁.mem dst i), m'.mem p = m₁.mem p := by
    intro p hp
    refine hrest.grown.mem_used (hfirst.grown.new_used hp) ?_
    rintro rfl
    exact hready.dstUsed (hfirst.grown.free p hp)
  have hold : ∀ p ∈ entryPages m₁.mem n (m.mem src i), m'.mem p = m₁.mem p := by
    intro p hp
    rw [entryPages_congr fun p hp =>
      hfirst.grown.mem_used (hready.used p hp).1 (hready.used p hp).2]
      at hp
    exact hrest.grown.mem_used (hfirst.grown.used (hready.used p hp).1) (hready.used p hp).2
  have hpages : entryPages m'.mem n (m'.mem dst i) = entryPages m₁.mem n (m₁.mem dst i) := by
    rw [hdst]
    exact entryPages_congr hnew
  refine ⟨?_, fun j hj => ?_, fun j hj => ?_⟩
  · rw [flatMap_cons, hpages]
    exact hfirst.grown.trans hrest.grown fun p hp => .inl hp
  · rw [mem_cons, not_or] at hj
    rw [hrest.frame j hj.2, hfirst.frame j hj.1]
  · rcases mem_cons.mp hj with rfl | hj
    · rw [hdst]
      exact hfirst.same.congr hold hnew
    · rw [← hsrc j hj]
      exact hrest.same j hj

/-- The loop, from what one turn does. -/
theorem foldlM_copyAt
    (hturn : ∀ {m m' : Machine} {i : Nat}, CopyReady n src dst m i → copyAt n src dst m i = .ok m' →
      EntryCopied n src dst m m' i)
    (hpool : PoolOk m.pool) (hready : ∀ i ∈ is, CopyReady n src dst m i) (hnodup : is.Nodup)
    (hcopy : is.foldlM (copyAt n src dst) m = .ok m') : TableCopied n src dst m m' is := by
  induction is generalizing m with
  | nil =>
    cases hcopy
    exact ⟨.refl hpool rfl fun _ _ => rfl, fun _ _ => rfl, fun _ hi => nomatch hi⟩
  | cons i is ih =>
    rw [foldlM_cons] at hcopy
    obtain ⟨m₁, hfirst, hcopy⟩ := bind_eq_ok.mp hcopy
    have hready₀ := hready i mem_cons_self
    have hcopied := hturn hready₀ hfirst
    rw [nodup_cons] at hnodup
    have hnext (j : Nat) (hj : j ∈ is) :=
      (hready j (mem_cons_of_mem i hj)).grown hcopied.grown
        (hcopied.frame j fun hji => hnodup.1 (hji ▸ hj))
    have hrest := ih hcopied.grown.pool (fun j hj => (hnext j hj).1) hnodup.2 hcopy
    exact hrest.cons hready₀ hnodup.1 hcopied fun j hj => (hnext j hj).2

end Table

/-! ## All levels -/

section Levels

variable {n src dst i : Nat} {m m' : Machine}

/-- A new table is hung in for the tables below entry `i` to be copied into. -/
theorem CopyReady.below {m₂ : Machine} {page : Nat} (h : CopyReady (n + 1) src dst m i)
    (hpresent : isPresent (m.mem src i) = true) (hgrown : Grown m m₂ (· = dst) [page])
    (hzero : m₂.mem page = fun _ => 0) {j : Nat} (hj : j < 512) :
    CopyReady n (m.mem src i / 4096) page m₂ j := by
  have hpage := mem_singleton_self page
  have hsrc := h.used _ (mem_entryPages_self hpresent)
  have htable : m₂.mem (m.mem src i / 4096) = m.mem (m.mem src i / 4096) :=
    hgrown.mem_used hsrc.1 hsrc.2
  have hbelow : ∀ p ∈ entryPages m.mem n (m.mem (m.mem src i / 4096) j),
      m.pool.mrt p ≠ 0 ∧ p ≠ dst :=
    fun p hp => h.used p (mem_entryPages_below hpresent hj hp)
  have hkeep : ∀ p ∈ entryPages m.mem n (m.mem (m.mem src i / 4096) j), m₂.mem p = m.mem p :=
    fun p hp => hgrown.mem_used (hbelow p hp).1 (hbelow p hp).2
  have hne {p : Nat} (hp : m.pool.mrt p ≠ 0) : p ≠ page := by
    rintro rfl
    exact hgrown.not_mem hp hpage
  refine ⟨hgrown.pool, h.supported.layout hgrown.layout, hgrown.used hsrc.1, hgrown.new_used hpage,
    hne hsrc.1, ?_, fun p hp => ?_, ?_⟩
  · rw [htable]
    exact ((h.entry hpresent).2.2 j hj).congr hkeep
  · rw [htable, entryPages_congr hkeep] at hp
    have hused := (hbelow p hp).1
    exact ⟨hgrown.used hused, hne hused⟩
  · rw [hzero]
    rfl

/-- What the copy of an entry above the last level is: the halt of a big entry, the halt of the
allocator, or a new table that is filled. -/
theorem copyDir_eq (h : CopyReady (n + 1) src dst m i) (hpresent : isPresent (m.mem src i) = true) :
    (∃ halt, copyDir (copyUserPagetable n) src dst m i = .error halt) ∧ m.pool.freeTotal = 0 ∨
      ∃ page m₂, Grown m m₂ (· = dst) [page] ∧ (m₂.mem page = fun _ => 0) ∧ page ≠ dst ∧
        m₂.mem dst i = (page * 4096 ||| m.mem src i % 4096) ∧
        (∀ j, j ≠ i → m₂.mem dst j = m.mem dst j) ∧
        copyDir (copyUserPagetable n) src dst m i =
          (range 512).foldlM (copyAt n (m.mem src i / 4096) page) m₂ := by
  unfold copyDir ensureTable
  rw [if_pos hpresent, if_neg (by rw [(h.entry hpresent).1]; nofun),
    if_neg (by rw [h.empty]; nofun)]
  cases hnew : m.newPage with
  | error halt =>
    exact .inl ⟨⟨halt, rfl⟩, newPage_error h.pool hnew⟩
  | ok r =>
    obtain ⟨page, m₁⟩ := r
    obtain ⟨haddr, _⟩ := or_flags_entry page
      (mod_lt (m.mem src i) (by decide : 0 < 4096))
    obtain ⟨hgrown, hne, hmem⟩ := Grown.newPage (i := i) (x := fun _ => 0)
      (e := page * 4096 ||| m.mem src i % 4096) h.pool h.dstUsed hnew
    refine .inr ⟨page, _, hgrown, ?_, hne, mem_setEntry_self, fun j hj => ?_, ?_⟩
    · rw [mem_setEntry_of_ne hne, mem_setPage_self]
    · rw [mem_setEntry_of_index_ne hj, mem_setPage_of_ne hne.symm, hmem]
    · simp only [Except.bind, mem_setEntry_self, haddr, copyUserPagetable_eq]

/-- A new table is made and filled. -/
theorem copyDir_copied
    (hturn : ∀ {src dst : Nat} {m m' : Machine} {i : Nat}, CopyReady n src dst m i →
      copyAt n src dst m i = .ok m' → EntryCopied n src dst m m' i)
    (h : CopyReady (n + 1) src dst m i)
    (hcopy : copyDir (copyUserPagetable n) src dst m i = .ok m') :
    EntryCopied (n + 1) src dst m m' i := by
  cases hpresent : isPresent (m.mem src i) with
  | false =>
    rw [copyDir, if_neg (by rw [hpresent]; nofun)] at hcopy
    cases hcopy
    exact .absent h hpresent
  | true =>
    rcases copyDir_eq h hpresent with
      ⟨⟨halt, herr⟩, _⟩ | ⟨page, m₂, hgrown, hzero, hne, hentry, hframe, heq⟩
    · rw [herr] at hcopy
      cases hcopy
    rw [heq] at hcopy
    obtain ⟨haddr, hflags⟩ := or_flags_entry page
      (mod_lt (m.mem src i) (by decide : 0 < 4096))
    have hpage := mem_singleton_self page
    have hsrc := h.used _ (mem_entryPages_self hpresent)
    have htable : m₂.mem (m.mem src i / 4096) = m.mem (m.mem src i / 4096) :=
      hgrown.mem_used hsrc.1 hsrc.2
    have hready : ∀ j ∈ range 512, CopyReady n (m.mem src i / 4096) page m₂ j :=
      fun j hj => h.below hpresent hgrown hzero (mem_range.mp hj)
    have hcopied := foldlM_copyAt hturn hgrown.pool hready nodup_range hcopy
    -- the table that was filled stays where it was hung in
    have hdst : m'.mem dst = m₂.mem dst :=
      hcopied.grown.mem_used (hgrown.used h.dstUsed) (Ne.symm hne)
    have hsrc' : m'.mem (m.mem src i / 4096) = m.mem (m.mem src i / 4096) := by
      refine (hcopied.grown.mem_used (hgrown.used hsrc.1) fun heq => ?_).trans htable
      rw [heq] at hsrc
      exact hgrown.not_mem hsrc.1 hpage
    have hpresent' : isPresent (page * 4096 ||| m.mem src i % 4096) = true :=
      (isPresent_of_mod_eq hflags).trans hpresent
    refine ⟨?_, fun j hj => ?_, ?_⟩
    · rw [hdst, hentry, entryPages, if_pos hpresent', haddr, ← singleton_append]
      refine hgrown.trans hcopied.grown fun p hp => .inr ?_
      rw [hp]
      exact hpage
    · rw [hdst]
      exact hframe j hj
    · rw [hdst, hentry, SameEntry, if_pos hpresent, haddr, hsrc']
      have hlt : page * 4096 < 2 ^ 40 := h.supported.lt (hgrown.holds page hpage)
      refine ⟨hflags, ?_, fun j hj => ?_⟩
      · omega
      · have hsame := hcopied.same j (mem_range.mpr hj)
        rwa [htable] at hsame

/-- One turn of the loop, at every level. -/
theorem copyAt_copied (n : Nat) {src dst i : Nat} {m m' : Machine} (h : CopyReady n src dst m i)
    (hcopy : copyAt n src dst m i = .ok m') : EntryCopied n src dst m m' i := by
  induction n generalizing src dst m m' i with
  | zero => exact copyLeaf_copied h hcopy
  | succ n ih => exact copyDir_copied ih h hcopy

/-- A copy has as many pages as the original. -/
theorem SameEntry.length {mem : Nat → Nat → Nat} {n e e' : Nat} (h : SameEntry mem n e e') :
    (entryPages mem n e').length = (entryPages mem n e).length := by
  induction n generalizing e e' with
  | zero =>
    unfold SameEntry at h
    unfold entryPages
    split at h
    · next hpresent =>
      rw [isPresent_of_mod_eq h.1, if_pos hpresent, if_pos hpresent]
      rfl
    · next hpresent =>
      rw [h, if_neg hpresent]
      rfl
  | succ n ih =>
    unfold SameEntry at h
    unfold entryPages
    split at h
    · next hpresent =>
      rw [isPresent_of_mod_eq h.1, if_pos hpresent, if_pos hpresent, length_cons,
        length_cons, length_flatMap, length_flatMap,
        map_congr_left fun j hj => ih (h.2.2 j (mem_range.mp hj))]
    · next hpresent =>
      rw [h, if_neg hpresent]
      rfl

/-- The loop halts in one of its turns. -/
theorem foldlM_copyAt_error {is : List Nat} {halt : Halt}
    (hturn : ∀ {m : Machine} {i : Nat} {halt : Halt}, CopyReady n src dst m i →
      copyAt n src dst m i = .error halt →
      m.pool.freeTotal < (entryPages m.mem n (m.mem src i)).length)
    (hready : ∀ i ∈ is, CopyReady n src dst m i) (hnodup : is.Nodup)
    (hcopy : is.foldlM (copyAt n src dst) m = .error halt) :
    m.pool.freeTotal < (is.flatMap fun i => entryPages m.mem n (m.mem src i)).length := by
  induction is generalizing m with
  | nil => cases hcopy
  | cons i is ih =>
    rw [foldlM_cons] at hcopy
    rw [flatMap_cons, length_append]
    have hready₀ := hready i mem_cons_self
    cases hfirst : copyAt n src dst m i with
    | error halt' =>
      have hless := hturn hready₀ hfirst
      omega
    | ok m₁ =>
      rw [hfirst] at hcopy
      have hcopied := copyAt_copied n hready₀ hfirst
      rw [nodup_cons] at hnodup
      have hnext (j : Nat) (hj : j ∈ is) :=
        (hready j (mem_cons_of_mem i hj)).grown hcopied.grown
          (hcopied.frame j fun hji => hnodup.1 (hji ▸ hj))
      have hless := ih (fun j hj => (hnext j hj).1) hnodup.2 hcopy
      -- the pages of the first entry have been taken, those of the others are as before
      have hkeep : ∀ j ∈ i :: is, ∀ p ∈ entryPages m.mem n (m.mem src j), m₁.mem p = m.mem p :=
        fun j hj p hp => hcopied.grown.mem_used ((hready j hj).used p hp).1
          ((hready j hj).used p hp).2
      have hrest : (is.flatMap fun j => entryPages m₁.mem n (m₁.mem src j))
          = is.flatMap fun j => entryPages m.mem n (m.mem src j) := by
        refine flatMap_congr fun j hj => ?_
        rw [(hnext j hj).2, entryPages_congr (hkeep j (mem_cons_of_mem i hj))]
      have htotal := hcopied.grown.total
      rw [hcopied.same.length, entryPages_congr (hkeep i mem_cons_self)] at htotal
      rw [hrest] at hless
      omega

/-- Hanging in a new table leaves the tree that is copied as it is. -/
theorem CopyReady.entryPages_eq {m₂ : Machine} {page : Nat} (h : CopyReady (n + 1) src dst m i)
    (hpresent : isPresent (m.mem src i) = true) (hgrown : Grown m m₂ (· = dst) [page]) :
    entryPages m.mem (n + 1) (m.mem src i) = m.mem src i / 4096 ::
      (range 512).flatMap fun j => entryPages m₂.mem n (m₂.mem (m.mem src i / 4096) j) := by
  have hkeep : ∀ p ∈ entryPages m.mem (n + 1) (m.mem src i), m₂.mem p = m.mem p :=
    fun p hp => hgrown.mem_used (h.used p hp).1 (h.used p hp).2
  rw [← entryPages_congr hkeep, entryPages, if_pos hpresent]

theorem copyAt_of_not_present (h : isPresent (m.mem src i) = false) :
    copyAt n src dst m i = .ok (m.setEntry dst i 0) := by
  have hnot : ¬ isPresent (m.mem src i) = true := by
    rw [h]
    nofun
  cases n with
  | zero => rw [copyAt, copyLeaf, if_neg hnot]
  | succ n => rw [copyAt, copyDir, if_neg hnot]

/-- The copy halts only when there are fewer free pages than there are pages to copy. -/
theorem copyAt_error (n : Nat) {src dst i : Nat} {m : Machine} {halt : Halt}
    (h : CopyReady n src dst m i) (hcopy : copyAt n src dst m i = .error halt) :
    m.pool.freeTotal < (entryPages m.mem n (m.mem src i)).length := by
  induction n generalizing src dst m i halt with
  | zero =>
    cases hpresent : isPresent (m.mem src i) with
    | false =>
      rw [copyAt_of_not_present hpresent] at hcopy
      cases hcopy
    | true =>
      rw [copyAt, copyLeaf, if_pos hpresent, if_neg (by rw [(h.entry hpresent).1]; nofun)] at hcopy
      cases hnew : m.newPage with
      | error halt' =>
        rw [newPage_error h.pool hnew]
        exact length_pos_of_mem (mem_entryPages_self hpresent)
      | ok r =>
        rw [hnew] at hcopy
        cases hcopy
  | succ n ih =>
    cases hpresent : isPresent (m.mem src i) with
    | false =>
      rw [copyAt_of_not_present hpresent] at hcopy
      cases hcopy
    | true =>
      rw [copyAt] at hcopy
      rcases copyDir_eq h hpresent with ⟨_, htotal⟩ | ⟨page, m₂, hgrown, hzero, _, _, _, heq⟩
      · rw [htotal]
        exact length_pos_of_mem (mem_entryPages_self hpresent)
      · rw [heq] at hcopy
        have hless := foldlM_copyAt_error ih
          (fun j hj => h.below hpresent hgrown hzero (mem_range.mp hj)) nodup_range hcopy
        have htotal := hgrown.total
        rw [h.entryPages_eq hpresent hgrown, length_cons]
        rw [length_singleton] at htotal
        omega

end Levels

/-! ## What the processor finds -/

/-- The frames and flags that two leaves map are the same. -/
def SameLeaf (mem : Nat → Nat → Nat) : Option (Nat × List Nat) → Option (Nat × List Nat) → Prop
  | none, none => True
  | some (e, q), some (e', q') =>
    q = [] ∧ q' = [] ∧ e' % 4096 = e % 4096 ∧ e < 2 ^ 52 ∧ e' < 2 ^ 52 ∧
      mem (e' / 4096) = mem (e / 4096)
  | _, _ => False

/-- A copy is found where the original is. -/
theorem SameEntry.find {mem : Nat → Nat → Nat} {n i t t' : Nat} {q : List Nat}
    (hentry : UserEntry mem n (mem t i)) (hsame : SameEntry mem n (mem t i) (mem t' i))
    (hlen : q.length = n) (hindex : ∀ j ∈ q, j < 512) :
    SameLeaf mem (find decode mem n t (i :: q)) (find decode mem n t' (i :: q)) := by
  induction n generalizing i t t' q with
  | zero =>
    rw [length_eq_zero_iff] at hlen
    rw [TableTree.find, TableTree.find, hlen]
    unfold SameEntry at hsame
    split at hsame
    · next hpresent =>
      obtain ⟨hflags, hlt, hpage⟩ := hsame
      rw [decode_leaf hpresent, decode_leaf ((isPresent_of_mod_eq hflags).trans hpresent)]
      exact ⟨rfl, rfl, hflags, (hentry hpresent).2, hlt, hpage⟩
    · next hpresent =>
      rw [decode_of_not_present (Bool.not_eq_true _ ▸ hpresent), decode_of_not_present hsame]
      trivial
  | succ n ih =>
    obtain ⟨j, q, rfl⟩ := exists_of_length_succ q hlen
    rw [length_cons, add_right_cancel_iff] at hlen
    rw [TableTree.find, TableTree.find]
    unfold SameEntry at hsame
    split at hsame
    · next hpresent =>
      obtain ⟨hflags, hlt, hbelow⟩ := hsame
      obtain ⟨hbig, hlt', hentries⟩ := hentry hpresent
      have hj := hindex j mem_cons_self
      rw [decode_table (succ_ne_zero n) hpresent hbig (by omega),
        decode_table (succ_ne_zero n) ((isPresent_of_mod_eq hflags).trans hpresent)
          ((isBig_of_mod_eq hflags).trans hbig) (by omega)]
      exact ih (hentries j hj) (hbelow j hj) hlen fun k hk => hindex k (mem_cons_of_mem j hk)
    · next hpresent =>
      rw [decode_of_not_present (Bool.not_eq_true _ ▸ hpresent), decode_of_not_present hsame]
      trivial

/-- What is found below an entry depends on the pages below it only. -/
theorem find_congr_pages {mem mem' : Nat → Nat → Nat} {n i t : Nat} {q : List Nat}
    (hentry : UserEntry mem n (mem t i)) (ht : mem' t i = mem t i)
    (h : ∀ p ∈ entryPages mem n (mem t i), mem' p = mem p) (hindex : ∀ j ∈ q, j < 512) :
    find decode mem' n t (i :: q) = find decode mem n t (i :: q) := by
  induction n generalizing i t q with
  | zero =>
    rw [TableTree.find, TableTree.find, ht]
    cases hpresent : isPresent (mem t i) with
    | true => rw [decode_leaf hpresent]
    | false => rw [decode_of_not_present hpresent]
  | succ n ih =>
    rw [TableTree.find, TableTree.find, ht]
    cases hpresent : isPresent (mem t i) with
    | false => rw [decode_of_not_present hpresent]
    | true =>
      obtain ⟨hbig, hlt, hentries⟩ := hentry hpresent
      rw [decode_table (succ_ne_zero n) hpresent hbig (by omega)]
      cases q with
      | nil => rfl
      | cons j q =>
        have hj := hindex j mem_cons_self
        have htable := h _ (mem_entryPages_self hpresent)
        exact ih (hentries j hj) (by rw [htable])
          (fun p hp => h p (mem_entryPages_below hpresent hj hp))
          fun k hk => hindex k (mem_cons_of_mem j hk)

/-- The frame that is found is one of the pages below the entry. -/
theorem mem_entryPages_of_find {mem : Nat → Nat → Nat} {n i t e : Nat} {q rest : List Nat}
    (hentry : UserEntry mem n (mem t i)) (hindex : ∀ j ∈ q, j < 512)
    (hfind : find decode mem n t (i :: q) = some (e, rest)) :
    e / 4096 ∈ entryPages mem n (mem t i) := by
  induction n generalizing i t q with
  | zero =>
    rw [TableTree.find] at hfind
    cases hpresent : isPresent (mem t i) with
    | true =>
      rw [decode_leaf hpresent] at hfind
      cases hfind
      exact mem_entryPages_self hpresent
    | false =>
      rw [decode_of_not_present hpresent] at hfind
      cases hfind
  | succ n ih =>
    rw [TableTree.find] at hfind
    cases hpresent : isPresent (mem t i) with
    | false =>
      rw [decode_of_not_present hpresent] at hfind
      cases hfind
    | true =>
      obtain ⟨hbig, hlt, hentries⟩ := hentry hpresent
      rw [decode_table (succ_ne_zero n) hpresent hbig (by omega)] at hfind
      cases q with
      | nil => cases hfind
      | cons j q =>
        have hj := hindex j mem_cons_self
        exact mem_entryPages_below hpresent hj (ih (hentries j hj)
          (fun k hk => hindex k (mem_cons_of_mem j hk)) hfind)

end Osx64.Mm
