import Osx64.Mm.PageTree

/-!
# Copying and freeing an address space

`copy_pagetable_and_mem` walks the lower half of a PML4 and rebuilds it below another one, with new
tables and new frames; `free_ptable_and_mem` walks it again and gives the pages back.  The source
counts the levels downwards from the PML4; here a table of level `n` has `n` levels below it, so
that the recursion is structural: the PML4 has level 3, and the last tables have level 0.

Every page is asked for with `kmalloc(4096)`, which takes it from the page allocator, and given back
with `kfree` of its address in the direct map of the physical memory.
-/

namespace Osx64.Mm

open TableTree List

namespace Machine

variable (m : Machine)

def setEntry (t i e : Nat) : Machine := { m with mem := write m.mem t i e }

/-- A whole page is written. -/
def setPage (page : Nat) (x : Nat → Nat) : Machine := { m with mem := Function.update m.mem page x }

/-- `kmalloc(4096)` -/
def newPage : Except Halt (Nat × Machine) :=
  match allocPage4k m.pool with
  | .error stop => .error (.pool stop)
  | .ok (addr, pool) => .ok (addr / 4096, { m with pool := pool })

/-- `kfree` of a page in the direct map -/
def freePage (page : Nat) : Except Halt Machine :=
  if page * 4096 < 2 ^ 40 then
    match decreaseReferencePage4k m.pool (page * 4096) with
    | .error stop => .error (.pool stop)
    | .ok (_, pool) => .ok { m with pool := pool }
  else .error .notDirect

end Machine

/-! ## Copying -/

/-- A turn of the loop of `copy_user_pagetable` over a table of the last level. -/
def copyLeaf (src dst : Nat) (m : Machine) (i : Nat) : Except Halt Machine :=
  if isPresent (m.mem src i) then
    if isBig (m.mem src i) then .error .bigEntry
    else
      m.newPage.bind fun r =>
        .ok ((r.2.setPage r.1 (r.2.mem (m.mem src i / 4096))).setEntry dst i
          (r.1 * 4096 ||| m.mem src i % 4096))
  else .ok (m.setEntry dst i 0)

/-- The table below entry `i` of `dst` is made if it is not there. -/
def ensureTable (m : Machine) (dst i flags : Nat) : Except Halt Machine :=
  if isPresent (m.mem dst i) then .ok m
  else
    m.newPage.bind fun r => .ok ((r.2.setPage r.1 fun _ => 0).setEntry dst i (r.1 * 4096 ||| flags))

/-- A turn of the loop of `copy_user_pagetable` over a table of another level, and of the loop of
`copy_pagetable_and_mem`. -/
def copyDir (copyBelow : Nat → Nat → Machine → Except Halt Machine) (src dst : Nat) (m : Machine)
    (i : Nat) : Except Halt Machine :=
  if isPresent (m.mem src i) then
    if isBig (m.mem src i) then .error .bigEntry
    else
      (ensureTable m dst i (m.mem src i % 4096)).bind fun m₁ =>
        copyBelow (m.mem src i / 4096) (m₁.mem dst i / 4096) m₁
  else .ok (m.setEntry dst i 0)

/-- `copy_user_pagetable` for tables of level `n` -/
def copyUserPagetable : Nat → Nat → Nat → Machine → Except Halt Machine
  | 0, src, dst, m => (range 512).foldlM (copyLeaf src dst) m
  | n + 1, src, dst, m => (range 512).foldlM (copyDir (copyUserPagetable n) src dst) m

def copyPagetableAndMem (m : Machine) (dest source : Nat) : Except Halt Machine :=
  let m := m.setPage dest fun i => if 256 ≤ i ∧ i < 512 then m.mem source i else m.mem dest i
  (range 256).foldlM (copyDir (copyUserPagetable 2) source dest) m

/-! ## Freeing -/

/-- A turn of the loop of `free_pagetable_level`. -/
def freeEntry (freeBelow : Nat → Machine → Except Halt Machine) (t : Nat) (m : Machine) (i : Nat) :
    Except Halt Machine :=
  if isPresent (m.mem t i) then
    (freeBelow (m.mem t i / 4096) m).bind fun m₁ => m₁.freePage (m.mem t i / 4096)
  else .ok m

/-- `free_pagetable_level` for tables of level `n` -/
def freePagetableLevel : Nat → Nat → Machine → Except Halt Machine
  | 0, t, m => (range 512).foldlM (freeEntry (fun _ m => .ok m) t) m
  | n + 1, t, m => (range 512).foldlM (freeEntry (freePagetableLevel n) t) m

/-- A turn of the loop of `free_ptable_and_mem`. -/
def freeRootEntry (pml4 : Nat) (m : Machine) (i : Nat) : Except Halt Machine :=
  if isPresent (m.mem pml4 i) then
    ((freePagetableLevel 2 (m.mem pml4 i / 4096) m).bind fun m₁ =>
      m₁.freePage (m.mem pml4 i / 4096)).bind fun m₂ => .ok (m₂.setEntry pml4 i 0)
  else .ok m

def freePtableAndMem (m : Machine) (kernel pml4 : Nat) : Except Halt Machine :=
  if pml4 = kernel then .ok m
  else ((range 256).foldlM (freeRootEntry pml4) m).bind fun m => m.freePage pml4

/-! ## The pages of a tree -/

/-- The page an entry of a table of level `n` points to, and all pages below it. -/
def entryPages (mem : Nat → Nat → Nat) : Nat → Nat → List Nat
  | 0, e => if isPresent e then [e / 4096] else []
  | n + 1, e =>
    if isPresent e then
      e / 4096 :: (range 512).flatMap fun i => entryPages mem n (mem (e / 4096) i)
    else []

/-- The tables and frames below the lower half of a PML4. -/
def lowerPages (mem : Nat → Nat → Nat) (root : Nat) : List Nat :=
  (range 256).flatMap fun i => entryPages mem 3 (mem root i)

/-- An entry of a table of level `n` below which there are only pages of 4 KiB. -/
def UserEntry (mem : Nat → Nat → Nat) : Nat → Nat → Prop
  | 0, e => isPresent e = true → isBig e = false ∧ e < 2 ^ 52
  | n + 1, e => isPresent e = true → isBig e = false ∧ e < 2 ^ 52 ∧
      ∀ i < 512, UserEntry mem n (mem (e / 4096) i)

instance UserEntry.decidable (mem : Nat → Nat → Nat) : ∀ n e, Decidable (UserEntry mem n e)
  | 0, _ => inferInstanceAs (Decidable (_ → _))
  | n + 1, e =>
    have : ∀ i, Decidable (UserEntry mem n (mem (e / 4096) i)) := fun _ =>
      UserEntry.decidable mem n _
    inferInstanceAs (Decidable (_ → _))

/-- What `e'` maps is a copy of what `e` maps: the same pages with the same flags and contents. -/
def SameEntry (mem : Nat → Nat → Nat) : Nat → Nat → Nat → Prop
  | 0, e, e' =>
    if isPresent e then e' % 4096 = e % 4096 ∧ e' < 2 ^ 52 ∧ mem (e' / 4096) = mem (e / 4096)
    else isPresent e' = false
  | n + 1, e, e' =>
    if isPresent e then e' % 4096 = e % 4096 ∧ e' < 2 ^ 52 ∧
      ∀ i < 512, SameEntry mem n (mem (e / 4096) i) (mem (e' / 4096) i)
    else isPresent e' = false

section Congr

variable {mem mem' : Nat → Nat → Nat} {n e e' : Nat}

theorem entryPages_of_not_present (h : isPresent e = false) : entryPages mem n e = [] := by
  cases n <;> simp [entryPages, h]

theorem mem_entryPages_self (h : isPresent e = true) : e / 4096 ∈ entryPages mem n e := by
  cases n <;> simp [entryPages, h]

theorem mem_entryPages_below (h : isPresent e = true) {i p : Nat} (hi : i < 512)
    (hp : p ∈ entryPages mem n (mem (e / 4096) i)) : p ∈ entryPages mem (n + 1) e := by
  rw [entryPages, if_pos h]
  exact mem_cons_of_mem _ (mem_flatMap.mpr ⟨i, mem_range.mpr hi, hp⟩)

/-- The pages below an entry depend on what is in them only. -/
theorem entryPages_congr (h : ∀ p ∈ entryPages mem n e, mem' p = mem p) :
    entryPages mem' n e = entryPages mem n e := by
  induction n generalizing e with
  | zero => rfl
  | succ n ih =>
    cases hpresent : isPresent e with
    | false => rw [entryPages_of_not_present hpresent, entryPages_of_not_present hpresent]
    | true =>
      have htable : mem' (e / 4096) = mem (e / 4096) := h _ (mem_entryPages_self hpresent)
      rw [entryPages, entryPages, if_pos hpresent, if_pos hpresent, htable]
      refine congrArg (cons (e / 4096)) (flatMap_congr fun i hi => ih fun p hp => ?_)
      exact h p (mem_entryPages_below hpresent (mem_range.mp hi) hp)

theorem UserEntry.congr (hentry : UserEntry mem n e)
    (h : ∀ p ∈ entryPages mem n e, mem' p = mem p) :
    UserEntry mem' n e := by
  induction n generalizing e with
  | zero => exact hentry
  | succ n ih =>
    intro hpresent
    obtain ⟨hbig, hlt, hbelow⟩ := hentry hpresent
    have htable : mem' (e / 4096) = mem (e / 4096) := h _ (mem_entryPages_self hpresent)
    refine ⟨hbig, hlt, fun i hi => ?_⟩
    rw [htable]
    exact ih (hbelow i hi) fun p hp => h p (mem_entryPages_below hpresent hi hp)

theorem isPresent_of_mod_eq (h : e' % 4096 = e % 4096) : isPresent e' = isPresent e := by
  unfold isPresent
  congr 1
  rw [eq_iff_iff]
  omega

theorem isBig_of_mod_eq (h : e' % 4096 = e % 4096) : isBig e' = isBig e := by
  unfold isBig
  congr 1
  rw [eq_iff_iff]
  omega

theorem SameEntry.congr (hsame : SameEntry mem n e e')
    (h : ∀ p ∈ entryPages mem n e, mem' p = mem p)
    (h' : ∀ p ∈ entryPages mem n e', mem' p = mem p) : SameEntry mem' n e e' := by
  induction n generalizing e e' with
  | zero =>
    unfold SameEntry at hsame ⊢
    split at hsame
    · next hpresent =>
      obtain ⟨hflags, hlt, hpage⟩ := hsame
      have hpresent' : isPresent e' = true := (isPresent_of_mod_eq hflags).trans hpresent
      rw [if_pos hpresent, h _ (mem_entryPages_self hpresent), h' _ (mem_entryPages_self hpresent')]
      exact ⟨hflags, hlt, hpage⟩
    · next hpresent =>
      rw [if_neg hpresent]
      exact hsame
  | succ n ih =>
    unfold SameEntry at hsame ⊢
    split at hsame
    · next hpresent =>
      obtain ⟨hflags, hlt, hbelow⟩ := hsame
      have hpresent' : isPresent e' = true := (isPresent_of_mod_eq hflags).trans hpresent
      rw [if_pos hpresent, h _ (mem_entryPages_self hpresent), h' _ (mem_entryPages_self hpresent')]
      exact ⟨hflags, hlt, fun i hi => ih (hbelow i hi)
        (fun p hp => h p (mem_entryPages_below hpresent hi hp))
        fun p hp => h' p (mem_entryPages_below hpresent' hi hp)⟩
    · next hpresent =>
      rw [if_neg hpresent]
      exact hsame

end Congr

end Osx64.Mm
