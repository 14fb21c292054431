import Osx64.Ext2.BlockMap
import Osx64.Lib.Ownership

/-!
# The pointer tree of an inode

A position names one block pointer of an inode: a slot of `i_block` and the indices
followed from there through the pointer blocks, the last one first.  `ptr` reads the
pointer at a position, zero for a hole.  All operations on block maps are described
by how they change `ptr`, and `ptr_eq_of` is the one induction behind this: `ptr` is
determined by the slots and by the contents of the pointer blocks it meets.
-/

namespace Osx64.Ext2

open List Nat

/-- A place that can hold a block pointer. -/
structure Pos where
  slot : Nat
  path : List Nat
  deriving DecidableEq, Repr

namespace Pos

/-- Entry `j` of the pointer block at `p`. -/
def child (p : Pos) (j : Nat) : Pos := ⟨p.slot, j :: p.path⟩

/-- The pointer at `p` is the number of a pointer block. -/
def Inner (p : Pos) : Prop := p.path.length < slotLevel p.slot
deriving Decidable

/-- The pointer at `p` is the number of a data block. -/
def Leaf (p : Pos) : Prop := p.path.length = slotLevel p.slot
deriving Decidable

/-- The positions the kernel uses, with `n` pointers in a block. -/
structure Valid (n : Nat) (p : Pos) : Prop where
  slot_lt : p.slot < 14
  depth : p.path.length ≤ slotLevel p.slot
  index : ∀ j ∈ p.path, j < n

instance (n : Nat) (p : Pos) : Decidable (p.Valid n) :=
  decidable_of_iff (p.slot < 14 ∧ p.path.length ≤ slotLevel p.slot ∧ ∀ j ∈ p.path, j < n)
    ⟨fun ⟨h1, h2, h3⟩ => ⟨h1, h2, h3⟩, fun ⟨h1, h2, h3⟩ => ⟨h1, h2, h3⟩⟩

variable {n : Nat} {p q : Pos} {j : Nat}

theorem valid_root (slot : Nat) (hslot : slot < 14) : Valid n ⟨slot, []⟩ :=
  ⟨hslot, zero_le _, by simp⟩

theorem Valid.child (h : p.Valid n) (hin : p.Inner) (hj : j < n) : (p.child j).Valid n :=
  ⟨h.slot_lt, hin, fun i hi => (mem_cons.mp hi).elim (fun h => h ▸ hj) (h.index i)⟩

theorem Valid.of_child (h : (p.child j).Valid n) : p.Valid n ∧ p.Inner ∧ j < n :=
  ⟨⟨h.slot_lt, le_of_succ_le h.depth, fun i hi => h.index i (mem_cons_of_mem j hi)⟩,
    h.depth, h.index j mem_cons_self⟩

theorem Leaf.not_inner (h : p.Leaf) : ¬ p.Inner := by
  rw [Leaf] at h
  rw [Inner, h]
  exact lt_irrefl _

theorem child_inj : p.child j = q.child k ↔ p = q ∧ j = k := by
  cases p
  cases q
  simp [child]
  tauto

theorem child_ne (p : Pos) (j : Nat) : p.child j ≠ p := by
  intro h
  have := congrArg (fun q : Pos => q.path.length) h
  simp [child] at this

end Pos

/-! ## Reading pointers -/

/-- The pointer reached from `root` through the indices of a path. -/
def ptrFrom (disk : Nat → Buf) (root : Nat) : List Nat → Nat
  | [] => root
  | j :: path =>
    let parent := ptrFrom disk root path
    if parent = 0 then 0 else (disk parent).get32 (4 * j)

/-- The pointer at a position of the inode `ei`. -/
def ptr (fs : Fs) (ei : Buf) (p : Pos) : Nat := ptrFrom fs.disk (iBlock ei p.slot) p.path

section Ptr

variable {fs fs' : Fs} {ei ei' : Buf} {p q : Pos} {n : Nat}

@[simp] theorem ptr_root (fs : Fs) (ei : Buf) (slot : Nat) :
    ptr fs ei ⟨slot, []⟩ = iBlock ei slot := rfl

theorem ptr_child (fs : Fs) (ei : Buf) (p : Pos) (j : Nat) :
    ptr fs ei (p.child j) =
      if ptr fs ei p = 0 then 0 else (fs.disk (ptr fs ei p)).get32 (4 * j) := rfl

theorem ptr_child_of_ne (h : ptr fs ei p ≠ 0) (j : Nat) :
    ptr fs ei (p.child j) = (fs.disk (ptr fs ei p)).get32 (4 * j) := if_neg h

theorem ptr_child_of_eq (h : ptr fs ei p = 0) (j : Nat) : ptr fs ei (p.child j) = 0 := if_pos h

/-- `ptr` is the only function on positions that agrees with the slots of the inode
and with the entries of the pointer blocks it names. -/
theorem ptr_eq_of (value : Pos → Nat) (hroot : ∀ s < 14, iBlock ei s = value ⟨s, []⟩)
    (hhole : ∀ q j, value q = 0 → value (q.child j) = 0)
    (hentry : ∀ q : Pos, q.Valid n → q.Inner → value q ≠ 0 → ∀ j < n,
      (fs.disk (value q)).get32 (4 * j) = value (q.child j)) :
    p.Valid n → ptr fs ei p = value p := by
  obtain ⟨slot, path⟩ := p
  induction path with
  | nil => exact fun hp => hroot slot hp.slot_lt
  | cons j path ih =>
    intro hp
    obtain ⟨hvalid, hinner, hj⟩ := @Pos.Valid.of_child n ⟨slot, path⟩ j hp
    have hparent := ih hvalid
    change ptr fs ei (Pos.child ⟨slot, path⟩ j) = value (Pos.child ⟨slot, path⟩ j)
    by_cases hzero : value ⟨slot, path⟩ = 0
    · rw [ptr_child_of_eq (hparent.trans hzero), hhole _ _ hzero]
    · rw [ptr_child_of_ne (hparent ▸ hzero), hparent, hentry _ hvalid hinner hzero j hj]

/-- Pointers do not change while the slots and the pointer blocks stay the same. -/
theorem ptr_congr (hslot : ∀ s < 14, iBlock ei' s = iBlock ei s)
    (hdisk : ∀ q : Pos, q.Valid n → q.Inner → ptr fs ei q ≠ 0 →
      fs'.disk (ptr fs ei q) = fs.disk (ptr fs ei q))
    (hp : p.Valid n) : ptr fs' ei' p = ptr fs ei p := by
  refine ptr_eq_of (ptr fs ei) hslot (fun q j hq => ptr_child_of_eq hq j) ?_ hp
  intro q hvalid hinner hne j _
  rw [hdisk q hvalid hinner hne, ptr_child_of_ne hne]

/-- Where a slot is empty, so is everything below it. -/
theorem ptr_of_slot_eq (h : iBlock ei p.slot = 0) : ptr fs ei p = 0 := by
  obtain ⟨slot, path⟩ := p
  induction path with
  | nil => exact h
  | cons j path ih => exact ptr_child_of_eq (ih h) j

/-- A slot with the same pointer leads to the same blocks. -/
theorem ptr_of_slot (h : iBlock ei' p.slot = iBlock ei p.slot) : ptr fs ei' p = ptr fs ei p := by
  rw [ptr, ptr, h]

end Ptr

/-! ## Logical blocks -/

/-- The position of the pointer to logical block `l`. -/
def leafPos (n l : Nat) : Pos :=
  if l < ndirBlocks then ⟨l, []⟩
  else if l < ndirBlocks + n then ⟨indBlock, [l - ndirBlocks]⟩
  else ⟨dindBlock, [(l - (ndirBlocks + n)) % n, (l - (ndirBlocks + n)) / n]⟩

/-- The number of blocks the map of an inode can hold. -/
def mapBlocks (n : Nat) : Nat := ndirBlocks + n + n * n

section LeafPos

variable {n l m : Nat}

theorem leafPos_valid (hl : l < mapBlocks n) : (leafPos n l).Valid n := by
  rw [mapBlocks] at hl
  unfold leafPos
  split
  · next h => exact ⟨by rw [ndirBlocks] at h; dsimp only; omega, zero_le _, by simp⟩
  · split
    · next h h' =>
      exact ⟨by simp [indBlock], by simp [slotLevel, indBlock, ndirBlocks], by simp; omega⟩
    · next h h' =>
        have hoff : l - (ndirBlocks + n) < n * n := by omega
        have hn : 0 < n := Nat.pos_of_mul_pos_right (zero_lt_of_lt hoff)
        refine ⟨by simp [dindBlock], by simp [slotLevel, dindBlock, ndirBlocks], ?_⟩
        simp only [mem_cons, not_mem_nil, or_false, forall_eq_or_imp, forall_eq]
        exact ⟨mod_lt _ hn, Nat.div_lt_of_lt_mul hoff⟩

theorem leafPos_leaf (n l : Nat) : (leafPos n l).Leaf := by
  unfold leafPos Pos.Leaf slotLevel
  split
  · simp
  · split <;> rfl

theorem leafPos_inj (h : leafPos n l = leafPos n m) : l = m := by
  simp only [leafPos, ndirBlocks, indBlock, dindBlock] at h
  by_cases hl1 : l < 12 <;> by_cases hm1 : m < 12 <;> by_cases hl2 : l < 12 + n <;>
    by_cases hm2 : m < 12 + n <;> simp [hl1, hm1, hl2, hm2] at h <;> try omega
  obtain ⟨hmod, hdiv⟩ := h
  have h1 := div_add_mod (l - (12 + n)) n
  rw [hmod, hdiv, div_add_mod] at h1
  omega

end LeafPos

end Osx64.Ext2
