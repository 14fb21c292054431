import Osx64.Ext2.Shrink

/-!
# The blocks a truncation frees

The functions behind `ext2_truncate_blocks` once more, with a record of the blocks they
pass to `ext2_free_block`, in the order of the calls.  Forgetting the record gives back
the functions of the model (`plain_freeSubtree` and so on), so that the record is that of
the calls the model makes.

`subtreeFrees` and `entryFrees` are what the record should be, read off the disk before
anything is freed.  Freeing a block writes bitmaps only, so as long as the blocks of the
subtree are data blocks the loops see the same pointers to the end.
-/

namespace Osx64.Ext2

open Function List

/-- A truncation at work: the volume, the inode copy, and the blocks passed to
`ext2_free_block` so far. -/
structure Trace where
  fs : Fs
  ei : Buf
  freed : List Nat

namespace Trace

/-- Forget the record. -/
def plain (s : Trace) : Fs × Buf := (s.fs, s.ei)

/-- `ext2_free_block(block)`, counted in the inode copy. -/
def free (count : Buf → Buf) (s : Trace) (block : Nat) : Trace :=
  ⟨s.fs.freeBlock block, count s.ei, s.freed ++ [block]⟩

/-- `freeSubtree`, as `ext2_free_ind_blocks` uses it. -/
def freeSubtree (n : Nat) (count : Buf → Buf) : Nat → Trace → Nat → Trace
  | 0, s, block => s.free count block
  | level + 1, s, block =>
    match s.fs.readBlock block with
    | none => s
    | some buf =>
      ((range n).foldl
        (fun s i =>
          if buf.get32 (4 * i) = 0 then s
          else freeSubtree n count level s (buf.get32 (4 * i)))
        s).free count block

/-- `freeIndBlocks` -/
def freeIndBlocks (s : Trace) (block level : Nat) : Trace :=
  if block = 0 then s
  else freeSubtree s.fs.geo.perBlock (discharge s.fs.geo) level s block

/-- `freeEntries` -/
def freeEntries (level : Nat) (s : Trace) (buf : Buf) (indices : List Nat) : Trace × Buf :=
  indices.foldl
    (fun (s, buf) i =>
      if buf.get32 (4 * i) = 0 then (s, buf)
      else (freeIndBlocks s (buf.get32 (4 * i)) level, buf.put32 (4 * i) 0))
    (s, buf)

/-- A block is written without looking at the result. -/
def putBlock (s : Trace) (block : Nat) (buf : Buf) : Trace :=
  { s with fs := s.fs.putBlock block buf }

/-- `truncateDirect` -/
def truncateDirect (s : Trace) (i : Nat) : Nat → Except Fault Trace
  | 0 => .ok s
  | fuel + 1 =>
    if i < ndirBlocks ∨ 2 ^ 31 ≤ i then
      match slotOffset i with
      | none => .error .wild
      | some offset =>
        let block := s.ei.get32 offset
        if block = 0 then truncateDirect s (i + 1) fuel
        else
          let s := s.free (discharge s.fs.geo) block
          truncateDirect { s with ei := s.ei.put32 offset 0 } (i + 1) fuel
    else .ok s

/-- `truncateInd` -/
def truncateInd (s : Trace) (newBlocks : Nat) : Trace × Bool :=
  let ind := iBlock s.ei indBlock
  if newBlocks ≤ ndirBlocks then
    if ind = 0 then (s, true)
    else
      let s := freeIndBlocks s ind 1
      ({ s with ei := setIBlock s.ei indBlock 0 }, true)
  else if ind = 0 then (s, true)
  else match s.fs.readBlock ind with
    | none => (s, false)
    | some buf =>
      let r := freeEntries 0 s buf (upTo s.fs.geo.perBlock (newBlocks - ndirBlocks))
      (r.1.putBlock ind r.2, true)

/-- `truncateSubs` -/
def truncateSubs (start : Nat) (s : Trace) (buf : Buf) : List Nat → Trace × Buf × Bool
  | [] => (s, buf, true)
  | i :: rest =>
    let n := s.fs.geo.perBlock
    let block := buf.get32 (4 * i)
    if block = 0 then truncateSubs start s buf rest
    else if i = start / n then
      match s.fs.readBlock block with
      | none => (s, buf, false)
      | some sub =>
        let r := freeEntries 0 s sub (upTo n (start % n))
        truncateSubs start (r.1.putBlock block r.2) buf rest
    else truncateSubs start (freeIndBlocks s block 1) (buf.put32 (4 * i) 0) rest

/-- `truncateDind` -/
def truncateDind (s : Trace) (newBlocks : Nat) : Trace × Bool :=
  let n := s.fs.geo.perBlock
  let dind := iBlock s.ei dindBlock
  if newBlocks ≤ ndirBlocks + n then
    if dind = 0 then (s, true)
    else
      let s := freeIndBlocks s dind 2
      ({ s with ei := setIBlock s.ei dindBlock 0 }, true)
  else if dind = 0 then (s, true)
  else match s.fs.readBlock dind with
    | none => (s, false)
    | some buf =>
      let start := newBlocks - (ndirBlocks + n)
      let r := truncateSubs start s buf (upTo n (start / n))
      if r.2.2 then (r.1.putBlock dind r.2.1, true) else (r.1, false)

/-- `truncateBlocks` -/
def truncateBlocks (fs : Fs) (ei : Buf) (size : Nat) (newSize : Int) :
    Except Fault (Trace × Bool) :=
  let new := newBlocks fs.geo newSize
  let old := sizeBlocks fs.geo size
  (truncateDirect ⟨fs, ei, []⟩ new (old - new)).map fun s =>
    match truncateInd s new with
    | (s, false) => (s, false)
    | (s, true) => truncateDind s new

/-! ## Forgetting the record -/

theorem plain_freeSubtree (n : Nat) (count : Buf → Buf) (level : Nat) (s : Trace) (b : Nat) :
    (freeSubtree n count level s b).plain = Ext2.freeSubtree n true count level s.plain b := by
  induction level generalizing s b with
  | zero => rfl
  | succ level ih =>
    obtain ⟨fs, ei, freed⟩ := s
    simp only [freeSubtree, plain, Ext2.freeSubtree]
    cases fs.readBlock b with
    | none => rfl
    | some buf =>
      dsimp only
      have hloop : (range n).foldl
          (fun x i => if buf.get32 (4 * i) = 0 then x
            else Ext2.freeSubtree n true count level x (buf.get32 (4 * i))) (fs, ei) =
          ((range n).foldl (fun s i => if buf.get32 (4 * i) = 0 then s
            else freeSubtree n count level s (buf.get32 (4 * i))) ⟨fs, ei, freed⟩).plain := by
        change foldl _ (plain ⟨fs, ei, freed⟩) _ = _
        apply foldl_hom plain
        intro s i
        split
        · rfl
        · exact (ih s _).symm
      rw [hloop]
      rfl

theorem plain_freeIndBlocks (s : Trace) (block level : Nat) :
    (s.freeIndBlocks block level).plain = Ext2.freeIndBlocks s.fs s.ei block level := by
  rw [freeIndBlocks, Ext2.freeIndBlocks]
  split
  · rfl
  · exact plain_freeSubtree _ _ _ _ _

theorem plain_freeEntries (level : Nat) (s : Trace) (buf : Buf) (indices : List Nat) :
    Ext2.freeEntries level s.fs s.ei buf indices =
      ((freeEntries level s buf indices).1.fs, (freeEntries level s buf indices).1.ei,
        (freeEntries level s buf indices).2) := by
  unfold Ext2.freeEntries freeEntries
  induction indices generalizing s buf with
  | nil => rfl
  | cons i rest ih =>
    rw [foldl_cons, foldl_cons]
    dsimp only
    split
    · exact ih s buf
    · rw [← plain_freeIndBlocks]
      exact ih _ _

theorem plain_truncateDirect (s : Trace) (i fuel : Nat) :
    (truncateDirect s i fuel).map plain = Ext2.truncateDirect s.fs s.ei i fuel := by
  induction fuel generalizing s i with
  | zero => rfl
  | succ fuel ih =>
    rw [truncateDirect, Ext2.truncateDirect]
    split
    · cases slotOffset i with
      | none => rfl
      | some offset =>
        dsimp only
        split
        · exact ih s (i + 1)
        · exact ih _ (i + 1)
    · rfl

theorem plain_truncateInd (s : Trace) (newBlocks : Nat) :
    Ext2.truncateInd s.fs s.ei newBlocks =
      ((truncateInd s newBlocks).1.fs, (truncateInd s newBlocks).1.ei,
        (truncateInd s newBlocks).2) := by
  rw [truncateInd, Ext2.truncateInd]
  split
  · split
    · rfl
    · rw [← plain_freeIndBlocks]
      rfl
  · split
    · rfl
    · cases s.fs.readBlock (iBlock s.ei indBlock) with
      | none => rfl
      | some buf =>
        dsimp only
        rw [plain_freeEntries]
        rfl

theorem plain_truncateSubs (start : Nat) (s : Trace) (buf : Buf) (indices : List Nat) :
    Ext2.truncateSubs start s.fs s.ei buf indices =
      ((truncateSubs start s buf indices).1.fs, (truncateSubs start s buf indices).1.ei,
        (truncateSubs start s buf indices).2) := by
  induction indices generalizing s buf with
  | nil => rfl
  | cons i rest ih =>
    rw [truncateSubs, Ext2.truncateSubs]
    split
    · exact ih s buf
    · split
      · cases s.fs.readBlock (buf.get32 (4 * i)) with
        | none => rfl
        | some sub =>
          dsimp only
          rw [plain_freeEntries]
          exact ih (putBlock _ _ _) buf
      · rw [← plain_freeIndBlocks]
        exact ih _ _

theorem plain_truncateDind (s : Trace) (newBlocks : Nat) :
    Ext2.truncateDind s.fs s.ei newBlocks =
      ((truncateDind s newBlocks).1.fs, (truncateDind s newBlocks).1.ei,
        (truncateDind s newBlocks).2) := by
  rw [truncateDind, Ext2.truncateDind]
  split
  · split
    · rfl
    · rw [← plain_freeIndBlocks]
      rfl
  · split
    · rfl
    · cases s.fs.readBlock (iBlock s.ei dindBlock) with
      | none => rfl
      | some buf =>
        dsimp only
        rw [plain_truncateSubs]
        split <;> rfl

/-- The recorded run is the run of `ext2_truncate_blocks`. -/
theorem plain_truncateBlocks (fs : Fs) (ei : Buf) (size : Nat) (newSize : Int) :
    Ext2.truncateBlocks fs ei size newSize =
      (truncateBlocks fs ei size newSize).map fun r => (r.1.fs, r.1.ei, r.2) := by
  rw [truncateBlocks, Ext2.truncateBlocks]
  rw [← plain_truncateDirect ⟨fs, ei, []⟩]
  cases truncateDirect ⟨fs, ei, []⟩ (newBlocks fs.geo newSize)
      (sizeBlocks fs.geo size - newBlocks fs.geo newSize) with
  | error e => rfl
  | ok s =>
    change Except.ok _ = Except.ok _
    dsimp only [plain]
    rw [plain_truncateInd]
    obtain ⟨s₁, ok⟩ := truncateInd s (newBlocks fs.geo newSize)
    cases ok with
    | false => rfl
    | true =>
      dsimp only
      rw [plain_truncateDind]

end Trace

/-! ## What is to be freed -/

/-- The blocks of a subtree, in the order `ext2_free_ind_blocks` frees them. -/
def subtreeFrees (disk : Nat → Buf) (n : Nat) : Nat → Nat → List Nat
  | 0, b => [b]
  | level + 1, b =>
    ((range n).flatMap fun i =>
      if (disk b).get32 (4 * i) = 0 then []
      else subtreeFrees disk n level ((disk b).get32 (4 * i))) ++ [b]

/-- The blocks that hang on entries of a pointer block. -/
def entryFrees (disk : Nat → Buf) (n level : Nat) (buf : Buf) (indices : List Nat) : List Nat :=
  indices.flatMap fun i =>
    if buf.get32 (4 * i) = 0 then [] else subtreeFrees disk n level (buf.get32 (4 * i))

section Frees

variable {reserved : Nat → Prop} {live : Nat → Option Buf} {ino : Nat} {fs : Fs} {ei buf : Buf}
  {disk disk' : Nat → Buf} {n level b c i j : Nat} {indices : List Nat} {p q : Pos}

theorem subtreeFrees_succ (disk : Nat → Buf) (n level b : Nat) :
    subtreeFrees disk n (level + 1) b = entryFrees disk n level (disk b) (range n) ++ [b] :=
  rfl

theorem mem_subtreeFrees : c ∈ subtreeFrees disk n level b ↔ InSubtree disk n level b c := by
  induction level generalizing b with
  | zero => simp [subtreeFrees, InSubtree]
  | succ level ih =>
    rw [subtreeFrees, mem_append, mem_flatMap, mem_singleton, InSubtree, or_comm]
    refine or_congr_right (exists_congr fun i => ?_)
    rw [mem_range]
    refine and_congr_right fun _ => ?_
    split
    · next h0 => simp [h0]
    · next h0 => simp [h0, ih]

theorem mem_entryFrees : c ∈ entryFrees disk n level buf indices ↔
    ∃ k ∈ indices, buf.get32 (4 * k) ≠ 0 ∧ InSubtree disk n level (buf.get32 (4 * k)) c := by
  rw [entryFrees, mem_flatMap]
  refine exists_congr fun i => and_congr_right fun _ => ?_
  split
  · next h0 => simp [h0]
  · next h0 => simp [h0, mem_subtreeFrees]

/-- A position is below one entry of a pointer block only. -/
theorem OnChain.child_inj (h : OnChain p (q.child i)) (h' : OnChain p (q.child j)) : i = j := by
  have hsuffix := suffix_of_suffix_length_le h.2 h'.2 (by simp [Pos.child])
  have heq := hsuffix.eq_of_length (by simp [Pos.child])
  exact (cons.inj heq).1

/-- The entries of a pointer block of an inode lead to different blocks. -/
theorem entryFrees_nodup (ho : Owned reserved fs (update live ino (some ei)))
    (hq : q.Valid fs.geo.perBlock) (hlevel : q.path.length + 1 + level = slotLevel q.slot)
    (hne : ptr fs ei q ≠ 0) (hnodup : indices.Nodup) (hlt : ∀ k ∈ indices, k < fs.geo.perBlock)
    (hsub : ∀ k ∈ indices, ptr fs ei (q.child k) ≠ 0 →
      (subtreeFrees fs.disk fs.geo.perBlock level (ptr fs ei (q.child k))).Nodup) :
    (entryFrees fs.disk fs.geo.perBlock level (fs.disk (ptr fs ei q)) indices).Nodup := by
  have hin : q.Inner := by
    rw [Pos.Inner]
    omega
  have hentry := fun j => ptr_child_of_ne hne j
  have hbelow : ∀ k ∈ indices, ∀ c,
      c ∈ (if (fs.disk (ptr fs ei q)).get32 (4 * k) = 0 then []
        else subtreeFrees fs.disk fs.geo.perBlock level
          ((fs.disk (ptr fs ei q)).get32 (4 * k))) →
      ∃ p : Pos, p.Valid fs.geo.perBlock ∧ OnChain p (q.child k) ∧ ptr fs ei p = c ∧ c ≠ 0 := by
    intro k hk c hc
    split at hc
    · cases hc
    · next h0 =>
        rw [mem_subtreeFrees, ← hentry] at hc
        rw [← hentry] at h0
        exact (inSubtree_iff (hq.child hin (hlt k hk)) (by simp [Pos.child]; omega) h0).mp hc
  refine nodup_flatMap.mpr ⟨fun k hk => ?_, hnodup.imp_of_mem fun {i j} hi hj hij => ?_⟩
  · split
    · exact nodup_nil
    · next h0 =>
        rw [← hentry] at h0 ⊢
        exact hsub k hk h0
  · intro c hci hcj
    obtain ⟨p, hp, hchain, heq, hc⟩ := hbelow i hi c hci
    obtain ⟨p', hp', hchain', heq', -⟩ := hbelow j hj c hcj
    obtain rfl := ho.pos_eq hp hp' (heq ▸ hc) (heq.trans heq'.symm)
    exact hij (hchain.child_inj hchain')

/-- No block of an inode is twice in a subtree. -/
theorem subtreeFrees_nodup (ho : Owned reserved fs (update live ino (some ei)))
    (hq : q.Valid fs.geo.perBlock) (hlevel : q.path.length + level = slotLevel q.slot)
    (hne : ptr fs ei q ≠ 0) :
    (subtreeFrees fs.disk fs.geo.perBlock level (ptr fs ei q)).Nodup := by
  induction level generalizing q with
  | zero => simp [subtreeFrees]
  | succ level ih =>
    have hin : q.Inner := by
      rw [Pos.Inner]
      omega
    have hlevel' : q.path.length + 1 + level = slotLevel q.slot := by omega
    have hchild : ∀ k < fs.geo.perBlock, (q.child k).Valid fs.geo.perBlock ∧
        (q.child k).path.length + level = slotLevel (q.child k).slot :=
      fun k hk => ⟨hq.child hin hk, hlevel'⟩
    rw [subtreeFrees_succ, nodup_append]
    refine ⟨?_, nodup_singleton _, ?_⟩
    · apply entryFrees_nodup ho hq hlevel' hne nodup_range
      · exact fun k hk => mem_range.mp hk
      · intro k hk h0
        obtain ⟨hv, hl⟩ := hchild k (mem_range.mp hk)
        exact ih hv hl h0
    · intro c hc b hb
      rw [mem_singleton] at hb
      rintro rfl
      obtain ⟨k, hk, h0, hsub⟩ := mem_entryFrees.mp hc
      rw [← ptr_child_of_ne hne] at h0 hsub
      obtain ⟨hv, hl⟩ := hchild k (mem_range.mp hk)
      obtain ⟨p, hp, hchain, heq, hc0⟩ := (inSubtree_iff hv hl h0).mp hsub
      obtain rfl := ho.pos_eq hp hq (heq ▸ hc0) (heq.trans hb)
      have := hchain.2.length_le
      simp [Pos.child] at this

end Frees

/-! ## What is freed -/

/-- From `s` to `s'` the blocks in `T` have been passed to `ext2_free_block`, and each has
been counted. -/
structure Logs (count : Buf → Buf) (T : List Nat) (s s' : Trace) : Prop where
  freed : s'.freed = s.freed ++ T
  ei : s'.ei = count^[T.length] s.ei

section Logs

variable {reserved : Nat → Prop} {count : Buf → Buf} {s s₁ s₂ : Trace} {T U : List Nat}
  {n level b : Nat} {buf : Buf} {fs : Fs}

theorem Logs.refl (count : Buf → Buf) (s : Trace) : Logs count [] s s :=
  ⟨(append_nil _).symm, rfl⟩

theorem Logs.trans (h : Logs count T s s₁) (h' : Logs count U s₁ s₂) :
    Logs count (T ++ U) s s₂ := by
  refine ⟨by rw [h'.freed, h.freed, append_assoc], ?_⟩
  rw [h'.ei, h.ei, length_append, Nat.add_comm, Function.iterate_add_apply]

theorem logs_free (count : Buf → Buf) (s : Trace) (b : Nat) :
    Logs count [b] s (s.free count b) := ⟨rfl, rfl⟩

/-- The record of a loop is the records of its rounds, one after the other.  `P` is what
the rounds rely on, given the indices still to come. -/
theorem foldl_logs {σ : Type} (view : σ → Trace) (P : List Nat → σ → Prop)
    (step : σ → Nat → σ) (T : Nat → List Nat) (hstep : ∀ x k rest, P (k :: rest) x →
      P rest (step x k) ∧ Logs count (T k) (view x) (view (step x k)))
    (indices : List Nat) (x : σ) (hP : P indices x) :
    Logs count (indices.flatMap T) (view x) (view (indices.foldl step x)) := by
  induction indices generalizing x with
  | nil => exact Logs.refl _ _
  | cons k rest ih =>
    obtain ⟨hP', hk⟩ := hstep x k rest hP
    exact hk.trans (ih (step x k) hP')

/-- Only bitmaps have been written since `fs`. -/
def OnlyFreed (reserved : Nat → Prop) (fs : Fs) (s : Trace) : Prop :=
  OnlyBlockBitmap fs s.fs ∧ Mounted reserved s.fs

theorem OnlyFreed.refl (hm : Mounted reserved s.fs) : OnlyFreed reserved s.fs s :=
  ⟨⟨rfl, rfl, rfl, fun _ _ => rfl⟩, hm⟩

section Loops

variable (hm : Mounted reserved fs) (hs : OnlyFreed reserved fs s)

include hm hs

section

variable (hdata : ∀ c, InSubtree fs.disk n level b c → c < fs.geo.blocksCount ∧ ¬ reserved c)
include hdata

/-- Freeing a subtree, on a volume on which other blocks have been freed before. -/
theorem freeSubtree_onlyFreed :
    OnlyFreed reserved fs (Trace.freeSubtree n count level s b) := by
  have hsame : ∀ c, InSubtree fs.disk n level b c → s.fs.disk c = fs.disk c :=
    fun c hc => hs.1.disk c (hm.ne_blockBitmap (hdata c hc).2)
  have hfreed := (@freeSubtree_spec reserved s.fs s.ei n level b true count (fun _ => True)
    (fun _ _ => trivial) hs.2
    (fun c hc => hs.1.geo ▸ hdata c ((inSubtree_congr hsame).mp hc)) trivial).1
  have hplain := congrArg Prod.fst (Trace.plain_freeSubtree n count level s b)
  change (Trace.freeSubtree n count level s b).fs =
    (freeSubtree n true count level (s.fs, s.ei) b).1 at hplain
  rw [OnlyFreed, hplain]
  exact ⟨hs.1.trans hfreed.frame, hfreed.mounted⟩

theorem freeSubtree_logs :
    Logs count (subtreeFrees fs.disk n level b) s (Trace.freeSubtree n count level s b) := by
  induction level generalizing s b with
  | zero => exact logs_free count s b
  | succ level ih =>
    have hself := inSubtree_self fs.disk n (level + 1) b
    have hb := hdata b hself
    have hdisk : s.fs.disk b = fs.disk b := hs.1.disk b (hm.ne_blockBitmap hb.2)
    rw [Trace.freeSubtree, Fs.readBlock_eq hs.2.layout (hs.1.geo ▸ hb.1), hdisk, subtreeFrees]
    refine Logs.trans (foldl_logs id (fun rest x => (∀ k ∈ rest, k < n) ∧
      OnlyFreed reserved fs x) _ _ ?_ (range n) s
      ⟨fun k hk => mem_range.mp hk, hs⟩) (logs_free count _ b)
    intro x k rest ⟨hrest, hx⟩
    have hrest' : ∀ j ∈ rest, j < n := fun j hj => hrest j (mem_cons_of_mem k hj)
    by_cases h0 : (fs.disk b).get32 (4 * k) = 0
    · simp only [h0, if_true]
      exact ⟨⟨hrest', hx⟩, Logs.refl _ _⟩
    · simp only [h0, if_false]
      have hsub : ∀ c, InSubtree fs.disk n level ((fs.disk b).get32 (4 * k)) c →
          c < fs.geo.blocksCount ∧ ¬ reserved c :=
        fun c hc => hdata c (.inr ⟨k, hrest k mem_cons_self, h0, hc⟩)
      exact ⟨⟨hrest', freeSubtree_onlyFreed hm hx hsub⟩, ih hx hsub⟩

end

theorem freeIndBlocks_logs (hb : b ≠ 0) (hdata : ∀ c, InSubtree fs.disk fs.geo.perBlock level b c →
      c < fs.geo.blocksCount ∧ ¬ reserved c) :
    OnlyFreed reserved fs (s.freeIndBlocks b level) ∧
      Logs (discharge fs.geo) (subtreeFrees fs.disk fs.geo.perBlock level b) s
        (s.freeIndBlocks b level) := by
  rw [Trace.freeIndBlocks, if_neg hb, hs.1.geo]
  exact ⟨freeSubtree_onlyFreed hm hs hdata, freeSubtree_logs hm hs hdata⟩

/-- The loops over the entries of a pointer block. -/
theorem freeEntries_logs (buf : Buf) {indices : List Nat} (hnodup : indices.Nodup)
    (hdata : ∀ k ∈ indices, buf.get32 (4 * k) ≠ 0 → ∀ c,
      InSubtree fs.disk fs.geo.perBlock level (buf.get32 (4 * k)) c →
      c < fs.geo.blocksCount ∧ ¬ reserved c) :
    Logs (discharge fs.geo) (entryFrees fs.disk fs.geo.perBlock level buf indices) s
      (Trace.freeEntries level s buf indices).1 := by
  refine foldl_logs Prod.fst (fun rest x => rest.Nodup ∧ rest ⊆ indices ∧
    (∀ k ∈ rest, x.2.get32 (4 * k) = buf.get32 (4 * k)) ∧ OnlyFreed reserved fs x.1) _ _ ?_
    indices (s, buf) ⟨hnodup, fun _ h => h, fun _ _ => rfl, hs⟩
  rintro ⟨x, buf₁⟩ k rest ⟨hnd, hsub, hbuf, hx⟩
  dsimp only at *
  obtain ⟨hk, hnd'⟩ := nodup_cons.mp hnd
  have hsub' : rest ⊆ indices := fun j hj => hsub (mem_cons_of_mem k hj)
  have hbuf' : ∀ j ∈ rest, buf₁.get32 (4 * j) = buf.get32 (4 * j) :=
    fun j hj => hbuf j (mem_cons_of_mem k hj)
  rw [hbuf k mem_cons_self]
  by_cases h0 : buf.get32 (4 * k) = 0
  · simp only [h0, if_true]
    exact ⟨⟨hnd', hsub', hbuf', hx⟩, Logs.refl _ _⟩
  · simp only [h0, if_false]
    obtain ⟨hx', hlogs⟩ := freeIndBlocks_logs hm hx h0 (hdata k (hsub mem_cons_self) h0)
    refine ⟨⟨hnd', hsub', fun j hj => ?_, hx'⟩, hlogs⟩
    -- clearing entry `k` leaves the entries still to come alone
    have hjk : j ≠ k := fun heq => hk (heq ▸ hj)
    rw [Buf.get32_put32_index (by decide), if_neg hjk]
    exact hbuf' j hj

end Loops

end Logs

end Osx64.Ext2
