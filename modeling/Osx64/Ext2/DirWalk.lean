import Osx64.Ext2.DirScan
import Osx64.Ext2.Supply

/-!
# The five directory scans

What `ext2_lookup`, `ext2_rmdir`, `ext2_readdir`, `ext2_dir_add_entry` and `ext2_dir_remove_entry`
do at a record, access by access, and for each of them which records it passes over and at which it
stops without leaving the block.  A field is only asked for where the source reads it: a deleted
record, for instance, may end with its length field.

`ext2_dir_remove_entry` looks at the record behind after it has changed the block, which makes a
difference only where records overlap (`removeLead_iff`).
-/

namespace Osx64.Ext2

open List Buf

variable {bs o : Nat} {b : Buf} {name : List UInt8} {i : Nat}

/-! ## Lookup -/

/-- `!strncmp(de->name, name, …)`: byte after byte up to the first that differs -/
def sameName (bs : Nat) (b : Buf) : Nat → List UInt8 → Except Fault Bool
  | _, [] => .ok true
  | i, c :: rest => do
    let d ← load8 bs b i
    if d = c.toNat then sameName bs b (i + 1) rest else .ok false

/-- The loop body of `ext2_lookup` -/
def lookupVisit (bs : Nat) (name : List UInt8) : Visit Unit Nat := fun b _ o => do
  let inode ← load32 bs b o
  if inode = 0 then .ok (.inl ())
  else do
    let nameLen ← load8 bs b (o + 6)
    if nameLen = name.length then do
      let same ← sameName bs b (o + 8) name
      if same then .ok (.inr inode) else .ok (.inl ())
    else .ok (.inl ())

/-- The first difference between the name in the record and `name` lies inside the block. -/
def DiffersAt (bs : Nat) (b : Buf) (o : Nat) (name : List UInt8) : Prop :=
  ∃ k < name.length, o + 8 + k < bs ∧ b (o + 8 + k) ≠ name.getD k 0 ∧
    ∀ j < k, b (o + 8 + j) = name.getD j 0

/-- A deleted record, or one with another name. -/
def LookupPasses (bs : Nat) (name : List UInt8) (b : Buf) (o : Nat) : Prop :=
  o + 4 ≤ bs ∧ (deInode b o = 0 ∨
    o + 7 ≤ bs ∧ (deNameLen b o ≠ name.length ∨ DiffersAt bs b o name))

/-- A live record with the name, which lies in the block. -/
def LookupStops (bs : Nat) (name : List UInt8) (b : Buf) (o : Nat) : Prop :=
  o + 7 ≤ bs ∧ deInode b o ≠ 0 ∧ deNameLen b o = name.length ∧
    (name = [] ∨ o + 8 + name.length ≤ bs) ∧ deName b o name.length = name

theorem sameName_cons {c : UInt8} {rest : List UInt8} {same : Bool} :
    sameName bs b i (c :: rest) = .ok same ↔
      i < bs ∧ if b i = c then sameName bs b (i + 1) rest = .ok same else same = false := by
  rw [sameName, load8_bind]
  by_cases hc : b i = c
  · simp [hc]
  · have hnat : (b i).toNat ≠ c.toNat := fun heq => hc (UInt8.toNat_inj.1 heq)
    simp [hc, hnat, eq_comm]

theorem sameName_false :
    sameName bs b i name = .ok false ↔
      ∃ k < name.length, i + k < bs ∧ b (i + k) ≠ name.getD k 0 ∧
        ∀ j < k, b (i + j) = name.getD j 0 := by
  induction name generalizing i with
  | nil => simp [sameName]
  | cons c rest ih =>
    rw [sameName_cons]
    by_cases hc : b i = c
    · rw [if_pos hc, ih]
      constructor
      · rintro ⟨-, k, hk, hin, hdiffers, hsame⟩
        refine ⟨k + 1, by simpa using hk, by omega, ?_, ?_⟩
        · rw [show i + (k + 1) = i + 1 + k by omega]
          exact hdiffers
        · intro j hj
          rcases j with - | j
          · exact hc
          · rw [show i + (j + 1) = i + 1 + j by omega]
            exact hsame j (by omega)
      · rintro ⟨k, hk, hin, hdiffers, hsame⟩
        rcases k with - | k
        · exact absurd hc hdiffers
        · refine ⟨by omega, k, by simpa using hk, by omega, ?_, ?_⟩
          · rw [show i + 1 + k = i + (k + 1) by omega]
            exact hdiffers
          · intro j hj
            rw [show i + 1 + j = i + (j + 1) by omega]
            exact hsame (j + 1) (by omega)
    · rw [if_neg hc]
      constructor
      · rintro ⟨hin, -⟩
        exact ⟨0, by simp, hin, hc, by simp⟩
      · rintro ⟨k, -, hin, -, -⟩
        exact ⟨by omega, rfl⟩

theorem sameName_true :
    sameName bs b i name = .ok true ↔
      (name = [] ∨ i + name.length ≤ bs) ∧ ((range name.length).map fun k => b (i + k)) = name := by
  induction name generalizing i with
  | nil => simp [sameName]
  | cons c rest ih =>
    rw [sameName_cons]
    have hmap : ((range (rest.length + 1)).map fun k => b (i + k)) =
        b i :: (range rest.length).map fun k => b (i + 1 + k) := by
      rw [range_succ_eq_map, map_cons, map_map]
      simp only [Function.comp_def, Nat.add_zero, Nat.succ_eq_add_one, Nat.add_assoc,
        Nat.add_comm 1]
    rw [length_cons, hmap, cons.injEq]
    by_cases hc : b i = c
    · rw [if_pos hc, ih]
      simp only [hc, true_and, reduceCtorEq, false_or]
      constructor
      · rintro ⟨hin, hroom, hrest⟩
        refine ⟨?_, hrest⟩
        rcases hroom with rfl | hroom
        · simp only [length_nil]
          omega
        · omega
      · rintro ⟨hroom, hrest⟩
        exact ⟨by omega, Or.inr (by omega), hrest⟩
    · simp [hc]

theorem lookupVisit_passes (name : List UInt8) (b : Buf) (s : Unit) (o : Nat) (t : Unit) :
    lookupVisit bs name b s o = .ok (.inl t) ↔ LookupPasses bs name b o := by
  rw [lookupVisit, load32_bind, LookupPasses]
  refine and_congr_right fun hin => ?_
  by_cases hlive : deInode b o = 0
  · have hzero : b.get32 o = 0 := hlive
    simp [hlive, hzero]
  · have hnonzero : b.get32 o ≠ 0 := hlive
    rw [if_neg hnonzero, load8_bind]
    simp only [hlive, false_or]
    refine and_congr (by omega) ?_
    by_cases hlen : deNameLen b o = name.length
    · have hequal : (b (o + 6)).toNat = name.length := hlen
      rw [if_pos hequal, bind_eq_ok]
      simp only [hlen, ne_eq, not_true, false_or, DiffersAt, ← sameName_false]
      constructor
      · rintro ⟨same, hsame, hresult⟩
        cases same with
        | false => exact hsame
        | true => simp at hresult
      · intro hsame
        exact ⟨false, hsame, rfl⟩
    · have hother : (b (o + 6)).toNat ≠ name.length := hlen
      simp [hother, hlen]

theorem lookupVisit_stops (name : List UInt8) (b : Buf) (s : Unit) (o : Nat) :
    (∃ ino, lookupVisit bs name b s o = .ok (.inr ino)) ↔ LookupStops bs name b o := by
  have hiff : ∀ ino, lookupVisit bs name b s o = .ok (.inr ino) ↔
      LookupStops bs name b o ∧ deInode b o = ino := by
    intro ino
    rw [lookupVisit, load32_bind, LookupStops]
    by_cases hlive : deInode b o = 0
    · have hzero : b.get32 o = 0 := hlive
      simp [hlive, hzero]
    · have hnonzero : b.get32 o ≠ 0 := hlive
      rw [if_neg hnonzero, load8_bind]
      by_cases hlen : deNameLen b o = name.length
      · have hequal : (b (o + 6)).toNat = name.length := hlen
        rw [if_pos hequal, bind_eq_ok]
        constructor
        · rintro ⟨hin, hin', same, hsame, hresult⟩
          cases same with
          | false => simp at hresult
          | true =>
            obtain ⟨hroom, hname⟩ := sameName_true.1 hsame
            exact ⟨⟨by omega, hlive, hlen, hroom, hname⟩, by simpa [deInode] using hresult⟩
        · rintro ⟨⟨hin, -, -, hroom, hname⟩, hino⟩
          exact ⟨by omega, by omega, true, sameName_true.2 ⟨hroom, hname⟩, by
            simpa [deInode] using hino⟩
      · have hother : (b (o + 6)).toNat ≠ name.length := hlen
        simp [hother, hlen]
  simp [hiff]

def lookupRecords (bs : Nat) (name : List UInt8) : Records Unit where
  passes b _ o := LookupPasses bs name b o
  next _ _ _ := ()
  stops b _ o := LookupStops bs name b o

theorem lookup_describes (bs : Nat) (name : List UInt8) :
    (lookupRecords bs name).Describes bs (lookupVisit bs name) id :=
  Records.describes_of_stay (fun b s o t => by simp [lookupVisit_passes, lookupRecords])
    (lookupVisit_stops name) fun _ _ _ => id

/-! ## Emptiness -/

/-- The loop body of `ext2_rmdir`; it stops at a record other than the dots -/
def emptyVisit (bs : Nat) : Visit Unit Unit := fun b _ o => do
  let inode ← load32 bs b o
  if inode = 0 then .ok (.inl ())
  else do
    let nameLen ← load8 bs b (o + 6)
    if nameLen = 1 then do
      let first ← load8 bs b (o + 8)
      if first = 46 then .ok (.inl ()) else .ok (.inr ())
    else if nameLen = 2 then do
      let first ← load8 bs b (o + 8)
      if first = 46 then do
        let second ← load8 bs b (o + 9)
        if second = 46 then .ok (.inl ()) else .ok (.inr ())
      else .ok (.inr ())
    else .ok (.inr ())

/-- A deleted record, `.` or `..`. -/
def EmptyPasses (bs : Nat) (b : Buf) (o : Nat) : Prop :=
  o + 4 ≤ bs ∧ (deInode b o = 0 ∨
    deNameLen b o = 1 ∧ o + 9 ≤ bs ∧ b (o + 8) = 46 ∨
    deNameLen b o = 2 ∧ o + 10 ≤ bs ∧ b (o + 8) = 46 ∧ b (o + 9) = 46)

/-- Another live record; of its name the bytes that show it are in the block. -/
def EmptyStops (bs : Nat) (b : Buf) (o : Nat) : Prop :=
  o + 7 ≤ bs ∧ deInode b o ≠ 0 ∧ (deNameLen b o ≠ 1 ∧ deNameLen b o ≠ 2 ∨
    (deNameLen b o = 1 ∨ deNameLen b o = 2) ∧ o + 9 ≤ bs ∧ b (o + 8) ≠ 46 ∨
    deNameLen b o = 2 ∧ o + 10 ≤ bs ∧ b (o + 8) = 46 ∧ b (o + 9) ≠ 46)

theorem toNat_eq_dot {c : UInt8} : c.toNat = 46 ↔ c = 46 := by
  rw [← UInt8.toNat_inj]
  rfl

/-- Both outcomes; a byte is looked at only if those before it do not decide. -/
theorem emptyVisit_iff (b : Buf) (s : Unit) (o : Nat) :
    (emptyVisit bs b s o = .ok (.inl ()) ↔ EmptyPasses bs b o) ∧
      (emptyVisit bs b s o = .ok (.inr ()) ↔ EmptyStops bs b o) := by
  rw [emptyVisit, load32_bind, load32_bind, EmptyPasses, EmptyStops]
  by_cases hlive : deInode b o = 0
  · have hzero : b.get32 o = 0 := hlive
    simp [hlive, hzero]
  · have hnonzero : b.get32 o ≠ 0 := hlive
    have hlen : (b (o + 6)).toNat = deNameLen b o := rfl
    rw [if_neg hnonzero, load8_bind, load8_bind, hlen]
    by_cases hone : deNameLen b o = 1
    · by_cases hdot : b (o + 8) = 46
      · simp [hlive, hone, load8_bind, hdot]
        omega
      · simp [hlive, hone, load8_bind, toNat_eq_dot, hdot]
        omega
    · by_cases htwo : deNameLen b o = 2
      · by_cases hdot : b (o + 8) = 46
        · by_cases hdots : b (o + 9) = 46
          · simp [hlive, htwo, load8_bind, hdot, hdots]
            omega
          · simp [hlive, htwo, load8_bind, toNat_eq_dot, hdot, hdots]
            omega
        · simp [hlive, htwo, load8_bind, toNat_eq_dot, hdot]
          omega
      · simp [hlive, hone, htwo]
        omega

theorem emptyVisit_passes (b : Buf) (s : Unit) (o : Nat) (t : Unit) :
    emptyVisit bs b s o = .ok (.inl t) ↔ EmptyPasses bs b o :=
  (emptyVisit_iff b s o).1

theorem emptyVisit_stops (b : Buf) (s : Unit) (o : Nat) :
    (∃ u, emptyVisit bs b s o = .ok (.inr u)) ↔ EmptyStops bs b o := by
  rw [← (emptyVisit_iff b s o).2]
  exact ⟨fun ⟨_, hstop⟩ => hstop, fun hstop => ⟨(), hstop⟩⟩

def emptyRecords (bs : Nat) : Records Unit where
  passes b _ o := EmptyPasses bs b o
  next _ _ _ := ()
  stops b _ o := EmptyStops bs b o

theorem empty_describes (bs : Nat) : (emptyRecords bs).Describes bs (emptyVisit bs) id :=
  Records.describes_of_stay (fun b s o t => by simp [emptyVisit_passes, emptyRecords])
    emptyVisit_stops fun _ _ _ => id

/-! ## Adding an entry -/

/-- The fields and the name of a live record, as `ext2_dir_add_entry` stores them -/
def storeEntry (bs : Nat) (b : Buf) (o ino type : Nat) (name : List UInt8) : Except Fault Buf := do
  let b ← store32 bs b o ino
  let b ← store8 bs b (o + 6) name.length
  let b ← store8 bs b (o + 7) type
  let b ← storeBytes bs b (o + 8) name
  .ok b

/-- What `ext2_dir_add_entry` does with a record whose fields it has read -/
def addAt (bs ino type : Nat) (name : List UInt8) (b : Buf) (o nameLen len inode : Nat) :
    Except Fault (Unit ⊕ Buf) :=
  let recLen := dirRecLen name.length
  let minLen := dirRecLen nameLen
  let freeSpace := s16 (s16 len - minLen)
  if inode = 0 then
    if recLen ≤ len then do
      let b ← storeEntry bs b o ino type name
      .ok (.inr b)
    else .ok (.inl ())
  else if s16 recLen ≤ freeSpace then do
    let b ← store16 bs b (o + minLen + 4) (freeSpace % 2 ^ 16).toNat
    let b ← storeEntry bs b (o + minLen) ino type name
    let b ← store16 bs b (o + 4) minLen
    .ok (.inr b)
  else .ok (.inl ())

/-- The loop body of `ext2_dir_add_entry`; it stops with the changed block -/
def addVisit (bs ino type : Nat) (name : List UInt8) : Visit Unit Buf := fun b _ o => do
  let nameLen ← load8 bs b (o + 6)
  let len ← load16 bs b (o + 4)
  let inode ← load32 bs b o
  addAt bs ino type name b o nameLen len inode

/-- A record without enough room. -/
def AddPasses (bs : Nat) (name : List UInt8) (b : Buf) (o : Nat) : Prop :=
  o + 7 ≤ bs ∧ ¬HasRoom b o name.length

/-- A record that says it has enough room, and the new one lies in the block. -/
def AddStops (bs : Nat) (name : List UInt8) (b : Buf) (o : Nat) : Prop :=
  o + 7 ≤ bs ∧ HasRoom b o name.length ∧
    (if deInode b o = 0 then o else o + dirRecLen (deNameLen b o)) + 8 + name.length ≤ bs

/-- A record is stored if its name ends inside the block. -/
theorem storeEntry_bind {β : Type} {ino type : Nat} {g : Buf → Except Fault β}
    {p : Prop} (hg : ∀ b', (∃ r, g b' = .ok r) ↔ p) :
    (∃ r, (storeEntry bs b o ino type name >>= g) = .ok r) ↔ o + 8 + name.length ≤ bs ∧ p := by
  simp only [storeEntry, bind_assoc, store32_bind, store8_bind, storeBytes_bind, exists_and_left]
  have hok : ∀ b', (∃ r, (Except.ok b' >>= g) = .ok r) ↔ p := hg
  simp only [hok]
  rcases name with - | ⟨c, rest⟩
  · simp only [length_nil, true_or, true_and, ← and_assoc]
    refine and_congr_left fun _ => ?_
    omega
  · simp only [reduceCtorEq, false_or, length_cons, ← and_assoc]
    refine and_congr_left fun _ => ?_
    omega

/-- The accesses before the decision stay inside the block if the name length does. -/
theorem addVisit_eq_ok {ino type : Nat} {s : Unit} {r : Unit ⊕ Buf} :
    addVisit bs ino type name b s o = .ok r ↔ o + 7 ≤ bs ∧
      addAt bs ino type name b o (deNameLen b o) (deRecLen b o) (deInode b o) = .ok r := by
  rw [addVisit, load8_bind, load16_bind, load32_bind]
  constructor
  · rintro ⟨hlen, -, -, hrest⟩
    exact ⟨by omega, hrest⟩
  · rintro ⟨hin, hrest⟩
    exact ⟨by omega, by omega, by omega, hrest⟩

theorem addVisit_passes (ino type : Nat) (name : List UInt8) (b : Buf) (s : Unit)
    (o : Nat) (t : Unit) :
    addVisit bs ino type name b s o = .ok (.inl t) ↔ AddPasses bs name b o := by
  rw [addVisit_eq_ok, AddPasses, HasRoom, freeSpaceOf, addAt]
  refine and_congr_right fun hin => ?_
  by_cases hlive : deInode b o = 0
  · rw [if_pos hlive, if_pos hlive]
    by_cases hroom : dirRecLen name.length ≤ deRecLen b o
    · simp [bind_eq_ok, hroom]
    · simp [hroom]
  · rw [if_neg hlive, if_neg hlive]
    by_cases hroom : s16 (dirRecLen name.length) ≤
      s16 (s16 (deRecLen b o) - dirRecLen (deNameLen b o))
    · simp [bind_eq_ok, hroom]
    · simp [hroom]

theorem addVisit_stops (ino type : Nat) (name : List UInt8) (b : Buf) (s : Unit) (o : Nat) :
    (∃ b', addVisit bs ino type name b s o = .ok (.inr b')) ↔ AddStops bs name b o := by
  have hresult : ∀ x : Except Fault (Unit ⊕ Buf), (∀ t, x ≠ .ok (.inl t)) →
      ((∃ b', x = .ok (.inr b')) ↔ ∃ r, x = .ok r) := by
    intro x hx
    constructor
    · rintro ⟨b', hb'⟩
      exact ⟨_, hb'⟩
    · rintro ⟨t | b', hr⟩
      · exact absurd hr (hx t)
      · exact ⟨b', hr⟩
  simp only [addVisit_eq_ok, exists_and_left]
  rw [AddStops, HasRoom, freeSpaceOf, addAt]
  refine and_congr_right fun hin => ?_
  by_cases hlive : deInode b o = 0
  · simp only [if_pos hlive]
    by_cases hroom : dirRecLen name.length ≤ deRecLen b o
    · have hends : ∀ b' : Buf, (∃ r, (.ok (.inr b') : Except Fault (Unit ⊕ Buf)) = .ok r) ↔
          True := by
        simp
      simp only [hroom, if_true, true_and]
      rw [hresult _ (by simp [bind_eq_ok]), storeEntry_bind hends, and_true]
    · simp [hroom]
  · simp only [if_neg hlive]
    by_cases hroom : s16 (dirRecLen name.length) ≤
      s16 (s16 (deRecLen b o) - dirRecLen (deNameLen b o))
    · simp only [hroom, if_true, true_and]
      rw [hresult _ (by simp [bind_eq_ok])]
      simp only [store16_bind, exists_and_left]
      rw [storeEntry_bind (p := o + 4 + 2 ≤ bs) (by simp [store16_bind])]
      omega
    · simp [hroom]

def addRecords (bs : Nat) (name : List UInt8) : Records Unit where
  passes b _ o := AddPasses bs name b o
  next _ _ _ := ()
  stops b _ o := AddStops bs name b o

theorem add_describes (bs ino type : Nat) (name : List UInt8) :
    (addRecords bs name).Describes bs (addVisit bs ino type name) id :=
  Records.describes_of_stay (fun b s o t => by simp [addVisit_passes, addRecords])
    (addVisit_stops ino type name) fun _ _ _ => id

/-! ## Removing an entry -/

/-- The block with the record at `o` marked as deleted. -/
def markDeleted (b : Buf) (o : Nat) : Buf := (b.put32 o 0).put8 (o + 6) 0

/-- `prev->rec_len += de->rec_len` -/
def mergeBefore (bs : Nat) (b : Buf) (prev : Option Nat) (o : Nat) : Except Fault Buf :=
  prev.elim (.ok b) fun p => do
    let before ← load16 bs b (p + 4)
    let len ← load16 bs b (o + 4)
    let b ← store16 bs b (p + 4) (before + len)
    .ok b

/-- If the record behind is a deleted one, `keeper->rec_len += next->rec_len` -/
def mergeBehind (bs : Nat) (b : Buf) (keeper o : Nat) : Except Fault Buf := do
  let len ← load16 bs b (o + 4)
  let next := o + len
  if next < bs then do
    let behind ← load32 bs b next
    if behind = 0 then do
      let more ← load16 bs b (next + 4)
      let before ← load16 bs b (keeper + 4)
      let b ← store16 bs b (keeper + 4) (before + more)
      .ok b
    else .ok b
  else .ok b

/-- The loop body of `ext2_dir_remove_entry`; `prev` is the record before -/
def removeVisit (bs ino : Nat) : Visit (Option Nat) Buf := fun b prev o => do
  let inode ← load32 bs b o
  if inode = ino then do
    let b ← store32 bs b o 0
    let b ← store8 bs b (o + 6) 0
    let b ← mergeBefore bs b prev o
    let b ← mergeBehind bs b (prev.getD o) o
    .ok (.inr b)
  else .ok (.inl (some o))

/-- The block after the deleted record has been added to the one before it. -/
def mergedInto (b : Buf) (o : Nat) : Option Nat → Buf
  | none => markDeleted b o
  | some p => putRecLen (markDeleted b o) p
      (deRecLen (markDeleted b o) p + deRecLen (markDeleted b o) o)

/-- A record of another inode. -/
def RemovePasses (bs ino : Nat) (b : Buf) (o : Nat) : Prop := o + 4 ≤ bs ∧ deInode b o ≠ ino

/-- A record of the inode; if another one follows it in the block, its inode number is there, and
its length if it is deleted.  These are read after the record has been marked as deleted and added
to the one before it. -/
def RemoveStopsAfter (bs ino : Nat) (b : Buf) (prev : Option Nat) (o : Nat) : Prop :=
  o + 7 ≤ bs ∧ deInode b o = ino ∧ (∀ p ∈ prev, p + 6 ≤ bs) ∧
    let after := mergedInto b o prev
    let next := o + deRecLen after o
    next < bs → next + 4 ≤ bs ∧ (deInode after next = 0 → next + 6 ≤ bs)

/-- The same where the records do not overlap. -/
def RemoveStops (bs ino : Nat) (b : Buf) (o : Nat) : Prop :=
  o + 7 ≤ bs ∧ deInode b o = ino ∧
    let next := o + deRecLen b o
    deRecLen b o ≠ 0 → next < bs → next + 4 ≤ bs ∧ (deInode b next = 0 → next + 6 ≤ bs)

theorem removeVisit_passes (ino : Nat) (b : Buf) (s : Option Nat) (o : Nat) (t : Option Nat) :
    removeVisit bs ino b s o = .ok (.inl t) ↔ RemovePasses bs ino b o ∧ t = some o := by
  rw [removeVisit, load32_bind, RemovePasses, and_assoc]
  refine and_congr_right fun hin => ?_
  by_cases hino : deInode b o = ino
  · rw [if_pos (show b.get32 o = ino from hino)]
    simp [hino, bind_eq_ok]
  · rw [if_neg (show ¬b.get32 o = ino from hino)]
    simp [hino, eq_comm]

theorem mergeBefore_bind {β : Type} {prev : Option Nat} {g : Buf → Except Fault β} {r : β}
    (hin : o + 6 ≤ bs) :
    (mergeBefore bs (markDeleted b o) prev o >>= g) = .ok r ↔
      (∀ p ∈ prev, p + 6 ≤ bs) ∧ g (mergedInto b o prev) = .ok r := by
  cases prev with
  | none => simp [mergeBefore, mergedInto, bind, Except.bind]
  | some p =>
    simp only [mergeBefore, Option.elim, bind_assoc, load16_bind, store16_bind, Option.mem_def,
      Option.some.injEq, forall_eq']
    constructor
    · rintro ⟨hp, -, -, hrest⟩
      exact ⟨by omega, hrest⟩
    · rintro ⟨hp, hrest⟩
      exact ⟨by omega, by omega, by omega, hrest⟩

theorem mergeBehind_ok {keeper : Nat} (hin : o + 6 ≤ bs) (hkeeper : keeper + 6 ≤ bs) :
    (∃ b', mergeBehind bs b keeper o = .ok b') ↔
      (o + deRecLen b o < bs → o + deRecLen b o + 4 ≤ bs ∧
        (deInode b (o + deRecLen b o) = 0 → o + deRecLen b o + 6 ≤ bs)) := by
  have hlen : b.get16 (o + 4) = deRecLen b o := rfl
  simp only [mergeBehind, load16_bind, hlen, exists_and_left]
  by_cases hnext : o + deRecLen b o < bs
  · simp only [if_pos hnext, load32_bind, exists_and_left]
    by_cases hbehind : deInode b (o + deRecLen b o) = 0
    · simp only [if_pos (show b.get32 (o + deRecLen b o) = 0 from hbehind),
        load16_bind, store16_bind, exists_and_left]
      simp [hbehind]
      omega
    · simp only [if_neg (show ¬b.get32 (o + deRecLen b o) = 0 from hbehind)]
      simp [hbehind]
      omega
  · simp [hnext]
    omega

theorem removeVisit_stops (ino : Nat) (b : Buf) (s : Option Nat) (o : Nat) :
    (∃ b', removeVisit bs ino b s o = .ok (.inr b')) ↔ RemoveStopsAfter bs ino b s o := by
  simp only [removeVisit, load32_bind, RemoveStopsAfter, exists_and_left]
  by_cases hino : deInode b o = ino
  · have hresult : ∀ x : Except Fault Buf,
        (∃ b', (x >>= fun b => .ok (.inr b : Option Nat ⊕ Buf)) = .ok (.inr b')) ↔
          ∃ b', x = .ok b' := by
      intro x
      simp [bind_eq_ok]
    simp only [if_pos (show b.get32 o = ino from hino), store32_bind, store8_bind, exists_and_left]
    by_cases hin : o + 7 ≤ bs
    · have hmark : (b.put32 o 0).put8 (o + 6) 0 = markDeleted b o := rfl
      simp only [hmark, mergeBefore_bind (show o + 6 ≤ bs by omega), exists_and_left, hresult]
      have hfields : o + 4 ≤ bs ∧ o + 6 < bs := by omega
      simp only [hfields, hin, hino, true_and]
      refine and_congr_right fun hprev => mergeBehind_ok (by omega) ?_
      cases s with
      | none =>
        simp only [Option.getD_none]
        omega
      | some p => exact hprev p rfl
    · simp only [hin, false_and, iff_false]
      omega
  · simp [if_neg (show ¬b.get32 o = ino from hino), hino]

/-- With what the function reads after its changes. -/
def removeRecordsAfter (bs ino : Nat) : Records (Option Nat) where
  passes b _ o := RemovePasses bs ino b o
  next _ _ o := some o
  stops b prev o := RemoveStopsAfter bs ino b prev o

def removeRecords (bs ino : Nat) : Records (Option Nat) where
  passes b _ o := RemovePasses bs ino b o
  next _ _ o := some o
  stops b _ o := RemoveStops bs ino b o

theorem remove_describes (bs ino : Nat) :
    (removeRecordsAfter bs ino).Describes bs (removeVisit bs ino) fun _ => none :=
  Records.describes_of_stay (removeVisit_passes ino) (removeVisit_stops ino) fun _ _ _ => id

/-- No record is shorter than its header, unless it has no length at all. -/
def Spaced (bs : Nat) (blocks : List (Option Buf)) : Prop :=
  ∀ b, some b ∈ blocks → ∀ n, recordAt b 0 n < bs →
    deRecLen b (recordAt b 0 n) = 0 ∨ 8 ≤ deRecLen b (recordAt b 0 n)

theorem recordAt_succ (b : Buf) (o n : Nat) :
    recordAt b o (n + 1) = recordAt b o n + deRecLen b (recordAt b o n) := by
  induction n generalizing o with
  | zero => rfl
  | succ n ih => exact ih _

theorem removeMemory_succ (b : Buf) (ino : Nat) (s : Option Nat) (o n : Nat) :
    (removeRecords bs ino).memoryAt b s o (n + 1) = some (recordAt b o n) := by
  induction n generalizing s o with
  | zero => rfl
  | succ n ih => exact ih _ _

theorem removeMemory_after (b : Buf) (ino : Nat) (s : Option Nat) (o n : Nat) :
    (removeRecordsAfter bs ino).memoryAt b s o n = (removeRecords bs ino).memoryAt b s o n := by
  induction n generalizing s o with
  | zero => rfl
  | succ n ih => exact ih _ _

/-- The changes do not reach what is read behind a record that is not too short. -/
theorem removeStopsAfter_iff {ino : Nat} {prev : Option Nat} (hprev : ∀ p ∈ prev, p + 8 ≤ o)
    (hown : deRecLen b o = 0 ∨ 8 ≤ deRecLen b o) :
    RemoveStopsAfter bs ino b prev o ↔ RemoveStops bs ino b o := by
  have hsame : ∀ i, o + 4 ≤ i → i ≠ o + 6 → mergedInto b o prev i = b i := by
    intro i hi hne
    have hmark : markDeleted b o i = b i := by
      rw [markDeleted, put8_of_ne hne, put32_of_not_mem (by omega)]
    cases prev with
    | none => exact hmark
    | some p =>
      have hp := hprev p rfl
      rw [mergedInto, putRecLen, put16_of_not_mem (by omega), hmark]
  have hlen : deRecLen (mergedInto b o prev) o = deRecLen b o :=
    get16_congr fun k hk => hsame _ (by omega) (by omega)
  rw [RemoveStopsAfter, RemoveStops]
  dsimp only
  rw [hlen]
  refine and_congr_right fun hin => and_congr_right fun _ => ?_
  rw [and_iff_right fun p hp => by have := hprev p hp; omega]
  rcases hown with hzero | hlong
  · simp only [hzero, ne_eq, not_true, false_imp_iff, iff_true]
    exact fun _ => ⟨by omega, fun _ => by omega⟩
  · have hnext : deInode (mergedInto b o prev) (o + deRecLen b o) = deInode b (o + deRecLen b o) :=
      get32_congr fun k hk => hsame _ (by omega) (by omega)
    rw [hnext, forall_prop_of_true (show deRecLen b o ≠ 0 by omega)]

/-- So the removal can be told from the block as it was. -/
theorem removeLead_iff {ino : Nat} {last : Prop} {blocks : List (Option Buf)}
    (hspaced : Spaced bs blocks) :
    (removeRecordsAfter bs ino).Lead bs (fun _ => none) last blocks none 0 ↔
      (removeRecords bs ino).Lead bs (fun _ => none) last blocks none 0 := by
  induction blocks with
  | nil => rfl
  | cons block rest ih =>
    have hrest := ih fun b hb => hspaced b (mem_cons_of_mem _ hb)
    cases block with
    | none => rfl
    | some b =>
      have hb := hspaced b mem_cons_self
      simp only [Records.Lead, Records.Chain, removeMemory_after]
      refine exists_congr fun n => and_congr_right fun hchain =>
        or_congr (and_congr_right fun hlt => ?_) (and_congr_right fun _ => hrest)
      refine removeStopsAfter_iff (fun p hp => ?_) (hb n hlt)
      cases n with
      | zero => cases hp
      | succ n =>
        rw [removeMemory_succ] at hp
        cases hp
        obtain ⟨hin, hne, -⟩ := hchain n n.lt_succ_self
        have hlong := (hb n (by omega)).resolve_left hne
        rw [recordAt_succ]
        omega

/-! ## Reading a directory -/

/-- What `ext2_readdir` gives its caller: `-1`, or the record. -/
inductive Delivered
  | refused
  | entry (ino type : Nat) (name : List UInt8)

/-- The loop body of `ext2_readdir`; the memory is the number of live records so far -/
def readdirVisit (bs target count : Nat) : Visit Nat Delivered := fun b cur o => do
  let inode ← load32 bs b o
  if inode = 0 then .ok (.inl cur)
  else if cur = target then do
    let nameLen ← load8 bs b (o + 6)
    if count < 16 + nameLen + 1 then .ok (.inr .refused)
    else do
      let type ← load8 bs b (o + 7)
      let name ← loadBytes bs b (o + 8) nameLen
      .ok (.inr (.entry inode type name))
  else .ok (.inl (u32 (cur + 1)))

/-- A deleted record, or a live one that is not the one asked for. -/
def ReaddirPasses (bs target : Nat) (b : Buf) (cur o : Nat) : Prop :=
  o + 4 ≤ bs ∧ (deInode b o ≠ 0 → cur ≠ target)

/-- The number of live records so far, behind a record. -/
def readdirNext (b : Buf) (cur o : Nat) : Nat := if deInode b o = 0 then cur else u32 (cur + 1)

/-- A live record with its name in the block, unless the caller's buffer is too small for it. -/
def Deliverable (bs count : Nat) (b : Buf) (o : Nat) : Prop :=
  o + 7 ≤ bs ∧ deInode b o ≠ 0 ∧ (count < 17 + deNameLen b o ∨ o + 8 + deNameLen b o ≤ bs)

theorem readdirVisit_passes (target count : Nat) (b : Buf) (s o t : Nat) :
    readdirVisit bs target count b s o = .ok (.inl t) ↔
      ReaddirPasses bs target b s o ∧ t = readdirNext b s o := by
  rw [readdirVisit, load32_bind, ReaddirPasses, readdirNext, and_assoc]
  refine and_congr_right fun hin => ?_
  by_cases hlive : deInode b o = 0
  · rw [if_pos (show b.get32 o = 0 from hlive)]
    simp [hlive, eq_comm]
  · rw [if_neg hlive, if_neg (show ¬b.get32 o = 0 from hlive)]
    by_cases htarget : s = target
    · rw [if_pos htarget, load8_bind]
      simp only [htarget, hlive, ne_eq, not_true, not_false_eq_true, imp_false,
        false_and, iff_false, not_and]
      intro _
      split
      · simp
      · simp [bind_eq_ok]
    · rw [if_neg htarget]
      simp [htarget, eq_comm]

theorem readdirVisit_stops (target count : Nat) (b : Buf) (s o : Nat) :
    (∃ d, readdirVisit bs target count b s o = .ok (.inr d)) ↔
      s = target ∧ Deliverable bs count b o := by
  simp only [readdirVisit, load32_bind, Deliverable, exists_and_left]
  by_cases hlive : deInode b o = 0
  · simp [hlive, show b.get32 o = 0 from hlive]
  · simp only [if_neg (show ¬b.get32 o = 0 from hlive)]
    by_cases htarget : s = target
    · have hlen : (b (o + 6)).toNat = deNameLen b o := rfl
      simp only [if_pos htarget, load8_bind, hlen, exists_and_left]
      by_cases hcount : count < 16 + deNameLen b o + 1
      · simp [hcount, hlive, htarget]
        omega
      · simp only [if_neg hcount, load8_bind, loadBytes_bind, exists_and_left]
        simp [hlive, htarget]
        omega
    · simp [htarget]

/-- A live record without length is come to again until it is the one asked for. -/
def readdirRecords (bs target count : Nat) : Records Nat where
  passes b cur o := ReaddirPasses bs target b cur o
  next b cur o := readdirNext b cur o
  stops b cur o := (cur = target ∨ deRecLen b o = 0) ∧ Deliverable bs count b o

section ReaddirZero

variable {target count cur : Nat} {rest : List (Option Buf)} (hzero : deRecLen b o = 0)
include hzero

/-- A round at a live record without length. -/
theorem readdirTurn (hin : o + 7 ≤ bs) (hlive : deInode b o ≠ 0) (hother : cur ≠ target) :
    scanTurn bs (readdirVisit bs target count) id ⟨some b :: rest, cur, o⟩ =
      .next ⟨some b :: rest, u32 (cur + 1), o⟩ := by
  have hpass : ReaddirPasses bs target b cur o := ⟨by omega, fun _ => hother⟩
  have hturn := @scanTurn_record _ _ bs (readdirVisit bs target count) id b rest cur o _
    (by omega) ((readdirVisit_passes target count b cur o _).2 ⟨hpass, rfl⟩)
  rwa [readdirNext, if_neg hlive, hzero, Nat.add_zero] at hturn

/-- After `d` rounds it is the one asked for. -/
theorem readdir_rounds {d : Nat} (htarget : target < 2 ^ 32) (hname : Deliverable bs count b o)
    (hcur : cur < 2 ^ 32) (hd : u32 (cur + d) = target) :
    ∃ a, Loop.Ends (scanTurn bs (readdirVisit bs target count) id) ⟨some b :: rest, cur, o⟩
      (.here a) := by
  have hin := hname.1
  by_cases hhere : cur = target
  · obtain ⟨a, hvisit⟩ := (readdirVisit_stops target count b cur o).2 ⟨hhere, hname⟩
    exact ⟨a, .done (scanTurn_found (by omega) hvisit)⟩
  induction d generalizing cur with
  | zero => exact absurd ((u32_of_lt hcur).symm.trans hd) hhere
  | succ d ih =>
    have hturn := @readdirTurn bs o b target count cur rest hzero hin hname.2.1 hhere
    have hd' : u32 (u32 (cur + 1) + d) = target := by
      simp only [u32] at hd ⊢
      omega
    by_cases hhere' : u32 (cur + 1) = target
    · obtain ⟨a, hvisit⟩ := (readdirVisit_stops target count b _ o).2 ⟨hhere', hname⟩
      exact ⟨a, .next hturn (.done (scanTurn_found (by omega) hvisit))⟩
    · obtain ⟨a, hends⟩ := ih (u32_lt _) hd' hhere'
      exact ⟨a, .next hturn hends⟩

/-- A scan that comes to a live record without length ends by delivering it. -/
theorem deliverable_of_ends {p : Place Nat} {r : Found Delivered} (hin : o < bs)
    (hends : Loop.Ends (scanTurn bs (readdirVisit bs target count) id) p r)
    (hp : p = ⟨some b :: rest, cur, o⟩) : Deliverable bs count b o := by
  induction hends generalizing cur with
  | done hstep =>
    subst hp
    rcases @scanTurn_cases _ _ bs (readdirVisit bs target count) id b rest cur o hin with
      ⟨a, hvisit, -⟩ | ⟨t, -, -, hturn⟩ | ⟨e, hturn⟩
    · exact ((readdirVisit_stops target count b cur o).1 ⟨a, hvisit⟩).2
    · cases hturn.symm.trans hstep
    · cases hturn.symm.trans hstep
  | next hstep _ ih =>
    subst hp
    rcases @scanTurn_cases _ _ bs (readdirVisit bs target count) id b rest cur o hin with
      ⟨a, -, hturn⟩ | ⟨t, -, -, hturn⟩ | ⟨e, hturn⟩
    · cases hturn.symm.trans hstep
    · rw [hzero, Nat.add_zero] at hturn
      cases hturn.symm.trans hstep
      exact ih rfl
    · cases hturn.symm.trans hstep

end ReaddirZero

theorem readdir_describes {target count : Nat} (htarget : target < 2 ^ 32) :
    (readdirRecords bs target count).Describes bs (readdirVisit bs target count) id where
  passes := readdirVisit_passes target count
  found b cur o a hvisit := by
    obtain ⟨hhere, hname⟩ := (readdirVisit_stops target count b cur o).1 ⟨a, hvisit⟩
    exact ⟨.inl hhere, hname⟩
  ends b rest cur o hin hstop := by
    obtain ⟨hstop, hname⟩ := hstop
    by_cases hhere : cur = target
    · obtain ⟨a, hvisit⟩ := (readdirVisit_stops target count b cur o).2 ⟨hhere, hname⟩
      exact ⟨a, .done (scanTurn_found hin hvisit)⟩
    · -- one round makes the counter a 32-bit number
      have hzero := hstop.resolve_left hhere
      have hlt := u32_lt (cur + 1)
      obtain ⟨a, hends⟩ := @readdir_rounds bs o b target count (u32 (cur + 1)) rest hzero
        (target + 2 ^ 32 - u32 (cur + 1)) htarget hname hlt (by rw [u32]; omega)
      exact ⟨a, .next (readdirTurn hzero hname.1 hname.2.1 hhere) hends⟩
  zero b rest cur o r hin hzero hpass hends := by
    by_cases hlive : deInode b o = 0
    · have hstay : ∀ s, (readdirRecords bs target count).passes b s o →
          (readdirRecords bs target count).passes b
            ((readdirRecords bs target count).next b s o) o :=
        fun s hs => ⟨hs.1, fun hne => absurd hlive hne⟩
      exact absurd hends (not_ends_of_zero (readdirVisit_passes target count b · o)
        hstay hin hzero hpass)
    · exact ⟨.inr hzero, deliverable_of_ends hzero (by omega) hends rfl⟩

/-! ## The functions on a volume -/

/-- The blocks of a directory as the loops load them: holes are passed over. -/
def loads (fs : Fs) (dir : Inode) : List (Option Buf) :=
  (dirBlocks fs dir).filterMap fun l =>
    let block := bmap fs dir.ei l
    if block = 0 then none else some (fs.readBlock block)

/-- `ext2_lookup` -/
def LookupEnds (fs : Fs) (dir : Inode) (name : List UInt8) : Prop :=
  ScanEnds fs.geo.blockSize (lookupVisit fs.geo.blockSize name) id True () (loads fs dir)

/-- `ext2_readdir` for a file at `pos` -/
def ReaddirEnds (fs : Fs) (dir : Inode) (pos : Int) (count : Nat) : Prop :=
  -- `uint32_t target = (uint32_t)file->pos`
  let target := (pos % 2 ^ 32).toNat
  ScanEnds fs.geo.blockSize (readdirVisit fs.geo.blockSize target count) id True 0 (loads fs dir)

/-- `ext2_dir_remove_entry` -/
def RemoveEnds (fs : Fs) (dir : Inode) (ino : Nat) : Prop :=
  ScanEnds fs.geo.blockSize (removeVisit fs.geo.blockSize ino) (fun _ => none) True none
    (loads fs dir)

/-- `ext2_rmdir`: the search in the directory itself, and, if that finds nothing, the removal from
its parent -/
def RmdirEnds (fs : Fs) (dir inode : Inode) : Prop :=
  isDir inode.mode = true →
    ScanEnds fs.geo.blockSize (emptyVisit fs.geo.blockSize) id (RemoveEnds fs dir inode.ino) ()
      (loads fs inode)

/-- The end of `ext2_dir_add_entry` if no record has room: the entry is written to a new block, if
there is one to be had. -/
def appendEntry (fs : Fs) (dir : Inode) (name : List UInt8) (ino type : Nat) :
    Except Fault (Option Buf) :=
  let bs := fs.geo.blockSize
  let block := ((⟨fs, dir.ei, false⟩ : Work).bmapAlloc (sizeBlocks fs.geo dir.size)).2.getD minusOne
  if block = minusOne then .ok none
  else do
    let b ← store16 bs zero 4 bs
    let b ← storeEntry bs b 0 ino type name
    .ok (some b)

/-- `ext2_dir_add_entry` -/
def AddEnds (fs : Fs) (dir : Inode) (name : List UInt8) (ino type : Nat) : Prop :=
  ScanEnds fs.geo.blockSize (addVisit fs.geo.blockSize ino type name) id
    (∃ r, appendEntry fs dir name ino type = .ok r) () (loads fs dir)

/-- If the map has a place for the next block of the directory, and there are blocks for what is
missing on the way to it, the block has room for the name. -/
def AppendFits (fs : Fs) (dir : Inode) (name : List UInt8) : Prop :=
  sizeBlocks fs.geo dir.size < mapBlocks fs.geo.perBlock →
    (missingBehind fs dir).length ≤ fs.spareBlocks.length → 8 + name.length ≤ fs.geo.blockSize

theorem appendEntry_iff {reserved : Nat → Prop} {live : Nat → Option Buf} {no : Nat} {fs : Fs}
    {dir : Inode} {ino type : Nat}
    (ho : Owned reserved fs (Function.update live no (some dir.ei))) :
    (∃ r, appendEntry fs dir name ino type = .ok r) ↔ AppendFits fs dir name := by
  rw [AppendFits, appendEntry]
  by_cases hlt : sizeBlocks fs.geo dir.size < mapBlocks fs.geo.perBlock
  · have hserved := Work.bmapAlloc_served (w := ⟨fs, dir.ei, false⟩) ho hlt
    rw [forall_prop_of_true hlt]
    have hmissing : (missingBehind fs dir).length ≤ fs.spareBlocks.length ↔
        ((⟨fs, dir.ei, false⟩ : Work).bmapAlloc (sizeBlocks fs.geo dir.size)).2.isSome = true := by
      rw [hserved.isSome_iff, missingBehind, mapped_cons_of_lt hlt]
      simp [missing, missingOf, mapped]
    rw [hmissing]
    cases hresult : ((⟨fs, dir.ei, false⟩ : Work).bmapAlloc (sizeBlocks fs.geo dir.size)).2 with
    | none => simp
    | some block =>
      have hne := (Work.bmapAlloc_data (w := ⟨fs, dir.ei, false⟩) ho hresult).2
      simp only [Option.getD_some, hne, if_false, Option.isSome_some,
        forall_true_left, store16_bind, exists_and_left]
      rw [storeEntry_bind (p := True) (by simp), and_true]
      omega
  · simp [hlt, Work.bmapAlloc_beyond (w := ⟨fs, dir.ei, false⟩) (Nat.le_of_not_lt hlt)]

/-- One group of 1024-byte blocks. -/
def blankGeo : Geometry where
  blocksCount := 32
  firstDataBlock := 1
  logBlockSize := 0
  blocksPerGroup := 8192
  inodesPerGroup := 16
  inodeSize := 128
  groupCount := 1
  bgBlockBitmap := fun _ => 3
  bgInodeBitmap := fun _ => 4
  bgInodeTable := fun _ => 5
  sectorCount := 64

/-- A volume full of zeros. -/
def blankFs : Fs where
  geo := blankGeo
  disk := fun _ => zero
  blocks := { bitmap := fun _ => zero, free := fun _ => 0, total := 0 }
  inodes := { bitmap := fun _ => zero, free := fun _ => 0, total := 0 }
  usedDirs := fun _ => 0

/-- A directory of one block, number 9. -/
def blankDir : Inode where
  ino := 2
  mode := 0x41ed
  size := 1024
  linkCount := 1
  ei := zero.put32 40 9

theorem loads_blank : loads blankFs blankDir = [some zero] := by
  have hblocks : dirBlocks blankFs blankDir = [0] := by decide
  have hbmap : bmap blankFs blankDir.ei 0 = 9 := by decide
  have hread : blankFs.readBlock 9 = some zero := rfl
  simp [loads, hblocks, hbmap, hread]

end Osx64.Ext2
