import Osx64.Ext2.Dir
import Osx64.Lib.Assoc

/-!
# Chains of directory records

A well-formed directory block is an exact chain of records: each one has room for its
name, its length is a multiple of four, and the lengths sum up to the size of the block.
`Chain b o os e` says this of the bytes from `o` to `e`, with records at the offsets `os`.

On a chain the loops of the source are loops over a list of offsets (`scanBlock_eq`), and
what a chain means is the list of its live entries.  A change within a few neighbouring
records is a change of a segment of the chain (`Chain.replace`); `placeEntry_spec` and
`dropEntry_spec` say which segment it is and what entries it has afterwards.
-/

namespace Osx64.Ext2

open List Buf Nat

/-! ## Lengths -/

theorem dirRecLen_of_lt {n : Nat} (hn : n < 2 ^ 15) : dirRecLen n = (n + 11) / 4 * 4 := by
  unfold dirRecLen u16
  omega

theorem deNameLen_lt (b : Buf) (o : Nat) : deNameLen b o < 256 := (b (o + 6)).toNat_lt

theorem dirRecLen_deNameLen (b : Buf) (o : Nat) :
    dirRecLen (deNameLen b o) = (deNameLen b o + 11) / 4 * 4 :=
  dirRecLen_of_lt ((deNameLen_lt b o).trans (by decide))

/-! ## Chains -/

/-- A record with room for its name, of a length divisible by four. -/
structure RecordOk (b : Buf) (o : Nat) : Prop where
  aligned : deRecLen b o % 4 = 0
  fits : dirRecLen (deNameLen b o) ≤ deRecLen b o

/-- The bytes from the first offset up to the last are exactly the records at `os`. -/
inductive Chain (b : Buf) : Nat → List Nat → Nat → Prop
  | nil (o : Nat) : Chain b o [] o
  | cons {o e : Nat} {os : List Nat} :
      RecordOk b o → Chain b (o + deRecLen b o) os e → Chain b o (o :: os) e

/-- What the record at `o` stands for: nothing, when it is deleted, or a name with an inode
number. -/
def entryAt (b : Buf) (o : Nat) : Option (List UInt8 × Nat) :=
  if deInode b o = 0 then none else some (deName b o (deNameLen b o), deInode b o)

/-- The entries of the records at `os`. -/
def entriesAt (b : Buf) (os : List Nat) : List (List UInt8 × Nat) := os.filterMap (entryAt b)

/-- The buffers agree from `lo` up to `hi`. -/
def Agree (b b' : Buf) (lo hi : Nat) : Prop := ∀ j, lo ≤ j → j < hi → b' j = b j

section Chain

variable {b b' : Buf} {o m e s t : Nat} {os os₁ os₂ pre mid mid' post : List Nat}

theorem RecordOk.room (h : RecordOk b o) : 8 + deNameLen b o ≤ deRecLen b o := by
  have hfits := h.fits
  rw [dirRecLen_deNameLen] at hfits
  omega

theorem Chain.le (h : Chain b o os e) : o ≤ e := by
  induction h with
  | nil o => exact le_rfl
  | cons _ _ ih => exact (le_add_right _ _).trans ih

theorem Chain.append (h : Chain b o os₁ m) (h' : Chain b m os₂ e) : Chain b o (os₁ ++ os₂) e := by
  induction h with
  | nil o => exact h'
  | cons hrec _ ih => exact .cons hrec (ih h')

theorem Chain.split (h : Chain b o (os₁ ++ os₂) e) :
    ∃ m, Chain b o os₁ m ∧ Chain b m os₂ e := by
  induction os₁ generalizing o with
  | nil => exact ⟨o, .nil o, h⟩
  | cons k rest ih =>
    cases h with
    | cons hrec htail =>
      obtain ⟨m, h₁, h₂⟩ := ih htail
      exact ⟨m, .cons hrec h₁, h₂⟩

/-- A record in the middle of a chain, with what is before and behind it. -/
theorem Chain.at (h : Chain b o (pre ++ m :: post) e) :
    Chain b o pre m ∧ RecordOk b m ∧ Chain b (m + deRecLen b m) post e := by
  obtain ⟨k, hpre, hrest⟩ := h.split
  cases hrest with
  | cons hrec hpost => exact ⟨hpre, hrec, hpost⟩

theorem Agree.mono (h : Agree b b' s t) (hlo : s ≤ o) (hhi : e ≤ t) : Agree b b' o e :=
  fun j hj hj' => h j (hlo.trans hj) (hj'.trans_le hhi)

section

variable (h : Agree b b' o (o + 8))
include h

theorem deRecLen_congr : deRecLen b' o = deRecLen b o :=
  get16_congr fun j hj => h _ (by omega) (by omega)

theorem deNameLen_congr : deNameLen b' o = deNameLen b o := by
  rw [deNameLen, deNameLen, h _ (by omega) (by omega)]

theorem deInode_congr : deInode b' o = deInode b o :=
  get32_congr fun j hj => h _ (by omega) (by omega)

end

theorem deName_congr {n : Nat} (h : Agree b b' (o + 8) (o + 8 + n)) :
    deName b' o n = deName b o n := by
  refine map_congr_left fun k hk => ?_
  rw [mem_range] at hk
  exact h _ (by omega) (by omega)

theorem RecordOk.congr (h : RecordOk b o) (hagree : Agree b b' o (o + 8)) : RecordOk b' o :=
  ⟨by rw [deRecLen_congr hagree]; exact h.aligned,
    by rw [deRecLen_congr hagree, deNameLen_congr hagree]; exact h.fits⟩

theorem entryAt_congr (hagree : Agree b b' o (o + 8 + deNameLen b o)) :
    entryAt b' o = entryAt b o := by
  have hhead : Agree b b' o (o + 8) := hagree.mono le_rfl (by omega)
  have hname : Agree b b' (o + 8) (o + 8 + deNameLen b o) := hagree.mono (by omega) le_rfl
  rw [entryAt, entryAt, deInode_congr hhead, deNameLen_congr hhead, deName_congr hname]

/-- A chain lives in its bytes only. -/
theorem Chain.congr (h : Chain b o os e) (hagree : Agree b b' o e) :
    Chain b' o os e ∧ entriesAt b' os = entriesAt b os := by
  induction h with
  | nil o => exact ⟨.nil o, rfl⟩
  | @cons o e os hrec htail ih =>
    have hle := htail.le
    have hroom := hrec.room
    have hhead : Agree b b' o (o + 8) := hagree.mono le_rfl (by omega)
    obtain ⟨htail', hentries⟩ := ih (hagree.mono (by omega) le_rfl)
    refine ⟨.cons (hrec.congr hhead) ?_, ?_⟩
    · rwa [deRecLen_congr hhead]
    · unfold entriesAt at *
      rw [filterMap_cons, filterMap_cons, hentries,
        entryAt_congr (hagree.mono le_rfl (by omega))]

theorem entriesAt_append (b : Buf) (os₁ os₂ : List Nat) :
    entriesAt b (os₁ ++ os₂) = entriesAt b os₁ ++ entriesAt b os₂ := filterMap_append

/-- A segment of a chain is replaced. -/
theorem Chain.replace (hpre : Chain b o pre s) (hmid : Chain b' s mid' t)
    (hpost : Chain b t post e) (hlow : Agree b b' o s) (hhigh : Agree b b' t e) :
    Chain b' o (pre ++ mid' ++ post) e ∧
      entriesAt b' (pre ++ mid' ++ post) =
        entriesAt b pre ++ entriesAt b' mid' ++ entriesAt b post := by
  obtain ⟨hpre', hpreE⟩ := hpre.congr hlow
  obtain ⟨hpost', hpostE⟩ := hpost.congr hhigh
  refine ⟨(hpre'.append hmid).append hpost', ?_⟩
  rw [entriesAt_append, entriesAt_append, hpreE, hpostE]

end Chain

/-! ## The loop over a chain -/

/-- The loop of the source over a list of offsets. -/
def scanList {α : Type} (visit : Option Nat → Nat → Except Fault (Option α)) :
    Option Nat → List Nat → Except Fault (Option α)
  | _, [] => .ok none
  | prev, o :: rest =>
    match visit prev o with
    | .error e => .error e
    | .ok (some a) => .ok (some a)
    | .ok none => scanList visit (some o) rest

section Scan

variable {α : Type} {bs o fuel : Nat} {b : Buf} {os : List Nat} {prev : Option Nat} {a : α}
  {visit : Option Nat → Nat → Except Fault (Option α)}

/-- A chain of records leads the loop exactly to the end of the block. -/
theorem scanBlock_eq (h : Chain b o os bs) (hfuel : bs ≤ o + fuel) :
    scanBlock bs b visit prev o fuel = scanList visit prev os := by
  induction fuel generalizing o os prev with
  | zero =>
    cases h with
    | nil => rfl
    | cons hrec htail =>
      have hle := htail.le
      have hroom := hrec.room
      omega
  | succ fuel ih =>
    cases h with
    | nil => rw [scanBlock, if_pos le_rfl, scanList]
    | @cons _ _ os hrec htail =>
      have hle := htail.le
      have hroom := hrec.room
      rw [scanBlock, if_neg (by omega), if_neg (by omega), scanList]
      cases visit prev o with
      | error e => rfl
      | ok result =>
        cases result with
        | some a => rfl
        | none =>
          rw [if_neg (by omega)]
          exact ih htail (by omega)

/-- Where a loop over offsets has found something, everything before was passed over. -/
theorem scanList_eq_some (h : scanList visit prev os = .ok (some a)) :
    ∃ pre o post, os = pre ++ o :: post ∧ visit (pre.getLast?.or prev) o = .ok (some a) := by
  induction os generalizing prev with
  | nil => cases h
  | cons o rest ih =>
    rw [scanList] at h
    cases hvisit : visit prev o with
    | error e => rw [hvisit] at h; cases h
    | ok result =>
      rw [hvisit] at h
      cases result with
      | some a' =>
        cases h
        exact ⟨[], o, rest, rfl, hvisit⟩
      | none =>
        obtain ⟨pre, k, post, rfl, hk⟩ := ih h
        refine ⟨o :: pre, k, post, rfl, ?_⟩
        rw [List.getLast?_cons]
        cases hlast : pre.getLast? with
        | none | some => rwa [hlast] at hk

end Scan

/-! ## Lookup -/

section Lookup

variable {bs o : Nat} {b : Buf} {os : List Nat} {prev : Option Nat} {name : List UInt8}

theorem matchName_eq (hrec : RecordOk b o) (hin : o + deRecLen b o ≤ bs) (prev : Option Nat) :
    matchName bs name b prev o =
      .ok (((entryAt b o).filter fun e => e.1 = name).map Prod.snd) := by
  have hroom := hrec.room
  have hlen : (deName b o (deNameLen b o)).length = deNameLen b o := by simp [deName]
  unfold matchName entryAt
  by_cases hdel : deInode b o = 0
  · simp [hdel]
  by_cases hn : deNameLen b o = name.length
  · have hwild : ¬ bs < o + 8 + name.length := by omega
    by_cases hname : deName b o name.length = name
    · simp [hdel, hn, hwild, hname]
    · simp [hdel, hn, hwild, hname]
  · have hname : deName b o (deNameLen b o) ≠ name := fun heq => hn (hlen.symm.trans (heq ▸ rfl))
    simp [hdel, hn, hname]

/-- On a chain the search for a name is a lookup in its entries. -/
theorem scanList_matchName (h : Chain b o os bs) :
    scanList (matchName bs name b) prev os = .ok ((entriesAt b os).lookup name) := by
  induction os generalizing o prev with
  | nil => rfl
  | cons k rest ih =>
    cases h with
    | cons hrec htail =>
      rw [scanList, matchName_eq hrec htail.le, entriesAt, filterMap_cons]
      cases entryAt b k with
      | none => exact ih htail
      | some entry =>
        obtain ⟨n, ino⟩ := entry
        by_cases hn : n = name
        · subst hn
          simp only [Option.filter, decide_true, if_true, Option.map_some,
            lookup_cons_self]
        · have hbeq : (name == n) = false := by simpa using Ne.symm hn
          simp only [Option.filter, hn, decide_false, Bool.false_eq_true, if_false,
            Option.map_none, lookup_cons, hbeq]
          exact ih htail

end Lookup

/-! ## Writing records -/

section Write

variable {b b' : Buf} {o j len ino type : Nat} {name : List UInt8}

theorem putRecLen_of_not_mem (h : j < o + 4 ∨ o + 6 ≤ j) : putRecLen b o len j = b j :=
  put16_of_not_mem (by omega)

theorem deRecLen_putRecLen (hlen : len < 2 ^ 16) : deRecLen (putRecLen b o len) o = len := by
  rw [deRecLen, putRecLen, u16_of_lt hlen, get16_put16 hlen]

/-- The length of a record has nothing to do with its entry. -/
theorem entryAt_putRecLen : entryAt (putRecLen b o len) o = entryAt b o := by
  have hinode : deInode (putRecLen b o len) o = deInode b o :=
    get32_put16_of_disjoint (by omega)
  have hlen : deNameLen (putRecLen b o len) o = deNameLen b o := by
    rw [deNameLen, deNameLen, putRecLen_of_not_mem (by omega)]
  have hname : Agree b (putRecLen b o len) (o + 8) (o + 8 + deNameLen b o) :=
    fun j hj _ => putRecLen_of_not_mem (by omega)
  rw [entryAt, entryAt, hinode, hlen, deName_congr hname]

theorem putEntry_of_not_mem (h : j < o ∨ o + 8 + name.length ≤ j) :
    putEntry b o ino type name j = b j := by
  unfold putEntry putName
  rw [blit_of_not_mem (by omega), put8_of_ne (by omega), put8_of_ne (by omega),
    put32_of_not_mem (by omega)]

theorem deRecLen_putEntry : deRecLen (putEntry b o ino type name) o = deRecLen b o := by
  refine get16_congr fun k hk => ?_
  unfold putEntry putName
  rw [blit_of_not_mem (by omega), put8_of_ne (by omega), put8_of_ne (by omega),
    put32_of_not_mem (by omega)]

theorem deInode_putEntry (hino : ino < 2 ^ 32) : deInode (putEntry b o ino type name) o = ino := by
  have hback : deInode (putEntry b o ino type name) o = (b.put32 o ino).get32 o := by
    refine get32_congr fun k hk => ?_
    unfold putEntry putName
    rw [blit_of_not_mem (by omega), put8_of_ne (by omega), put8_of_ne (by omega)]
  rw [hback, get32_put32 hino]

theorem deNameLen_putEntry (hname : name.length ≤ 255) :
    deNameLen (putEntry b o ino type name) o = name.length := by
  unfold deNameLen putEntry putName
  rw [blit_of_not_mem (by omega), put8_of_ne (by omega), put8_self,
    UInt8.toNat_ofNat']
  exact mod_eq_of_lt (by omega)

theorem deName_putEntry : deName (putEntry b o ino type name) o name.length = name := by
  refine ext_getElem (by simp [deName]) fun k hk hk' => ?_
  simp only [deName, getElem_map, getElem_range, putEntry, putName]
  rw [blit_of_mem (by omega) (by omega), Nat.add_sub_cancel_left]
  simp [hk']

theorem entryAt_putEntry (hname : name.length ≤ 255) (hino0 : ino ≠ 0) (hino : ino < 2 ^ 32) :
    entryAt (putEntry b o ino type name) o = some (name, ino) := by
  rw [entryAt, deInode_putEntry hino, if_neg hino0, deNameLen_putEntry hname, deName_putEntry]

end Write

/-! ## Adding -/

/-- Small lengths are not changed by the conversion to `int16_t`, nor are differences of
them. -/
theorem s16_sub {x y : Nat} (hyx : y ≤ x) (hx : x < 2 ^ 15) : s16 ((x : Int) - y) = x - y := by
  have hmod : ((x : Int) - y) % 2 ^ 16 = x - y := Int.emod_eq_of_lt (by omega) (by omega)
  rw [s16, hmod, if_pos (by omega)]

theorem s16_of_lt {x : Nat} (hx : x < 2 ^ 15) : s16 x = x := by
  have h := s16_sub (zero_le x) hx
  simpa using h

theorem toNat_sub {x y : Nat} (hyx : y ≤ x) (hx : x < 2 ^ 15) :
    (((x : Int) - y) % 2 ^ 16).toNat = x - y := by
  omega

section Place

variable {b b' : Buf} {bs o ino type : Nat} {prev : Option Nat} {name : List UInt8}

section

variable (hrec : RecordOk b o) (hname : name.length ≤ 255) (hino0 : ino ≠ 0) (hino : ino < 2 ^ 32)
include hrec hname hino0 hino

/-- A record that is overwritten in place. -/
theorem reuse_spec (type : Nat) (hroom : dirRecLen name.length ≤ deRecLen b o) :
    Chain (putEntry b o ino type name) o [o] (o + deRecLen b o) ∧
      entriesAt (putEntry b o ino type name) [o] = [(name, ino)] := by
  have hok : RecordOk (putEntry b o ino type name) o :=
    ⟨by rw [deRecLen_putEntry]; exact hrec.aligned,
      by rwa [deRecLen_putEntry, deNameLen_putEntry hname]⟩
  refine ⟨.cons hok ?_, ?_⟩
  · rw [deRecLen_putEntry]
    exact .nil _
  · simp [entriesAt, entryAt_putEntry hname hino0 hino]

/-- A new record in the slack of a live one. -/
theorem split_spec {m n free : Nat} (hm : dirRecLen (deNameLen b o) = m)
    (hn : o + m = n) (hfree : deRecLen b o = m + free) (hroom : dirRecLen name.length ≤ free)
    (hb' : b' = putRecLen (putEntry (putRecLen b n free) n ino type name) o m) :
    Chain b' o [o, n] (o + deRecLen b o) ∧
      entriesAt b' [o, n] = entriesAt b [o] ++ [(name, ino)] ∧
      ∀ j, j < o ∨ o + deRecLen b o ≤ j → b' j = b j := by
  have hmin := dirRecLen_deNameLen b o
  have hnew := dirRecLen_of_lt (n := name.length) (by omega)
  have halign := hrec.aligned
  have h16 := get16_lt b (o + 4)
  rw [← deRecLen] at h16
  rw [hm] at hmin
  generalize hb₁ : putRecLen b n free = b₁ at hb'
  generalize hb₂ : putEntry b₁ n ino type name = b₂ at hb'
  have hout₁ : ∀ j, j < n + 4 ∨ n + 6 ≤ j → b₁ j = b j := fun j hj =>
    hb₁ ▸ putRecLen_of_not_mem hj
  have hout₂ : ∀ j, j < n ∨ n + 8 + name.length ≤ j → b₂ j = b₁ j := fun j hj =>
    hb₂ ▸ putEntry_of_not_mem hj
  -- the old record keeps everything but its length
  have hold : Agree b b₂ o n := fun j _ hj => by rw [hout₂ j (.inl hj), hout₁ j (.inl (by omega))]
  have hlenO : deRecLen b' o = m := by rw [hb', deRecLen_putRecLen (by omega)]
  have hnameO : deNameLen b' o = deNameLen b o := by
    rw [hb', deNameLen, putRecLen_of_not_mem (by omega), ← deNameLen]
    exact deNameLen_congr (hold.mono le_rfl (by omega))
  have hentryO : entryAt b' o = entryAt b o := by
    rw [hb', entryAt_putRecLen, entryAt_congr (hold.mono le_rfl (by omega))]
  -- the new one is not touched by the last write
  have hnewb : Agree b₂ b' n (n + 8 + name.length) := fun j hj _ => by
    rw [hb', putRecLen_of_not_mem (by omega)]
  have hheadN : Agree b₂ b' n (n + 8) := hnewb.mono le_rfl (by omega)
  have hlenN : deRecLen b' n = free := by
    rw [deRecLen_congr hheadN, ← hb₂, deRecLen_putEntry, ← hb₁, deRecLen_putRecLen (by omega)]
  have hnameN : deNameLen b' n = name.length := by
    rw [deNameLen_congr hheadN, ← hb₂, deNameLen_putEntry hname]
  have hentryN : entryAt b' n = some (name, ino) := by
    rw [entryAt, deInode_congr hheadN, hnameN, deName_congr (hnewb.mono (by omega) le_rfl), ← hb₂,
      deInode_putEntry hino, if_neg hino0, deName_putEntry]
  have hokO : RecordOk b' o := ⟨by rw [hlenO]; omega, by rw [hlenO, hnameO, hm]⟩
  have hokN : RecordOk b' n := ⟨by rw [hlenN]; omega, by rw [hlenN, hnameN]; exact hroom⟩
  refine ⟨.cons hokO ?_, ?_, fun j hj => ?_⟩
  · rw [hlenO, hn]
    refine .cons hokN ?_
    have hend : n + deRecLen b' n = o + deRecLen b o := by omega
    rw [hend]
    exact .nil _
  · simp [entriesAt, filterMap_cons, hentryO, hentryN]
    cases entryAt b o <;> rfl
  · rw [hb', putRecLen_of_not_mem (by omega), hout₂ j (by omega), hout₁ j (by omega)]

/-- What `ext2_dir_add_entry` does to the record it chooses. -/
theorem placeEntry_spec (hin : o + deRecLen b o ≤ bs) (hbs : bs ≤ 4096)
    (h : placeEntry bs ino type name b prev o = .ok (some b')) :
    ∃ mid, Chain b' o mid (o + deRecLen b o) ∧
      entriesAt b' mid = entriesAt b [o] ++ [(name, ino)] ∧
      ∀ j, j < o ∨ o + deRecLen b o ≤ j → b' j = b j := by
  have hfits := hrec.fits
  have hnew := dirRecLen_of_lt (n := name.length) (by omega)
  unfold placeEntry at h
  dsimp only at h
  split at h
  · next hdel =>
    split at h
    · next hroom =>
      split at h
      · cases h
      · cases h
        obtain ⟨hchain, hentries⟩ := reuse_spec hrec hname hino0 hino type hroom
        refine ⟨[o], hchain, ?_, fun j hj => putEntry_of_not_mem ?_⟩
        · rw [hentries]
          simp [entriesAt, entryAt, hdel]
        · omega
    · cases h
  · have hlt : deRecLen b o < 2 ^ 15 := by omega
    rw [s16_of_lt hlt, s16_sub hfits hlt, s16_of_lt (by omega), toNat_sub hfits hlt] at h
    generalize hm : dirRecLen (deNameLen b o) = m at *
    split at h
    · next hroom =>
      split at h
      · cases h
      · cases h
        exact ⟨_, split_spec hrec hname hino0 hino hm rfl (by omega) (by omega) rfl⟩
    · cases h

end

end Place

/-! ## Removing -/

section Remove

variable {b b' : Buf} {bs o s n ino : Nat} {pre post : List Nat}

/-- A record is marked deleted. -/
theorem delete_spec (h : Chain b 0 (pre ++ o :: post) bs) :
    let b₁ := (b.put32 o 0).put8 (o + 6) 0
    Chain b₁ 0 (pre ++ o :: post) bs ∧ deInode b₁ o = 0 ∧ deRecLen b₁ o = deRecLen b o ∧
      entriesAt b₁ (pre ++ o :: post) = entriesAt b pre ++ entriesAt b post := by
  intro b₁
  obtain ⟨hpre, hrec, hpost⟩ := h.at
  have hroom := hrec.room
  have hout : ∀ j, j < o ∨ (o + 4 ≤ j ∧ j ≠ o + 6) → b₁ j = b j := fun j hj => by
    simp only [b₁]
    rw [put8_of_ne (by omega), put32_of_not_mem (by omega)]
  have hlen : deRecLen b₁ o = deRecLen b o := get16_congr fun k hk => hout _ (by omega)
  have hname : deNameLen b₁ o = 0 := by
    simp only [b₁, deNameLen, put8_self]
    rfl
  have hinode : deInode b₁ o = 0 := by
    have hback : deInode b₁ o = (b.put32 o 0).get32 o :=
      get32_congr fun k hk => put8_of_ne (by omega)
    rw [hback, get32_put32 (by decide)]
  have hok : RecordOk b₁ o := ⟨by rw [hlen]; exact hrec.aligned, by
    rw [hlen, hname]
    exact (by decide : dirRecLen 0 ≤ 8).trans (by omega)⟩
  have hmid : Chain b₁ o [o] (o + deRecLen b o) := .cons hok (hlen ▸ .nil _)
  obtain ⟨hchain, hentries⟩ := hpre.replace hmid hpost (fun j _ hj => hout j (.inl hj))
    fun j hj _ => hout j (.inr (by omega))
  rw [append_assoc] at hchain hentries
  refine ⟨hchain, hinode, hlen, ?_⟩
  have hnone : entriesAt b₁ [o] = [] := by simp [entriesAt, entryAt, hinode]
  rw [singleton_append] at hentries
  rw [hentries, hnone, append_nil]

/-- A deleted record is merged into the one before it. -/
theorem merge_spec (h : Chain b 0 (pre ++ s :: n :: post) bs) (hbs : bs < 2 ^ 16)
    (hdel : deInode b n = 0) :
    let b' := putRecLen b s (deRecLen b s + deRecLen b n)
    Chain b' 0 (pre ++ s :: post) bs ∧
      entriesAt b' (pre ++ s :: post) = entriesAt b (pre ++ s :: n :: post) := by
  intro b'
  obtain ⟨hpre, hrec, hrest⟩ := h.at
  cases hrest with
  | cons hrecN hpost =>
    have hle := hpost.le
    have hroom := hrec.room
    have halign := hrec.aligned
    have halignN := hrecN.aligned
    have hout : ∀ j, j < s + 4 ∨ s + 6 ≤ j → b' j = b j := fun j hj => putRecLen_of_not_mem hj
    have hlen : deRecLen b' s = deRecLen b s + deRecLen b (s + deRecLen b s) :=
      deRecLen_putRecLen (by omega)
    have hname : deNameLen b' s = deNameLen b s := by
      rw [deNameLen, deNameLen, hout _ (by omega)]
    have hok : RecordOk b' s := ⟨by rw [hlen]; omega, by
      rw [hlen, hname]
      exact hrec.fits.trans (le_add_right _ _)⟩
    have hmid : Chain b' s [s] (s + deRecLen b s + deRecLen b (s + deRecLen b s)) := by
      refine .cons hok ?_
      rw [hlen, ← add_assoc]
      exact .nil _
    obtain ⟨hchain, hentries⟩ := hpre.replace hmid hpost (fun j _ hj => hout j (by omega))
      fun j hj _ => hout j (by omega)
    rw [append_assoc, singleton_append] at hchain hentries
    refine ⟨hchain, hentries.trans ?_⟩
    have hnone : entryAt b (s + deRecLen b s) = none := by simp [entryAt, hdel]
    rw [entriesAt_append]
    simp only [entriesAt, filterMap_cons, filterMap_nil, hnone]
    rw [entryAt_putRecLen]
    cases entryAt b s <;> simp

/-- What `ext2_dir_remove_entry` does to the block where it finds the record. -/
theorem dropEntry_spec (h : Chain b 0 (pre ++ o :: post) bs) (hbs : bs < 2 ^ 16)
    (hres : dropEntry bs ino b pre.getLast? o = .ok (some b')) :
    deInode b o = ino ∧ ∃ os, Chain b' 0 os bs ∧
      entriesAt b' os = entriesAt b pre ++ entriesAt b post := by
  unfold dropEntry at hres
  by_cases hino : deInode b o = ino
  swap
  · rw [if_neg hino] at hres
    cases hres
  refine ⟨hino, ?_⟩
  rw [if_pos hino] at hres
  dsimp only at hres
  obtain ⟨hchain, hdel, hlen, hentries⟩ := delete_spec h
  generalize (b.put32 o 0).put8 (o + 6) 0 = b₁ at *
  -- after the first merge the block is a chain again, with the keeper before what follows
  obtain ⟨front, hchain₂, hentries₂⟩ : ∃ front,
      Chain (if pre.getLast?.isSome then putRecLen b₁ (pre.getLast?.getD o)
        (deRecLen b₁ (pre.getLast?.getD o) + deRecLen b₁ o) else b₁) 0
        (front ++ pre.getLast?.getD o :: post) bs ∧
      entriesAt (if pre.getLast?.isSome then putRecLen b₁ (pre.getLast?.getD o)
        (deRecLen b₁ (pre.getLast?.getD o) + deRecLen b₁ o) else b₁)
        (front ++ pre.getLast?.getD o :: post) = entriesAt b pre ++ entriesAt b post := by
    rcases eq_nil_or_concat' pre with rfl | ⟨front, p, rfl⟩
    · exact ⟨[], hchain, hentries⟩
    · rw [List.getLast?_concat]
      rw [append_assoc, singleton_append] at hchain
      obtain ⟨hmerged, hsame⟩ := merge_spec hchain hbs hdel
      refine ⟨front, hmerged, hsame.trans ?_⟩
      rw [← hentries, append_assoc, singleton_append]
  generalize (if pre.getLast?.isSome then putRecLen b₁ (pre.getLast?.getD o)
    (deRecLen b₁ (pre.getLast?.getD o) + deRecLen b₁ o) else b₁) = b₂ at *
  rw [hlen] at hres
  obtain ⟨-, -, hpost⟩ := h.at
  split at hres
  · next hnext =>
    split at hres
    · cases hres
    · cases hpost with
      | nil => exact absurd hnext (lt_irrefl _)
      | @cons _ _ rest hrecN hrest =>
        split at hres
        · next hdelN =>
          cases hres
          obtain ⟨hmerged, hsame⟩ := merge_spec hchain₂ hbs hdelN
          exact ⟨_, hmerged, hsame.trans hentries₂⟩
        · cases hres
          exact ⟨_, hchain₂, hentries₂⟩
  · cases hres
    exact ⟨_, hchain₂, hentries₂⟩

end Remove

end Osx64.Ext2
