import Mathlib.Algebra.Order.BigOperators.Group.List
import Mathlib.Algebra.Order.Group.Nat
import Mathlib.Data.List.GetD
import Osx64.Mm.Page

/-!
# The arguments of a new program

`sys_execv` copies its arguments to the page `temp`, which becomes the last page of the user: the
strings one below the other from the end of the page, and the array of pointers below them.  The
room for the strings is `(len + 7) & 0xfff`.  This looks like a rounding and is a remainder, so the
array is aligned only by chance, and strings of more than a page may get hardly any room.  All
addresses are relative to `temp` here.
-/

namespace Osx64.Task

open List Option Nat Int

/-- A string of the caller, without the NUL behind it. -/
abbrev CString := { s : List UInt8 // 0 ∉ s }

/-- `VIRTUAL_ADDR_USER_HIGHEST` -/
def userHighest : Nat := 0x800000000000

/-! ## The code -/

/-- The first loop, with `i` and `len`.  `strlen` counts in a `uint32_t` and never returns for a
longer string, and `i` is an `int`. -/
def countArgs : List CString → Nat → Nat → Option (Nat × Nat)
  | [], i, len => some (i, len)
  | s :: argv, i, len =>
    if s.1.length < 2 ^ 32 ∧ i + 1 < 2 ^ 31 then
      countArgs argv (i + 1) (u32 (len + (s.1.length + 1)))
    else none

inductive SizeCheck where
  | refused
  | passed (i len : Nat)

def checkSize (argv : List CString) : Option SizeCheck :=
  (countArgs argv 0 0).map fun r =>
    if 31 < r.1 ∨ 3072 ≤ (r.2 + 7) % 0x1000 + 8 * r.1 then .refused
    else .passed r.1 ((r.2 + 7) % 0x1000)

/-- `sys_execv`; `go` is what it does behind the check. -/
def sysExecv {σ : Type} (go : Nat → Nat → σ → Int × σ) (argv : List CString) (st : σ) :
    Option (Int × σ) :=
  (checkSize argv).map fun
    | .refused => (-5, st)
    | .passed i len => go i len st

/-- The bytes at `a` and behind it are written. -/
def store (mem : Int → UInt8) (a : Int) (bytes : List UInt8) (x : Int) : UInt8 :=
  if a ≤ x then bytes.getD (x - a).toNat (mem x) else mem x

def wordBytes (v : Nat) : List UInt8 := (List.range 8).map fun j => UInt8.ofNat (v / 256 ^ j)

/-- `pos - temp + (VIRTUAL_ADDR_USER_HIGHEST - 4096)` -/
def userAddr (pos : Int) : Nat := ((pos + (userHighest - 4096 : Nat)) % 2 ^ 64).toNat

def newArgvOf (i len : Nat) : Int := 4096 - len - 8 * i - 8

/-- `pos` after `pos -= len`; `len` is an `int`. -/
def below (pos : Int) (s : CString) : Int := pos - bmod (s.1.length + 1 : Nat) (2 ^ 32)

/-- The second loop, and the pointer behind the last one. -/
def copyArgs (newArgv : Int) : List CString → Int → Nat → (Int → UInt8) → Int → UInt8
  | [], _, i, mem => store mem (newArgv + 8 * i) (wordBytes 0)
  | s :: argv, pos, i, mem =>
    copyArgs newArgv argv (below pos s) (i + 1)
      (store (store mem (below pos s) ((s.1 ++ [0]).take (u32 (s.1.length + 1))))
        (newArgv + 8 * i) (wordBytes (userAddr (below pos s))))

/-- Where the second loop puts the string `k`. -/
def posAt : List CString → Int → Nat → Int
  | [], pos, _ => pos
  | s :: _, pos, 0 => below pos s
  | s :: argv, pos, k + 1 => posAt argv (below pos s) k

/-! ## The property -/

def Holds (mem : Int → UInt8) (a : Int) (bytes : List UInt8) : Prop :=
  ∀ j (hj : j < bytes.length), mem (a + j) = bytes[j]

/-- The page has all the strings and the array of pointers to them. -/
structure Laid (argv : List CString) (newArgv : Int) (pos : Nat → Int)
    (mem : Int → UInt8) : Prop where
  inside : ∀ k (hk : k < argv.length), 0 ≤ pos k ∧ pos k + (argv[k].1.length + 1) ≤ 4096
  array : 0 ≤ newArgv ∧ newArgv + 8 * (argv.length + 1) ≤ 4096
  apart : ∀ j k (hj : j < k) (hk : k < argv.length),
    pos k + (argv[k].1.length + 1) ≤ pos j ∨ pos j + (argv[j].1.length + 1) ≤ pos k
  clear : ∀ k (hk : k < argv.length),
    newArgv + 8 * (argv.length + 1) ≤ pos k ∨ pos k + (argv[k].1.length + 1) ≤ newArgv
  aligned : newArgv % 8 = 0
  copies : ∀ k (hk : k < argv.length), Holds mem (pos k) (argv[k].1 ++ [0])
  pointers : ∀ k < argv.length, Holds mem (newArgv + 8 * k) (wordBytes (userAddr (pos k)))
  null : Holds mem (newArgv + 8 * argv.length) (wordBytes 0)

/-- Either the call returns -5 and nothing has happened, or the arguments are laid out in the page,
whatever the page held before. -/
def LaysOut (argv : List CString) : Prop :=
  (∀ (σ : Type) (go : Nat → Nat → σ → Int × σ) (st : σ), sysExecv go argv st = some (-5, st)) ∨
    ∃ i len, checkSize argv = some (.passed i len) ∧
      ∀ old, Laid argv (newArgvOf i len) (posAt argv 4096)
        (copyArgs (newArgvOf i len) argv 4096 0 old)

/-! ## The check -/

section Check

variable {argv : List CString}

/-- All strings with their NULs. -/
def total (argv : List CString) : Nat := (argv.map fun s => s.1.length + 1).sum

theorem total_cons (s : CString) (argv : List CString) :
    total (s :: argv) = s.1.length + 1 + total argv := sum_cons

/-- The strings can be counted. -/
def Countable (argv : List CString) : Prop :=
  (∀ s ∈ argv, s.1.length < 2 ^ 32) ∧ argv.length < 2 ^ 31

def Refused (argv : List CString) : Prop :=
  31 < argv.length ∨ 3072 ≤ (total argv + 7) % 0x1000 + 8 * argv.length

theorem countArgs_of_countable {i len : Nat} (hstrings : ∀ s ∈ argv, s.1.length < 2 ^ 32)
    (hi : i + argv.length < 2 ^ 31) (hlen : len < 2 ^ 32) :
    countArgs argv i len = some (i + argv.length, u32 (len + total argv)) := by
  induction argv generalizing i len with
  | nil => rw [countArgs, total, map_nil, sum_nil, add_zero, u32_of_lt hlen, length_nil,
    add_zero]
  | cons s argv ih =>
    rw [length_cons] at hi
    rw [countArgs, if_pos ⟨hstrings s mem_cons_self, by omega⟩,
      ih (fun t ht => hstrings t (mem_cons_of_mem _ ht)) (by omega) (u32_lt _),
        total_cons, length_cons]
    congr 2
    · omega
    · unfold u32
      omega

theorem countable_of_countArgs {i len : Nat} {r : Nat × Nat} (hi : i < 2 ^ 31)
    (hcount : countArgs argv i len = some r) :
    (∀ s ∈ argv, s.1.length < 2 ^ 32) ∧ i + argv.length < 2 ^ 31 := by
  induction argv generalizing i len with
  | nil => exact ⟨nofun, hi⟩
  | cons s argv ih =>
    rw [countArgs] at hcount
    split at hcount
    · next hs =>
      obtain ⟨hstrings, hlength⟩ := ih hs.2 hcount
      refine ⟨fun t ht => ?_, by rw [length_cons]; omega⟩
      rcases mem_cons.mp ht with rfl | ht
      · exact hs.1
      · exact hstrings t ht
    · cases hcount

theorem countable_of_checkSize {r : SizeCheck} (hcheck : checkSize argv = some r) :
    Countable argv := by
  obtain ⟨_, hcount, -⟩ := map_eq_some_iff.mp hcheck
  have hboth := countable_of_countArgs (by decide) hcount
  rwa [zero_add] at hboth

theorem checkSize_of_countable [Decidable (Refused argv)] (h : Countable argv) : checkSize argv =
    some (if Refused argv then .refused else .passed argv.length ((total argv + 7) % 0x1000)) := by
  have hlen : (u32 (0 + total argv) + 7) % 0x1000 = (total argv + 7) % 0x1000 := by
    unfold u32
    omega
  rw [checkSize, countArgs_of_countable h.1 (by rw [zero_add]; exact h.2) (by decide),
    map_some, hlen, zero_add]
  by_cases hrefused : Refused argv
  · rw [if_pos hrefused]
    exact congrArg some (if_pos hrefused)
  · rw [if_neg hrefused]
    exact congrArg some (if_neg hrefused)

end Check

/-! ## The page -/

section Page

variable {argv : List CString} {mem : Int → UInt8} {a pos : Int} {bytes : List UInt8} {i k : Nat}

theorem store_of_lt {x : Int} (hx : x < a) : store mem a bytes x = mem x := if_neg (by omega)

theorem store_of_ge {x : Int} (hx : a + bytes.length ≤ x) : store mem a bytes x = mem x := by
  unfold store
  split
  · rw [getD_eq_default]
    omega
  · rfl

theorem holds_store : Holds (store mem a bytes) a bytes := by
  intro j hj
  have hindex : (a + j - a).toNat = j := by omega
  rw [store, if_pos (by omega), hindex, getD_eq_getElem _ _ hj]

theorem Holds.congr {mem' : Int → UInt8} (h : Holds mem a bytes)
    (heq : ∀ x, a ≤ x → x < a + bytes.length → mem' x = mem x) : Holds mem' a bytes := by
  intro j hj
  rw [heq (a + j) (by omega) (by omega)]
  exact h j hj

theorem length_wordBytes (v : Nat) : (wordBytes v).length = 8 := by simp [wordBytes]

/-- No string is so long that its length is negative as an `int`. -/
def Short (argv : List CString) : Prop := ∀ s ∈ argv, s.1.length + 1 < 2 ^ 31

theorem Short.tail {s : CString} (h : Short (s :: argv)) : Short argv :=
  fun t ht => h t (mem_cons_of_mem _ ht)

theorem Short.below {s : CString} (h : Short (s :: argv)) (pos : Int) :
    below pos s = pos - (s.1.length + 1) := by
  have hs := h s mem_cons_self
  rw [Task.below, bmod_eq_of_le (by omega) (by omega)]
  omega

section

variable (h : Short argv)
include h

theorem posAt_bounds (hk : k < argv.length) :
    pos - total argv ≤ posAt argv pos k ∧ posAt argv pos k + (argv[k].1.length + 1) ≤ pos := by
  induction argv generalizing pos k with
  | nil => cases hk
  | cons s argv ih =>
    rw [total_cons]
    cases k with
    | zero =>
      rw [posAt, h.below, getElem_cons_zero]
      omega
    | succ k =>
      have hrest := @ih (below pos s) k h.tail (lt_of_succ_lt_succ hk)
      rw [posAt, getElem_cons_succ]
      rw [h.below] at hrest ⊢
      omega

theorem posAt_lower {j : Nat} (hj : j < k) (hk : k < argv.length) :
    posAt argv pos k + (argv[k].1.length + 1) ≤ posAt argv pos j := by
  induction argv generalizing pos j k with
  | nil => cases hk
  | cons s argv ih =>
    cases k with
    | zero => cases hj
    | succ k =>
      have hk := lt_of_succ_lt_succ hk
      cases j with
      | zero => exact (posAt_bounds h.tail hk).2
      | succ j => exact ih h.tail (lt_of_succ_lt_succ hj) hk

/-- The last string ends the strings below. -/
theorem exists_posAt_eq (hne : argv ≠ []) :
    ∃ k < argv.length, posAt argv pos k = pos - total argv := by
  induction argv generalizing pos with
  | nil => exact absurd rfl hne
  | cons s argv ih =>
    rw [total_cons]
    by_cases hrest : argv = []
    · subst hrest
      exact ⟨0, by simp, by rw [posAt, h.below, total, map_nil, sum_nil]; omega⟩
    · obtain ⟨k, hk, hpos⟩ := @ih (below pos s) h.tail hrest
      refine ⟨k + 1, succ_lt_succ hk, ?_⟩
      rw [posAt, hpos, h.below]
      omega

/-- What the second loop leaves, if the array is below the strings. -/
theorem copyArgs_spec (hroom : a + 8 * (i + argv.length + 1) ≤ pos - total argv) :
    (∀ k (hk : k < argv.length),
      Holds (copyArgs a argv pos i mem) (posAt argv pos k) (argv[k].1 ++ [0]) ∧
      Holds (copyArgs a argv pos i mem) (a + 8 * (i + k))
      (wordBytes (userAddr (posAt argv pos k)))) ∧
    Holds (copyArgs a argv pos i mem) (a + 8 * (i + argv.length)) (wordBytes 0) ∧
    ∀ x, x < a + 8 * i ∨ pos ≤ x → copyArgs a argv pos i mem x = mem x := by
  induction argv generalizing pos i mem with
  | nil =>
    rw [total, map_nil, sum_nil, length_nil] at hroom
    refine ⟨fun k hk => absurd hk (not_lt_zero k), ?_, fun x hx => ?_⟩
    · rw [length_nil, Int.natCast_zero, add_zero]
      exact holds_store
    · rw [copyArgs]
      rcases hx with hx | hx
      · exact store_of_lt hx
      · exact store_of_ge (by rw [length_wordBytes]; omega)
  | cons s argv ih =>
    rw [total_cons, length_cons] at hroom
    have hs := h s mem_cons_self
    have hlow := h.below pos
    have htake : (s.1 ++ [0]).take (u32 (s.1.length + 1)) = s.1 ++ [0] := by
      rw [u32_of_lt (by omega), take_of_length_le (by simp)]
    have hsize : (s.1 ++ [0]).length = s.1.length + 1 := by simp
    have hword := length_wordBytes (userAddr (below pos s))
    rw [copyArgs, htake]
    generalize hmem₁ : store (store mem (below pos s) (s.1 ++ [0])) (a + 8 * i)
      (wordBytes (userAddr (below pos s))) = mem₁
    obtain ⟨hcopies, hnull, hframe⟩ := @ih mem₁ (below pos s) (i + 1) h.tail
      (by rw [hlow]; push_cast; omega)
    refine ⟨fun k hk => ?_, ?_, fun x hx => ?_⟩
    · cases k with
      | zero =>
        -- the rest of the loop writes below the string and behind the pointer
        refine ⟨@Holds.congr mem₁ _ _ _ ?_ fun x hx _ => hframe x (.inr hx),
          @Holds.congr mem₁ _ _ _ ?_ fun x _ hx => hframe x (.inl ?_)⟩
        · rw [← hmem₁]
          exact holds_store.congr fun x hx _ => store_of_ge (by rw [hword]; rw [posAt] at hx; omega)
        · rw [← hmem₁, Int.natCast_zero, add_zero]
          exact holds_store
        · rw [length_wordBytes] at hx
          push_cast at hx ⊢
          omega
      | succ k =>
        obtain ⟨hcopy, hpointer⟩ := hcopies k (lt_of_succ_lt_succ hk)
        refine ⟨hcopy, ?_⟩
        have hindex : a + 8 * ((i : Int) + (k + 1 : Nat)) =
            a + 8 * (((i + 1 : Nat) : Int) + k) := by
          omega
        rw [hindex]
        exact hpointer
    · have hindex : a + 8 * ((i : Int) + (s :: argv).length)
          = a + 8 * (((i + 1 : Nat) : Int) + argv.length) := by
        rw [length_cons]
        omega
      rw [hindex]
      exact hnull
    · rw [hframe x (by push_cast; omega), ← hmem₁]
      rcases hx with hx | hx
      · rw [store_of_lt hx, store_of_lt (by omega)]
      · rw [store_of_ge (by rw [hword]; omega), store_of_ge (by rw [hsize]; push_cast; omega)]

end

end Page

/-! ## When the arguments are laid out -/

section LaysOut

variable {argv : List CString}

theorem laid_of_total {old : Int → UInt8} (hpassed : ¬Refused argv) (htotal : total argv ≤ 4088)
    (hmod : total argv % 8 = 1) :
    Laid argv (newArgvOf argv.length ((total argv + 7) % 0x1000)) (posAt argv 4096)
      (copyArgs (newArgvOf argv.length ((total argv + 7) % 0x1000)) argv 4096 0 old) := by
  have hshort : Short argv := by
    intro s hs
    have hle : s.1.length + 1 ≤ total argv := le_sum_of_mem (mem_map_of_mem hs)
    omega
  have hlen : (total argv + 7) % 0x1000 = total argv + 7 := mod_eq_of_lt (by omega)
  simp only [Refused, hlen, not_or, not_lt, not_le] at hpassed
  rw [hlen]
  obtain ⟨hcopies, hnull, -⟩ := @copyArgs_spec argv old (newArgvOf argv.length (total argv + 7))
    4096 0 hshort (by unfold newArgvOf; push_cast; omega)
  have hbounds := fun k (hk : k < argv.length) => @posAt_bounds argv 4096 k hshort hk
  rw [Int.natCast_zero] at hnull hcopies
  simp only [zero_add] at hnull hcopies
  refine ⟨fun k hk => ?_, ?_, fun j k hj hk => .inl (posAt_lower hshort hj hk),
    fun k hk => .inl ?_, ?_, fun k hk => (hcopies k hk).1, fun k hk => (hcopies k hk).2, hnull⟩
  · have := hbounds k hk
    omega
  · unfold newArgvOf
    omega
  · have := hbounds k hk
    unfold newArgvOf
    omega
  · unfold newArgvOf
    omega

theorem total_of_laid {mem : Int → UInt8}
    (h : Laid argv (newArgvOf argv.length ((total argv + 7) % 0x1000)) (posAt argv 4096) mem) :
    total argv ≤ 4088 ∧ total argv % 8 = 1 := by
  have hmod : total argv % 8 = 1 := by
    have haligned := h.aligned
    unfold newArgvOf at haligned
    omega
  have hshort : Short argv := by
    intro s hs
    obtain ⟨k, hk, rfl⟩ := mem_iff_getElem.mp hs
    have := h.inside k hk
    omega
  have hne : argv ≠ [] := by
    rintro rfl
    cases hmod
  obtain ⟨k, hk, hpos⟩ := @exists_posAt_eq argv 4096 hshort hne
  have hlast := (h.inside k hk).1
  -- with 4089 bytes there is no room between the array and the end of the page, where a string is
  have hpos₀ : 0 < argv.length := by omega
  have hclear := h.clear 0 hpos₀
  have hfirst : posAt argv 4096 0 + (argv[0].1.length + 1) = 4096 := by
    cases argv with
    | nil => cases hpos₀
    | cons s rest =>
      rw [posAt, hshort.below, getElem_cons_zero]
      omega
  unfold newArgvOf at hclear
  omega

/-- The arguments are laid out as they should be if and only if their strings can be counted, and
they are refused or have one byte more than a multiple of eight and leave room for the array. -/
theorem laysOut_iff (argv : List CString) :
    LaysOut argv ↔ Countable argv ∧ (Refused argv ∨ total argv ≤ 4088 ∧ total argv % 8 = 1) := by
  classical
  constructor
  · rintro (hrefused | ⟨i, len, hcheck, hlaid⟩)
    · have hnone := hrefused Unit (fun _ _ st => (0, st)) ()
      obtain ⟨r, hcheck, hr⟩ := map_eq_some_iff.mp hnone
      have hcountable := countable_of_checkSize hcheck
      refine ⟨hcountable, .inl ?_⟩
      rw [checkSize_of_countable hcountable] at hcheck
      by_contra hpassed
      rw [if_neg hpassed] at hcheck
      cases hcheck
      cases hr
    · have hcountable := countable_of_checkSize hcheck
      refine ⟨hcountable, .inr ?_⟩
      rw [checkSize_of_countable hcountable] at hcheck
      split at hcheck
      · cases hcheck
      · cases hcheck
        exact total_of_laid (hlaid fun _ => 0)
  · rintro ⟨hcountable, hcases⟩
    have hcheck := checkSize_of_countable hcountable
    by_cases hrefused : Refused argv
    · rw [if_pos hrefused] at hcheck
      exact .inl fun σ go st => by rw [sysExecv, hcheck, map_some]
    · obtain ⟨htotal, hmod⟩ := hcases.resolve_left hrefused
      rw [if_neg hrefused] at hcheck
      exact .inr ⟨_, _, hcheck, fun old => laid_of_total hrefused htotal hmod⟩

/-- Without arguments the array is at `temp + 4081`. -/
theorem not_laysOut_nil : ¬LaysOut [] := by
  rintro (hrefused | ⟨i, len, hcheck, hlaid⟩)
  · cases hrefused Unit (fun _ _ st => (0, st)) ()
  · cases hcheck
    cases (hlaid fun _ => 0).aligned

end LaysOut

end Osx64.Task
