import Mathlib.Data.List.Induction
import Mathlib.Data.List.Shortlex
import Osx64.Lib.Bytes

/-!
# Block devices

`block.c` names the disks it registers `sda`, `sdb`, … , `sdz`, `sdaa`, and so on.
The letters are the bijective base-26 numeral of the disk's index plus one: there
is no digit zero, `a` counts one and `z` counts twenty-six.  `diskIndexToName`
produces them from the last letter to the first and turns them round.

`lettersValue` reads a string of letters back.  It is a left inverse
(`lettersValue_diskLetters`) and a right inverse (`diskLetters_lettersValue`) of the
loop up to the offset of one, which makes the naming a bijection.  That the names
come in the order of the indices follows the loop too: two indices either agree in
all but the last letter or already differ in what is left of them.
-/

namespace Osx64.Fs

open Nat List

/-! ## Names of disks -/

/-- `'a' + d` -/
def letter (d : Nat) : UInt8 := UInt8.ofNat (97 + d)

/-- The loop of `disk_index_to_name` that fills `tmp`. -/
def nameLoop (tmp : List UInt8) (index : Nat) : List UInt8 :=
  let tmp := tmp ++ [letter (index % 26)]
  if index / 26 = 0 then tmp
  else nameLoop tmp (index / 26 - 1)
termination_by index
decreasing_by omega

/-- The letters of a name: `tmp`, copied from its end. -/
def diskLetters (index : Nat) : List UInt8 := (nameLoop [] index).reverse

/-- The characters `disk_index_to_name` stores at `buf`. -/
def diskIndexToName (index : Nat) : List UInt8 := diskLetters index ++ [0]

/-- A character from `a` to `z`. -/
def IsLetter (c : UInt8) : Prop := 97 ≤ c.toNat ∧ c.toNat ≤ 122

/-- The bijective base-26 value of a string, with `a` for 1 and `z` for 26. -/
def lettersValue (name : List UInt8) : Nat := name.foldl (fun v c => 26 * v + (c.toNat - 96)) 0

theorem letter_toNat {d : Nat} (hd : d < 26) : (letter d).toNat = 97 + d := by
  rw [letter, UInt8.toNat_ofNat']
  omega

theorem nameLoop_eq (tmp : List UInt8) (index : Nat) :
    nameLoop tmp index = tmp ++ nameLoop [] index := by
  induction index using Nat.strongRecOn generalizing tmp with
  | ind index ih =>
    rw [nameLoop, nameLoop.eq_1 []]
    by_cases hlast : index / 26 = 0
    · simp [hlast]
    · simp only [hlast, if_false, nil_append]
      rw [ih _ (by omega), ih _ (by omega) [_], append_assoc]

/-- A name is the name of what is left of the index, followed by one more letter. -/
theorem diskLetters_eq (index : Nat) :
    diskLetters index =
      (if index / 26 = 0 then [] else diskLetters (index / 26 - 1)) ++ [letter (index % 26)] := by
  rw [diskLetters, nameLoop]
  by_cases hlast : index / 26 = 0
  · simp [hlast]
  · simp only [hlast, if_false, nil_append]
    rw [nameLoop_eq, reverse_append, diskLetters]
    rfl

theorem lettersValue_concat (name : List UInt8) (c : UInt8) :
    lettersValue (name ++ [c]) = 26 * lettersValue name + (c.toNat - 96) := by
  simp [lettersValue]

theorem isLetter_diskLetters (index : Nat) : ∀ c ∈ diskLetters index, IsLetter c := by
  induction index using Nat.strongRecOn with
  | ind index ih =>
    intro c hc
    rw [diskLetters_eq, mem_append, mem_singleton] at hc
    rcases hc with hc | rfl
    · split at hc
      · simp at hc
      · exact ih _ (by omega) c hc
    · have hd := letter_toNat (mod_lt index (by decide : 0 < 26))
      have hlt := mod_lt index (by decide : 0 < 26)
      constructor <;> omega

theorem lettersValue_diskLetters (index : Nat) : lettersValue (diskLetters index) = index + 1 := by
  induction index using Nat.strongRecOn with
  | ind index ih =>
    rw [diskLetters_eq, lettersValue_concat, letter_toNat (mod_lt _ (by decide))]
    split
    · simp only [lettersValue, foldl_nil]
      omega
    · rw [ih _ (by omega)]
      omega

theorem diskLetters_lettersValue {name : List UInt8} (hname : name ≠ [])
    (hletters : ∀ c ∈ name, IsLetter c) : diskLetters (lettersValue name - 1) = name := by
  induction name using reverseRecOn with
  | nil => exact absurd rfl hname
  | append_singleton front c ih =>
    obtain ⟨hlow, hhigh⟩ := hletters c (by simp)
    have hfront : ∀ c ∈ front, IsLetter c := fun c hc => hletters c (by simp [hc])
    -- the last letter counts from 1 to 26, so it and the front are recovered by division
    have hmod : (lettersValue (front ++ [c]) - 1) % 26 = c.toNat - 97 := by
      rw [lettersValue_concat]
      omega
    have hdiv : (lettersValue (front ++ [c]) - 1) / 26 = lettersValue front := by
      rw [lettersValue_concat]
      omega
    have hc : letter (c.toNat - 97) = c := by
      apply UInt8.toNat.inj
      rw [letter_toNat (by omega)]
      omega
    rw [diskLetters_eq, hmod, hdiv, hc]
    by_cases hempty : front = []
    · simp [hempty, lettersValue]
    · have hih := ih hempty hfront
      have hpos := lettersValue_diskLetters (lettersValue front - 1)
      rw [hih] at hpos
      rw [if_neg (by omega), hih]

/-- How many indices have a name of at most `n` letters. -/
def namesWithin : Nat → Nat
  | 0 => 0
  | n + 1 => 26 * (namesWithin n + 1)

theorem length_diskLetters_le {n index : Nat} (h : index < namesWithin n) :
    (diskLetters index).length ≤ n := by
  induction n generalizing index with
  | zero => exact absurd h (not_lt_zero _)
  | succ n ih =>
    rw [namesWithin] at h
    rw [diskLetters_eq, length_append, length_singleton]
    split
    · simp
    · exact succ_le_succ (ih (by omega))

/-! ### The order of the names -/

theorem lex_concat {s t : List UInt8} (a b : UInt8) (hlen : s.length = t.length)
    (h : List.Lex (· < ·) s t) : List.Lex (· < ·) (s ++ [a]) (t ++ [b]) := by
  induction h with
  | nil => simp at hlen
  | cons _ ih => exact .cons (ih (succ.inj hlen))
  | rel hlt => exact .rel hlt

theorem shortlex_concat {s t : List UInt8} (a b : UInt8) (h : List.Shortlex (· < ·) s t) :
    List.Shortlex (· < ·) (s ++ [a]) (t ++ [b]) := by
  rcases shortlex_def.mp h with hlt | ⟨hlen, hlex⟩
  · apply List.Shortlex.of_length_lt
    simpa using hlt
  · apply List.Shortlex.of_lex
    · simpa using hlen
    · exact lex_concat a b hlen hlex

theorem shortlex_diskLetters {i j : Nat} (hij : i < j) :
    List.Shortlex (· < ·) (diskLetters i) (diskLetters j) := by
  induction j using Nat.strongRecOn generalizing i with
  | ind j ih =>
    rw [diskLetters_eq i, diskLetters_eq j]
    by_cases hsame : i / 26 = j / 26
    · -- only the last letters differ
      rw [hsame]
      apply List.Shortlex.append_left
      rw [shortlex_singleton_iff, UInt8.lt_iff_toNat_lt,
        letter_toNat (mod_lt _ (by decide)), letter_toNat (mod_lt _ (by decide))]
      omega
    · apply shortlex_concat
      rw [if_neg (by omega : j / 26 ≠ 0)]
      split
      · apply List.Shortlex.of_length_lt
        rw [diskLetters_eq]
        simp
      · exact ih _ (by omega) (by omega)

/-- Naming disks is an order-preserving bijection between the 64-bit indices and the
strings of letters whose value is at most `2 ^ 64`; no name has more than 14 letters. -/
theorem diskIndexToName_bijective (i : Nat) (hi : i < 2 ^ 64) :
    (∃ name, diskIndexToName i = name ++ [0] ∧ (∀ c ∈ name, IsLetter c) ∧
      1 ≤ name.length ∧ name.length ≤ 14) ∧
    (∀ j < 2 ^ 64, diskIndexToName i = diskIndexToName j → i = j) ∧
    (∀ j < 2 ^ 64, i < j →
      List.Shortlex (· < ·) (diskIndexToName i).dropLast (diskIndexToName j).dropLast) ∧
    ∀ name : List UInt8, name ≠ [] → (∀ c ∈ name, IsLetter c) → lettersValue name ≤ 2 ^ 64 →
      ∃! j, j < 2 ^ 64 ∧ diskIndexToName j = name ++ [0] := by
  have hletters : ∀ j, diskIndexToName j = diskLetters j ++ [0] := fun j => rfl
  refine ⟨⟨_, hletters i, isLetter_diskLetters i, ?_, ?_⟩, ?_, ?_, ?_⟩
  · rw [diskLetters_eq]
    simp
  · apply length_diskLetters_le
    exact hi.trans (by decide)
  · intro j _ heq
    rw [hletters, hletters] at heq
    have hvalue := congrArg lettersValue (append_cancel_right heq)
    rw [lettersValue_diskLetters, lettersValue_diskLetters] at hvalue
    exact succ.inj hvalue
  · intro j _ hij
    rw [hletters, hletters, dropLast_concat, dropLast_concat]
    exact shortlex_diskLetters hij
  · intro name hname hall hvalue
    have hinv := diskLetters_lettersValue hname hall
    have hpos := lettersValue_diskLetters (lettersValue name - 1)
    rw [hinv] at hpos
    refine ⟨lettersValue name - 1, ⟨by omega, by rw [hletters, hinv]⟩, ?_⟩
    rintro j ⟨-, hj⟩
    rw [hletters] at hj
    rw [← append_cancel_right hj, lettersValue_diskLetters]
    rfl

theorem diskIndexToName_last : 2 ^ 64 - 1 < 2 ^ 64 ∧
    ∃ name, diskIndexToName (2 ^ 64 - 1) = name ++ [0] ∧ name.length ≤ 14 := by
  have hlast : 2 ^ 64 - 1 < 2 ^ 64 := by decide
  obtain ⟨⟨name, hname, -, -, hlen⟩, -⟩ := diskIndexToName_bijective (2 ^ 64 - 1) hlast
  exact ⟨hlast, name, hname, hlen⟩

end Osx64.Fs
