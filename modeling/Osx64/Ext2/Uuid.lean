import Osx64.Lib.Hex
import Mathlib.Tactic.IntervalCases

/-!
# The text of a volume's UUID

`uuid_to_string` writes sixteen bytes as 8-4-4-4-12 digits.  `uuid_from_string` walks over 36
characters, skips every hyphen wherever it stands, and stores a byte for each pair of digits in
between; only at the end does it ask whether there were sixteen pairs.  So what it understands is a
sequence of hyphens and pairs (`Reads`), of which the layout with hyphens at 8, 13, 18 and 23 is one
case, and what it stores are the pairs of the longest beginning it understands, however many they
are.
-/

namespace Osx64.Ext2

open List

/-- `uuid_to_string`: the 36 characters before the terminating zero. -/
def uuidToString (uuid : Buf) : List UInt8 :=
  (range 16).flatMap fun i =>
    hexChar ((uuid i).toNat >>> 4) :: hexChar ((uuid i).toNat &&& 15) ::
      if i = 3 ∨ i = 5 ∨ i = 7 ∨ i = 9 then [45] else []

/-- The loop of `uuid_from_string`.  The first list is what is left of the 36 characters, the second
what has been stored to `uuid[0]`, `uuid[1]`, …. -/
def uuidFromLoop : List UInt8 → List UInt8 → Int × List UInt8
  | [], uuid => (if uuid.length = 16 then 0 else -1, uuid)
  | c :: rest, uuid =>
    if c = 45 then uuidFromLoop rest uuid
    else
      match rest with
      | [] => (-1, uuid)
      | d :: rest =>
        match hexVal c, hexVal d with
        | some high, some low => uuidFromLoop rest (uuid ++ [hexByte high low])
        | _, _ => (-1, uuid)

/-- The first 36 characters of a string. -/
def uuidText (str : Buf) : List UInt8 := (range 36).map str

/-- `uuid_from_string(str, uuid)`: what it returns and what it has stored from `uuid[0]` on. -/
def uuidFromString (str : Buf) : Int × List UInt8 := uuidFromLoop (uuidText str) []

/-! ## What the loop understands -/

/-- A sequence of hyphens and pairs of digits, and the bytes of the pairs. -/
inductive Reads : List UInt8 → List UInt8 → Prop
  | nil : Reads [] []
  | hyphen {text bytes} : Reads text bytes → Reads (45 :: text) bytes
  | pair {c d high low text bytes} : hexVal c = some high → hexVal d = some low →
      Reads text bytes → Reads (c :: d :: text) (hexByte high low :: bytes)

variable {c : UInt8} {text bytes : List UInt8} {first second : Nat → UInt8} {str : Buf}

theorem ne_hyphen {v : Nat} (hc : hexVal c = some v) : c ≠ 45 := by
  intro hhyphen
  rw [hhyphen] at hc
  exact absurd hc (by decide +revert)

@[simp] theorem uuidFromLoop_hyphen (rest uuid : List UInt8) :
    uuidFromLoop (45 :: rest) uuid = uuidFromLoop rest uuid := by
  rw [uuidFromLoop.eq_def]
  simp

theorem uuidFromLoop_pair {d : UInt8} {high low : Nat} (hc : hexVal c = some high)
    (hd : hexVal d = some low) (rest uuid : List UInt8) :
    uuidFromLoop (c :: d :: rest) uuid = uuidFromLoop rest (uuid ++ [hexByte high low]) := by
  rw [uuidFromLoop.eq_def]
  simp [ne_hyphen hc, hc, hd]

/-- The loop passes over what it understands. -/
theorem Reads.loop (hreads : Reads text bytes) (rest uuid : List UInt8) :
    uuidFromLoop (text ++ rest) uuid = uuidFromLoop rest (uuid ++ bytes) := by
  induction hreads generalizing uuid with
  | nil => simp
  | hyphen _ ih => simp [ih]
  | pair hc hd _ ih => simp [uuidFromLoop_pair hc hd, ih]

/-- Once stored, a byte stays. -/
theorem prefix_uuidFromLoop (text uuid : List UInt8) : uuid <+: (uuidFromLoop text uuid).2 := by
  fun_induction uuidFromLoop text uuid with
  | case4 c uuid hc d rest high low hlow hhigh ih => exact (prefix_append _ _).trans ih
  | _ => first | exact prefix_refl _ | assumption

/-- What is stored are the pairs of a beginning of the text. -/
theorem stored_reads (text uuid : List UInt8) :
    ∃ n bytes, Reads (text.take n) bytes ∧ (uuidFromLoop text uuid).2 = uuid ++ bytes := by
  fun_induction uuidFromLoop text uuid with
  | case2 uuid rest ih =>
    obtain ⟨n, bytes, hreads, hstored⟩ := ih
    exact ⟨n + 1, bytes, Reads.hyphen hreads, hstored⟩
  | case4 c uuid hc d rest high low hlow hhigh ih =>
    obtain ⟨n, bytes, hreads, hstored⟩ := ih
    refine ⟨n + 2, _, Reads.pair hhigh hlow hreads, ?_⟩
    simp [hstored]
  | _ => exact ⟨0, [], Reads.nil, by simp⟩

/-- The loop succeeds exactly on a text of sixteen pairs. -/
theorem accepted_iff (text : List UInt8) :
    (uuidFromLoop text []).1 = 0 ↔ ∃ bytes, Reads text bytes ∧ bytes.length = 16 := by
  have hread : ∀ uuid, (uuidFromLoop text uuid).1 = 0 →
      ∃ bytes, Reads text bytes ∧ (uuid ++ bytes).length = 16 := by
    intro uuid
    fun_induction uuidFromLoop text uuid with
    | case1 uuid =>
      intro hzero
      refine ⟨[], Reads.nil, ?_⟩
      by_contra hlength
      simp at hlength
      simp [hlength] at hzero
    | case2 uuid rest ih =>
      intro hzero
      obtain ⟨bytes, hreads, hlength⟩ := ih hzero
      exact ⟨bytes, hreads.hyphen, hlength⟩
    | case4 c uuid hc d rest high low hlow hhigh ih =>
      intro hzero
      obtain ⟨bytes, hreads, hlength⟩ := ih hzero
      exact ⟨_, Reads.pair hhigh hlow hreads, by simpa using hlength⟩
    | _ => intro hzero; simp at hzero
  constructor
  · intro hzero
    exact hread [] hzero
  · intro ⟨bytes, hreads, hlength⟩
    have hloop := hreads.loop [] []
    rw [append_nil] at hloop
    simp [hloop, uuidFromLoop, hlength]

/-- What is stored on a text that is understood to its end. -/
theorem Reads.stored (hreads : Reads text bytes) :
    (uuidFromLoop text []).2 = bytes := by
  have hloop := hreads.loop [] []
  rw [append_nil] at hloop
  simp [hloop, uuidFromLoop]

/-- A text that is understood can be cut after any of its pairs. -/
theorem Reads.cut (hreads : Reads text bytes) (k : Nat)
    (hk : k ≤ bytes.length) : ∃ n, Reads (text.take n) (bytes.take k) := by
  induction hreads generalizing k with
  | nil => exact ⟨0, by simpa using Reads.nil⟩
  | hyphen _ ih =>
    obtain ⟨n, hn⟩ := ih k hk
    exact ⟨n + 1, hn.hyphen⟩
  | pair hc hd _ ih =>
    rcases k with - | k
    · exact ⟨0, Reads.nil⟩
    · obtain ⟨n, hn⟩ := ih k (by simpa using hk)
      exact ⟨n + 2, Reads.pair hc hd hn⟩

/-- A store goes past the array exactly if some beginning of the text has seventeen pairs. -/
theorem stored_length_le_iff (text : List UInt8) :
    (uuidFromLoop text []).2.length ≤ 16 ↔
      ¬∃ n bytes, Reads (text.take n) bytes ∧ bytes.length = 17 := by
  constructor
  · rintro hle ⟨n, bytes, hreads, hlength⟩
    have hloop := hreads.loop (text.drop n) []
    rw [take_append_drop, nil_append] at hloop
    have hprefix := (prefix_uuidFromLoop (text.drop n) bytes).length_le
    rw [← hloop] at hprefix
    omega
  · intro hnone
    by_contra hmore
    obtain ⟨n, bytes, hreads, hstored⟩ := stored_reads text []
    rw [hstored, nil_append] at hmore
    obtain ⟨m, hcut⟩ := hreads.cut 17 (by omega)
    refine hnone ⟨min m n, bytes.take 17, ?_, by simp; omega⟩
    rw [← take_take]
    exact hcut

/-! ## The layout of a UUID -/

/-- A hyphen follows the byte `i` of the text. -/
abbrev Hyphenated (i : Nat) : Prop := i = 3 ∨ i = 5 ∨ i = 7 ∨ i = 9

/-- Hexadecimal digits with `-` exactly at the offsets 8, 13, 18 and 23. -/
def Canonical (str : Buf) : Prop :=
  ∀ i < 36, if i = 8 ∨ i = 13 ∨ i = 18 ∨ i = 23 then str i = 45 else (hexVal (str i)).isSome

instance (str : Buf) : Decidable (Canonical str) := by unfold Canonical; infer_instance

/-- Where the digits of byte `i` stand. -/
def digitsAt (i : Nat) : Nat :=
  2 * i + if i < 4 then 0 else if i < 6 then 1 else if i < 8 then 2 else if i < 10 then 3 else 4

/-- The pairs of a text, with hyphens after the bytes 3, 5, 7 and 9. -/
def layout (first second : Nat → UInt8) : List UInt8 :=
  (range 16).flatMap fun i =>
    first i :: second i :: if Hyphenated i then [45] else []

theorem layout_eq (first second : Nat → UInt8) :
    layout first second =
      [first 0, second 0, first 1, second 1, first 2, second 2, first 3, second 3, 45,
        first 4, second 4, first 5, second 5, 45, first 6, second 6, first 7, second 7, 45,
        first 8, second 8, first 9, second 9, 45, first 10, second 10, first 11, second 11,
        first 12, second 12, first 13, second 13, first 14, second 14, first 15, second 15] := rfl

theorem map_layout {f : UInt8 → UInt8} (hhyphen : f 45 = 45) (first second : Nat → UInt8) :
    (layout first second).map f = layout (fun i => f (first i)) (fun i => f (second i)) := by
  simp only [layout_eq, map_cons, map_nil, hhyphen]

theorem layout_congr {first' second' : Nat → UInt8}
    (hfirst : ∀ i < 16, first i = first' i) (hsecond : ∀ i < 16, second i = second' i) :
    layout first second = layout first' second' := by
  rw [layout, layout, flatMap_def, flatMap_def]
  congr 1
  apply map_congr_left
  intro i hi
  rw [hfirst i (mem_range.1 hi), hsecond i (mem_range.1 hi)]

theorem uuidToString_eq (uuid : Buf) :
    uuidToString uuid = layout (fun i => hexChar ((uuid i).toNat >>> 4))
      (fun i => hexChar ((uuid i).toNat &&& 15)) := rfl

/-- A canonical text has the layout. -/
theorem uuidText_canonical (hcanonical : Canonical str) :
    uuidText str = layout (fun i => str (digitsAt i)) (fun i => str (digitsAt i + 1)) := by
  have h8 : str 8 = 45 := hcanonical 8 (by decide)
  have h13 : str 13 = 45 := hcanonical 13 (by decide)
  have h18 : str 18 = 45 := hcanonical 18 (by decide)
  have h23 : str 23 = 45 := hcanonical 23 (by decide)
  simp only [uuidText, range_succ, range_zero, layout_eq, nil_append, cons_append,
    map_cons, map_nil, h8, h13, h18, h23]
  rfl

/-- The loop understands the layout, if it is filled with digits. -/
theorem reads_layout {high low : Nat → Nat} (hfirst : ∀ i < 16, hexVal (first i) = some (high i))
    (hsecond : ∀ i < 16, hexVal (second i) = some (low i)) :
    Reads (layout first second) ((range 16).map fun i => hexByte (high i) (low i)) := by
  have hreads : ∀ indices : List Nat, (∀ i ∈ indices, i < 16) →
      Reads (indices.flatMap fun i => first i :: second i :: if Hyphenated i then [45] else [])
        (indices.map fun i => hexByte (high i) (low i)) := by
    intro indices hindices
    induction indices with
    | nil => exact Reads.nil
    | cons i rest ih =>
      have hi := hindices i mem_cons_self
      have hrest := ih fun j hj => hindices j (mem_cons_of_mem i hj)
      rw [flatMap_cons, map_cons]
      refine Reads.pair (hfirst i hi) (hsecond i hi) ?_
      split
      · exact hrest.hyphen
      · exact hrest
  exact hreads _ fun i hi => mem_range.1 hi

/-- A text as a string of the kernel. -/
def ofText (text : List UInt8) : Buf := fun i => text.getD i 0

theorem uuidText_ofText (hlength : text.length = 36) :
    uuidText (ofText text) = text := by
  apply ext_getElem
  · simp [uuidText, hlength]
  · intro i _ hi
    simp [uuidText, ofText, hi]

theorem canonical_layout
    (hfirst : ∀ i < 16, (hexVal (first i)).isSome)
    (hsecond : ∀ i < 16, (hexVal (second i)).isSome) :
    Canonical (ofText (layout first second)) := by
  intro i hi
  rw [ofText, layout_eq]
  interval_cases i <;> simp [hfirst, hsecond]

theorem length_layout (first second : Nat → UInt8) : (layout first second).length = 36 := rfl

/-- The first and second digits of the bytes of a canonical text. -/
theorem Canonical.digits (hcanonical : Canonical str) {i : Nat} (hi : i < 16) :
    (∃ high, hexVal (str (digitsAt i)) = some high) ∧
      ∃ low, hexVal (str (digitsAt i + 1)) = some low := by
  have hplace : ∀ i < 16, digitsAt i + 1 < 36 ∧
      ¬(digitsAt i = 8 ∨ digitsAt i = 13 ∨ digitsAt i = 18 ∨ digitsAt i = 23) ∧
      ¬(digitsAt i + 1 = 8 ∨ digitsAt i + 1 = 13 ∨ digitsAt i + 1 = 18 ∨ digitsAt i + 1 = 23) := by
    decide
  obtain ⟨hlt, hfirst, hsecond⟩ := hplace i hi
  have hhigh := hcanonical (digitsAt i) (by omega)
  have hlow := hcanonical (digitsAt i + 1) hlt
  rw [if_neg hfirst] at hhigh
  rw [if_neg hsecond] at hlow
  exact ⟨Option.isSome_iff_exists.1 hhigh, Option.isSome_iff_exists.1 hlow⟩

/-! ## The two directions -/

/-- What a UUID looks like as text. -/
theorem uuidToString_text (uuid : Buf) :
    (uuidToString uuid).length = 36 ∧ Canonical (ofText (uuidToString uuid)) ∧
      (uuidToString uuid).map lowerCase = uuidToString uuid := by
  have hdigit : ∀ n < 16, (hexVal (hexChar n)).isSome := by
    intro n hn
    simp [hexVal_hexChar hn]
  refine ⟨length_layout _ _, ?_, ?_⟩
  · rw [uuidToString_eq]
    apply canonical_layout
    · intro i _
      exact hdigit _ (nibbles_lt (uuid i)).1
    · intro i _
      exact hdigit _ (nibbles_lt (uuid i)).2
  · rw [uuidToString_eq, map_layout (by decide)]
    congr 1
    · funext i
      exact lowerCase_hexChar (nibbles_lt (uuid i)).1
    · funext i
      exact lowerCase_hexChar (nibbles_lt (uuid i)).2

/-- A UUID is read back from its text. -/
theorem uuidFromString_uuidToString (uuid : Buf) :
    uuidFromString (ofText (uuidToString uuid)) = (0, (range 16).map uuid) := by
  have hreads : Reads (uuidToString uuid) ((range 16).map uuid) := by
    have hlayout := reads_layout (fun i _ => hexVal_hexChar (nibbles_lt (uuid i)).1)
      (fun i _ => hexVal_hexChar (nibbles_lt (uuid i)).2)
    simp only [hexByte_nibbles] at hlayout
    exact hlayout
  rw [uuidFromString, uuidText_ofText (uuidToString_text uuid).1]
  exact Prod.ext ((accepted_iff _).2 ⟨_, hreads, by simp⟩) hreads.stored

/-- A canonical text is accepted, and its bytes are written back in lower case. -/
theorem Canonical.read (hcanonical : Canonical str) :
    ∃ bytes, Reads (uuidText str) bytes ∧ bytes.length = 16 ∧
      uuidToString (ofText bytes) = (uuidText str).map lowerCase := by
  choose! high hhigh using fun i (hi : i < 16) => (hcanonical.digits hi).1
  choose! low hlow using fun i (hi : i < 16) => (hcanonical.digits hi).2
  have htext := uuidText_canonical hcanonical
  refine ⟨(range 16).map fun i => hexByte (high i) (low i), ?_, by simp, ?_⟩
  · rw [htext]
    exact reads_layout hhigh hlow
  · rw [htext, uuidToString_eq, map_layout (by decide)]
    have hbyte : ∀ i < 16, ofText ((range 16).map fun i => hexByte (high i) (low i)) i
        = hexByte (high i) (low i) := by
      intro i hi
      simp [ofText, hi]
    apply layout_congr
    · intro i hi
      obtain ⟨hlt, hchar⟩ := hexChar_hexVal (hhigh i hi)
      rw [hbyte i hi, (nibbles_hexByte hlt (hexChar_hexVal (hlow i hi)).1).1, hchar]
    · intro i hi
      obtain ⟨hlt, hchar⟩ := hexChar_hexVal (hlow i hi)
      rw [hbyte i hi, (nibbles_hexByte (hexChar_hexVal (hhigh i hi)).1 hlt).2, hchar]

/-! ## The codec -/

/-- The two functions as a codec, tried on the string `str`. -/
structure UuidCodec (str : Buf) : Prop where
  /-- a UUID is written as 36 characters in the layout, in lower case -/
  written : ∀ uuid, (uuidToString uuid).length = 36 ∧ Canonical (ofText (uuidToString uuid)) ∧
    (uuidToString uuid).map lowerCase = uuidToString uuid
  /-- and read back -/
  readBack : ∀ uuid, uuidFromString (ofText (uuidToString uuid)) = (0, (range 16).map uuid)
  /-- the string is accepted exactly in the layout -/
  accepted : (uuidFromString str).1 = 0 ↔ Canonical str
  /-- and its bytes are written as the string in lower case -/
  writtenBack : (uuidFromString str).1 = 0 →
    uuidToString (ofText (uuidFromString str).2) = (uuidText str).map lowerCase
  /-- the stores are to `uuid[0]`, …, `uuid[15]` -/
  within : (uuidFromString str).2.length ≤ 16

/-- The codec is right on the strings in the layout, and on those of which the loop understands
neither all 36 characters as sixteen pairs nor a beginning as seventeen. -/
theorem uuidCodec_iff (str : Buf) :
    UuidCodec str ↔ Canonical str ∨
      (¬∃ bytes, Reads (uuidText str) bytes ∧ bytes.length = 16) ∧
        ¬∃ n bytes, Reads ((uuidText str).take n) bytes ∧ bytes.length = 17 := by
  have haccepted := accepted_iff (uuidText str)
  have hwithin := stored_length_le_iff (uuidText str)
  constructor
  · intro hcodec
    by_cases hcanonical : Canonical str
    · exact Or.inl hcanonical
    · refine Or.inr ⟨fun hread => ?_, hwithin.1 hcodec.within⟩
      exact hcanonical (hcodec.accepted.1 (haccepted.2 hread))
  · intro hcase
    rcases hcase with hcanonical | ⟨hread, hmore⟩
    · obtain ⟨bytes, hreads, hlength, hlower⟩ := hcanonical.read
      have hstored : (uuidFromString str).2 = bytes := hreads.stored
      refine ⟨uuidToString_text, uuidFromString_uuidToString, ?_, ?_, ?_⟩
      · exact iff_of_true (haccepted.2 ⟨bytes, hreads, hlength⟩) hcanonical
      · intro _
        rw [hstored, hlower]
      · rw [hstored, hlength]
    · have hrejected : (uuidFromString str).1 ≠ 0 := fun hzero => hread (haccepted.1 hzero)
      refine ⟨uuidToString_text, uuidFromString_uuidToString, ?_, ?_, hwithin.2 hmore⟩
      · refine iff_of_false hrejected fun hcanonical => hread ?_
        obtain ⟨bytes, hreads, hlength, _⟩ := hcanonical.read
        exact ⟨bytes, hreads, hlength⟩
      · intro hzero
        exact absurd hzero hrejected

/-- Sixteen pairs with the four hyphens in front. -/
def hyphensFirst : Buf := ofText (replicate 4 45 ++ replicate 32 48)

/-- Eighteen pairs. -/
def noHyphens : Buf := ofText (replicate 36 48)

/-- Hyphens in the wrong places are accepted, and 36 digits store eighteen bytes. -/
theorem not_uuidCodec_of_hyphens : ¬UuidCodec hyphensFirst ∧ ¬UuidCodec noHyphens := by
  constructor
  · intro hcodec
    have hcanonical : Canonical hyphensFirst := hcodec.accepted.1 (by decide +kernel)
    exact absurd (hcanonical 0 (by decide)) (by decide)
  · intro hcodec
    exact absurd hcodec.within (by decide +kernel)

end Osx64.Ext2
