import Osx64.Lib.Bytes

/-!
# Typing lines into `ed`

The commands `a` and `i` read lines from the terminal until one is a single dot, and insert each of
them beside the current line.  `read_line` takes 255 bytes, one less than the longest line of the
terminal with its zero: the zero is then read alone and becomes an empty line.  Every new line
becomes the current one.  So `a` goes on behind it, but `i` goes on in front of it, and what `i`
inserts stands in the reverse order.
-/

namespace Osx64.Ed

open List

/-- A C string without its zero. -/
abbrev Text := List UInt8

structure Line where
  num : Nat
  text : Text

/-- The lines from `first_line` on, and the place of `current_line` among them. -/
structure Buffer where
  lines : List Line
  current : Option Nat

/-- `update_line_numbers` -/
def updateLineNumbers (texts : List Text) : List Line :=
  texts.mapIdx fun i text => ⟨u32 (i + 1), text⟩

/-- `insert_line_after`, whose result becomes the current line. -/
def Buffer.insertLineAfter (b : Buffer) (pos : Option Nat) (text : Text) : Buffer :=
  let place := pos.elim 0 (· + 1)
  let texts := b.lines.map Line.text
  ⟨updateLineNumbers (texts.take place ++ text :: texts.drop place), some place⟩

/-- One round of the commands: `a` inserts after the current line, `i` after the one before it. -/
def Buffer.typeIn (after : Bool) (b : Buffer) (text : Text) : Buffer :=
  b.insertLineAfter
    (if after then b.current else b.current.bind fun i => if i = 0 then none else some (i - 1)) text

/-- `pty_slave_read` over the lines that are completed and that will be; it waits for the first. -/
def slaveRead (len : Nat) : List Text → Option (List UInt8 × List Text)
  | [] => none
  | line :: rest =>
    if len < line.length + 1 then some (line.take len, line.drop len :: rest)
    else some (line ++ [0], rest)

/-- `read_line`, where `strcpy` stops at the first zero. -/
def readLine (typed : List Text) : Option (Text × List Text) :=
  (slaveRead 255 typed).map fun r => (r.1.takeWhile (· != 0), r.2)

def dot : Text := [46]

/-- The loop of the commands `a` (`after`) and `i`, for at most `fuel` rounds. -/
def insertLoop (after : Bool) : Nat → Buffer → List Text → Option (Buffer × List Text)
  | 0, _, _ => none
  | fuel + 1, b, typed =>
    (readLine typed).bind fun r =>
      if r.1 = dot then some (b, r.2) else insertLoop after fuel (b.typeIn after r.1) r.2

/-- A line that can be typed before the dot; `LINE_MAX` is 256. -/
structure Typed (line : Text) : Prop where
  length_le : line.length ≤ 255
  nonzero : ∀ c ∈ line, c ≠ 0
  ne_dot : line ≠ dot

variable {before rest typed : List Text} {cur : Option Text} {line : Text}

/-- What `read_line` makes of a typed line. -/
def reads (line : Text) : List Text := if line.length = 255 then [line, []] else [line]

theorem readLine_cons (hline : ∀ c ∈ line, c ≠ 0) (hle : line.length ≤ 255)
    (rest : List Text) : readLine (line :: rest) =
      some (line, if line.length = 255 then [] :: rest else rest) := by
  have hcopy (l : Text) : (line ++ l).takeWhile (· != 0) = line ++ l.takeWhile (· != 0) :=
    takeWhile_append_of_pos (by simpa using hline)
  rw [readLine, slaveRead]
  by_cases hlong : line.length = 255
  · simpa [hlong, take_of_length_le hle, drop_of_length_le hle] using hcopy []
  · rw [if_neg (by omega), if_neg hlong]
    simp [hcopy]

theorem insertLoop_typed (htyped : ∀ line ∈ typed, Typed line) {after : Bool} {fuel : Nat}
    (hfuel : 2 * typed.length < fuel) (b : Buffer) (more : List Text) :
    insertLoop after fuel b (typed ++ dot :: more) =
      some ((typed.flatMap reads).foldl (Buffer.typeIn after) b, more) := by
  induction typed generalizing fuel b with
  | nil =>
    obtain ⟨fuel, rfl⟩ : ∃ n, fuel = n + 1 := ⟨fuel - 1, by simp at hfuel; omega⟩
    rw [nil_append, insertLoop, readLine_cons (by simp [dot]) (by simp [dot])]
    rfl
  | cons line typed ih =>
    obtain ⟨hline, htyped⟩ := forall_mem_cons.mp htyped
    rw [length_cons] at hfuel
    obtain ⟨fuel, rfl⟩ : ∃ n, fuel = n + 2 := ⟨fuel - 2, by omega⟩
    rw [cons_append, insertLoop, readLine_cons hline.nonzero hline.length_le, Option.bind_some,
      if_neg hline.ne_dot, flatMap_cons, foldl_append, reads]
    split
    · -- the zero of the line is left over and is read in the next round
      rw [insertLoop, readLine_cons (by simp) (by simp)]
      exact ih htyped (by omega) _
    · exact ih htyped (by omega) _

/-- The buffer with the current line `cur` between `before` and `rest`. -/
def bufferAt (before : List Text) (cur : Option Text) (rest : List Text) : Buffer :=
  ⟨updateLineNumbers (before ++ cur.toList ++ rest), cur.map fun _ => before.length⟩

/-- Where lines belong that are inserted after the current line, or before it. -/
def placed (after : Bool) (before : List Text) (cur : Option Text)
    (texts rest : List Text) : List Text :=
  if after then before ++ cur.toList ++ texts ++ rest else before ++ texts ++ cur.toList ++ rest

theorem map_text (texts : List Text) : (updateLineNumbers texts).map Line.text = texts := by
  refine ext_getElem? fun i => ?_
  simp [updateLineNumbers, Function.comp_def]

theorem insertLineAfter_eq {b : Buffer} {pos : Option Nat}
    (hlines : b.lines = updateLineNumbers (before ++ rest))
    (hpos : pos.elim 0 (· + 1) = before.length)
    (text : Text) : b.insertLineAfter pos text = bufferAt before (some text) rest := by
  simp [Buffer.insertLineAfter, bufferAt, hlines, hpos, map_text]

theorem typeIn_bufferAt (hcur : cur = none → before = []) (after : Bool) (text : Text) :
    (bufferAt before cur rest).typeIn after text =
      if after then bufferAt (before ++ cur.toList) (some text) rest
      else bufferAt before (some text) (cur.toList ++ rest) := by
  cases after
  · refine insertLineAfter_eq (by simp [bufferAt]) ?_ text
    cases cur with
    | none => simp [bufferAt, hcur]
    | some line => cases before <;> simp [bufferAt]
  · refine insertLineAfter_eq (by simp [bufferAt]) ?_ text
    cases cur with
    | none => simp [bufferAt, hcur]
    | some line => simp [bufferAt]

/-- The lines come to stand in the order in which they are read, or in the reverse of it. -/
theorem lines_foldl (hcur : cur = none → before = []) (after : Bool) (texts : List Text) :
    (texts.foldl (Buffer.typeIn after) (bufferAt before cur rest)).lines = updateLineNumbers
      (placed after before cur (if after then texts else texts.reverse) rest) := by
  induction texts generalizing before cur rest with
  | nil => cases after <;> simp [placed, bufferAt]
  | cons text texts ih =>
    rw [foldl_cons, typeIn_bufferAt hcur]
    cases after
    · rw [if_neg Bool.false_ne_true, ih (by simp)]
      simp [placed]
    · rw [if_pos rfl, ih (by simp)]
      simp [placed]

theorem length_flatMap_reads (typed : List Text) :
    (typed.flatMap reads).length = typed.length + typed.countP (·.length = 255) := by
  induction typed with
  | nil => rfl
  | cons line typed ih =>
    rw [flatMap_cons, length_append, ih, countP_cons, reads]
    split <;> simp [*] <;> omega

theorem flatMap_reads (hshort : ∀ line ∈ typed, line.length ≠ 255) :
    typed.flatMap reads = typed := by
  induction typed with
  | nil => rfl
  | cons line typed ih =>
    obtain ⟨hline, hshort⟩ := forall_mem_cons.mp hshort
    rw [flatMap_cons, reads, if_neg hline, ih hshort, singleton_append]

theorem placed_reads_iff (after : Bool) :
    placed after before cur (if after then typed.flatMap reads else
      (typed.flatMap reads).reverse) rest =
        placed after before cur typed rest ↔
      (∀ line ∈ typed, line.length ≠ 255) ∧ (after = true ∨ typed.reverse = typed) := by
  constructor
  · intro h
    have hlength : (typed.flatMap reads).length = typed.length := by
      cases after <;> simpa [placed] using congrArg length h
    rw [length_flatMap_reads, Nat.add_eq_left, countP_eq_zero] at hlength
    have hshort : ∀ line ∈ typed, line.length ≠ 255 := by simpa using hlength
    rw [flatMap_reads hshort] at h
    refine ⟨hshort, ?_⟩
    cases after
    · exact .inr (by simpa [placed] using h)
    · exact .inl rfl
  · rintro ⟨hshort, horder⟩
    rw [flatMap_reads hshort]
    cases after <;> simp_all [placed]

theorem numbered_iff (texts : List Text) :
    (∀ i l, (updateLineNumbers texts)[i]? = some l → l.num = i + 1) ↔ texts.length < 2 ^ 32 := by
  constructor
  · intro h
    by_contra hlong
    have hget := getElem?_eq_getElem (show 2 ^ 32 - 1 < texts.length by omega)
    have hnum := h (2 ^ 32 - 1) _ (by rw [updateLineNumbers, getElem?_mapIdx, hget]; rfl)
    cases hnum
  · intro h i l hl
    rw [updateLineNumbers, getElem?_mapIdx] at hl
    obtain ⟨text, htext, rfl⟩ := Option.map_eq_some_iff.mp hl
    have := (List.getElem?_eq_some_iff.mp htext).1
    exact u32_of_lt (by omega)

/-- The lines typed up to a dot come to stand in their order, and all lines are numbered from 1
on. -/
def InsertsInOrder (after : Bool) (before : List Text) (cur : Option Text)
    (rest typed : List Text) :
    Prop :=
  ∀ fuel > 2 * typed.length, ∀ more, ∃ b,
    insertLoop after fuel (bufferAt before cur rest) (typed ++ dot :: more) = some (b, more) ∧
      b.lines.map Line.text = placed after before cur typed rest ∧
      ∀ i l, b.lines[i]? = some l → l.num = i + 1

end Osx64.Ed
