import Mathlib.Data.List.TakeWhile
import Osx64.Fs.VfsWalk

/-!
# Splitting a path

`__vfs_lookup_locked` cuts a path into its components with `strtok_r`, from the front;
`split_path` looks for the last component from the back.  The name it returns is a pointer into
the path, so the slashes behind the last component are a part of the name.  Apart from these
slashes the two agree: `splitAgrees_iff`.
-/

namespace Osx64.Vfs

open List

/-! ## Tokens -/

/-- `strtok_r`: the next token, and the string that `*saveptr` is left at. -/
def strtokR (delim str : List UInt8) : Option Name × List UInt8 :=
  let start := str.dropWhile delim.contains
  if start = [] then (none, [])
  else
    -- the separator behind the token is overwritten, and the next call goes on after it
    (some (start.takeWhile fun c => !delim.contains c),
      (start.dropWhile fun c => !delim.contains c).drop 1)

section Tokens

variable {path core : Path} {parent rest : Path}

@[simp]
theorem tokens_nil : tokens [] = [] := rfl

/-- A slash separates what is before it from what is behind it. -/
theorem tokens_append_slash (before behind : Path) :
    tokens (before ++ slash :: behind) = tokens before ++ tokens behind := by
  rw [tokens, splitOnP_append_cons _ _ (by simp), filter_append]
  rfl

@[simp]
theorem tokens_slash_cons (rest : Path) : tokens (slash :: rest) = tokens rest :=
  tokens_append_slash [] rest

theorem tokens_of_notMem (hne : core ≠ []) (hcore : slash ∉ core) : tokens core = [core] := by
  have hall : ∀ c ∈ core, (c == slash) = false := by
    intro c hc
    apply beq_eq_false_iff_ne.mpr
    rintro rfl
    exact hcore hc
  rw [tokens, splitOnP_eq_singleton hall]
  simp [hne]

theorem tokens_slashes (hrest : ∀ c ∈ rest, c = slash) : tokens rest = [] := by
  induction rest with
  | nil => rfl
  | cons c rest ih =>
    obtain rfl := hrest c mem_cons_self
    rw [tokens_slash_cons]
    exact ih fun c hc => hrest c (mem_cons_of_mem _ hc)

theorem tokens_append_slashes (hrest : ∀ c ∈ rest, c = slash) :
    tokens (path ++ rest) = tokens path := by
  cases rest with
  | nil => rw [append_nil]
  | cons c rest =>
    obtain rfl := hrest c mem_cons_self
    rw [tokens_append_slash, tokens_slashes fun c hc => hrest c (mem_cons_of_mem _ hc),
      append_nil]

/-- The loop of `__vfs_lookup_locked` over `strtok_r` goes through the tokens. -/
theorem tokens_eq_strtokR (path : Path) :
    tokens path = (strtokR [slash] path).1.elim [] (· :: tokens (strtokR [slash] path).2) := by
  induction path with
  | nil => rfl
  | cons c path ih =>
    by_cases hc : c = slash
    · subst hc
      have hskip : strtokR [slash] (slash :: path) = strtokR [slash] path := by
        simp [strtokR]
      rw [hskip, tokens_slash_cons]
      exact ih
    · -- the token goes on to the next slash
      have hstart : (c :: path).dropWhile (contains [slash]) = c :: path := by
        simp [hc]
      rw [strtokR]
      simp only [hstart, reduceCtorEq, if_false, Option.elim_some]
      generalize hword : (c :: path).takeWhile (fun c => !contains [slash] c) = word
      generalize hbehind : (c :: path).dropWhile (fun c => !contains [slash] c) = behind
      have hsplit : c :: path = word ++ behind := by
        rw [← hword, ← hbehind, takeWhile_append_dropWhile]
      have hmem : slash ∉ word := by
        intro hin
        rw [← hword] at hin
        simpa using mem_takeWhile_imp hin
      have hne : word ≠ [] := by
        rw [← hword]
        simp [hc]
      rw [hsplit]
      cases behind with
      | nil =>
        rw [append_nil, tokens_of_notMem hne hmem]
        rfl
      | cons e behind =>
        have he := head_dropWhile_not (fun c => !contains [slash] c)
          (l := c :: path) (by rw [hbehind]; exact cons_ne_nil _ _)
        simp only [hbehind, head_cons] at he
        obtain rfl : e = slash := by simpa using he
        rw [tokens_append_slash, tokens_of_notMem hne hmem]
        rfl

end Tokens

/-! ## What `split_path` returns -/

/-- The path of the parent directory without the slashes at its end; the root keeps one. -/
def trimDir (parent : Path) : Path :=
  match parent.reverse.dropWhile (· == slash) with
  | [] => [slash]
  | dir => dir.reverse

section Split

variable {path core parent rest : Path}

/-- A string without the slashes at its end. -/
theorem exists_append_slashes (path : Path) : ∃ rest, (∀ c ∈ rest, c = slash) ∧
    path = (path.reverse.dropWhile (· == slash)).reverse ++ rest := by
  refine ⟨(path.reverse.takeWhile (· == slash)).reverse, ?_, ?_⟩
  · intro c hc
    simpa using mem_takeWhile_imp (mem_reverse.mp hc)
  · rw [← reverse_append, takeWhile_append_dropWhile, reverse_reverse]

/-- A path with a component ends in one, apart from slashes. -/
theorem exists_core (h : tokens path ≠ []) : ∃ core rest, core ≠ [] ∧ slash ∉ core ∧
    (∀ c ∈ rest, c = slash) ∧
    (path = core ++ rest ∨ ∃ parent, path = parent ++ slash :: (core ++ rest)) := by
  obtain ⟨rest, hrest, hpath⟩ := exists_append_slashes path
  have hhead := head?_dropWhile_not (· == slash) path.reverse
  generalize path.reverse.dropWhile (· == slash) = trimmed at hpath hhead
  have hsplit := takeWhile_append_dropWhile (p := (· != slash)) (l := trimmed)
  have hbehind := head?_dropWhile_not (· != slash) trimmed
  have hword : ∀ c ∈ trimmed.takeWhile (· != slash), c ≠ slash := by
    intro c hc
    simpa using mem_takeWhile_imp hc
  have hne : trimmed.takeWhile (· != slash) ≠ [] := by
    cases trimmed with
    | nil => exact absurd (hpath ▸ tokens_slashes hrest) h
    | cons c trimmed =>
      have hc : c ≠ slash := by simpa using hhead
      simp [hc]
  generalize trimmed.takeWhile (· != slash) = word at hsplit hword hne
  generalize trimmed.dropWhile (· != slash) = behind at hsplit hbehind
  refine ⟨word.reverse, rest, by simpa using hne, ?_, hrest, ?_⟩
  · intro hmem
    exact hword slash (mem_reverse.mp hmem) rfl
  · rw [hpath, ← hsplit]
    cases behind with
    | nil =>
      left
      simp
    | cons c behind =>
      right
      obtain rfl : c = slash := by simpa using hbehind
      exact ⟨behind.reverse, by simp⟩

theorem dropWhile_slashes (hne : core ≠ []) (hcore : slash ∉ core)
    (hrest : ∀ c ∈ rest, c = slash) (before : Path) :
    (before ++ (core ++ rest)).reverse.dropWhile (· == slash) = (before ++ core).reverse := by
  rw [← append_assoc, reverse_append, dropWhile_append_of_pos]
  · obtain ⟨core, c, rfl⟩ := (eq_nil_or_concat' core).resolve_left hne
    have hc : c ≠ slash := by
      rintro rfl
      exact hcore (by simp)
    rw [← append_assoc, reverse_concat, dropWhile_cons_of_neg (by simpa using hc)]
  · intro c hc
    simpa using hrest c (mem_reverse.mp hc)

theorem dropWhile_core (hcore : slash ∉ core) (behind : Path) :
    (core.reverse ++ behind).dropWhile (· != slash) = behind.dropWhile (· != slash) := by
  apply dropWhile_append_of_pos
  intro c hc
  have hne : c ≠ slash := by
    rintro rfl
    exact hcore (mem_reverse.mp hc)
  simpa using hne

/-- A path with one component. -/
theorem splitPath_single (hne : core ≠ []) (hcore : slash ∉ core) (hrest : ∀ c ∈ rest, c = slash) :
    splitPath (core ++ rest) = some ([], core ++ rest) := by
  have htrim := dropWhile_slashes hne hcore hrest []
  have hlast := dropWhile_core hcore []
  have hpath : core ++ rest ≠ [] := by simp [hne]
  simp only [nil_append, append_nil, dropWhile_nil] at htrim hlast
  rw [splitPath, if_neg hpath, htrim]
  cases hrev : core.reverse with
  | nil => exact absurd (reverse_eq_nil_iff.mp hrev) hne
  | cons c word =>
    rw [hrev] at hlast
    simp only [hlast]

/-- A path with a parent directory. -/
theorem splitPath_below (hne : core ≠ []) (hcore : slash ∉ core) (hrest : ∀ c ∈ rest, c = slash)
    (parent : Path) :
    splitPath (parent ++ slash :: (core ++ rest)) = some (trimDir parent, core ++ rest) := by
  have htrim := dropWhile_slashes hne hcore hrest (parent ++ [slash])
  have hlast := dropWhile_core hcore (slash :: parent.reverse)
  rw [append_assoc, singleton_append] at htrim
  have hrev : (parent ++ [slash] ++ core).reverse = core.reverse ++ slash :: parent.reverse := by
    simp
  have hname : (parent ++ slash :: (core ++ rest)).drop (parent.reverse.length + 1) =
      core ++ rest := by
    simp [drop_append]
  rw [hrev] at htrim
  rw [dropWhile_cons_of_neg (by simp)] at hlast
  have hpath : parent ++ slash :: (core ++ rest) ≠ [] := by simp
  rw [splitPath, if_neg hpath, htrim]
  cases hword : core.reverse ++ slash :: parent.reverse with
  | nil => simp at hword
  | cons c word =>
    rw [hword] at hlast
    simp only [hlast, hname, trimDir]
    cases parent.reverse.dropWhile (· == slash) <;> rfl

theorem tokens_trimDir (parent : Path) : tokens (trimDir parent) = tokens parent := by
  obtain ⟨rest, hrest, hparent⟩ := exists_append_slashes parent
  rw [trimDir]
  cases hdir : parent.reverse.dropWhile (· == slash) with
  | nil =>
    rw [hdir] at hparent
    rw [hparent]
    simp [tokens_slashes hrest]
  | cons c dir =>
    rw [hdir] at hparent
    rw [hparent, tokens_append_slashes hrest]

/-- The parent directory is absolute if the path is. -/
theorem head?_trimDir (parent behind : Path) :
    (trimDir parent).head? = some slash ↔ (parent ++ slash :: behind).head? = some slash := by
  obtain ⟨rest, hrest, hparent⟩ := exists_append_slashes parent
  rw [trimDir]
  cases hdir : parent.reverse.dropWhile (· == slash) with
  | nil =>
    rw [hdir, reverse_nil, nil_append] at hparent
    subst hparent
    cases parent with
    | nil => simp
    | cons c parent =>
      obtain rfl := hrest c mem_cons_self
      simp
  | cons c dir =>
    rw [hdir] at hparent
    dsimp only
    rw [hparent]
    cases hrev : (c :: dir).reverse with
    | nil => simp at hrev
    | cons e dir => simp

/-- `split_path` returns the last component and the path of the directory it is in. -/
def SplitAgrees (path : Path) : Prop :=
  ∃ dir name, splitPath path = some (dir, name) ∧ slash ∉ name ∧
    tokens path = tokens dir ++ [name] ∧ (dir.head? = some slash ↔ path.head? = some slash)

theorem splitAgrees_iff (h : tokens path ≠ []) :
    SplitAgrees path ↔ path.getLast? ≠ some slash := by
  obtain ⟨core, rest, hne, hcore, hrest, hpath⟩ := exists_core h
  have hsplit : ∃ dir, splitPath path = some (dir, core ++ rest) ∧
      tokens path = tokens dir ++ [core] ∧
      (dir.head? = some slash ↔ path.head? = some slash) := by
    rcases hpath with rfl | ⟨parent, rfl⟩
    · refine ⟨[], splitPath_single hne hcore hrest, ?_, ?_⟩
      · rw [tokens_append_slashes hrest, tokens_of_notMem hne hcore]
        rfl
      · obtain ⟨c, core, rfl⟩ := exists_cons_of_ne_nil hne
        have hc : c ≠ slash := by
          rintro rfl
          exact hcore mem_cons_self
        simp [hc]
    · refine ⟨trimDir parent, splitPath_below hne hcore hrest parent, ?_,
        head?_trimDir parent (core ++ rest)⟩
      rw [tokens_trimDir, tokens_append_slash, tokens_append_slashes hrest,
        tokens_of_notMem hne hcore]
  have hlast : path.getLast? = (core ++ rest).getLast? := by
    rcases hpath with rfl | ⟨parent, rfl⟩
    · rfl
    · rw [append_cons, getLast?_append_of_ne_nil]
      simp [hne]
  obtain ⟨dir, hdir, htokens, habs⟩ := hsplit
  rw [hlast]
  constructor
  · rintro ⟨dir', name, hsplit', hname, -, -⟩ hend
    obtain ⟨rfl, rfl⟩ : dir = dir' ∧ core ++ rest = name := by
      simpa using hdir.symm.trans hsplit'
    exact hname (mem_of_getLast? hend)
  · intro hend
    have hnil : rest = [] := by
      by_contra hrest'
      apply hend
      rw [getLast?_append_of_ne_nil _ hrest', getLast?_eq_some_getLast hrest',
        hrest _ (getLast_mem hrest')]
    subst hnil
    rw [append_nil] at hdir
    exact ⟨dir, core, hdir, hcore, htokens, habs⟩

end Split

end Osx64.Vfs
