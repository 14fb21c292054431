import Mathlib.Algebra.BigOperators.Group.Finset.Basic
import Osx64.Fs.Fd

/-!
# The data of open files

What the file objects refer to is kept apart from the descriptors in `Fs/Fd.lean`.  The calls
neither lose nor invent any of it: the data of the files that are open afterwards, together with
the data of those that have been freed, is the data from before and that of the new files.
-/

namespace Osx64.Fd

open Function Option Multiset State

variable {φ : Type} {st st' : State φ} {ptr : Ptr} {f : Nat}

/-- The data of a file object, if there is one. -/
def dataOf (file : Option (File φ)) : Multiset φ := file.elim 0 fun file => {file.data}

/-- The data of all file objects. -/
def State.files (st : State φ) : Multiset φ := ∑ f ∈ Finset.range st.next, dataOf (st.file f)

/-- Numbers that have not been given out have no file. -/
def State.Fresh (st : State φ) : Prop := ∀ f, st.next ≤ f → st.file f = none

/-! ## Single objects -/

variable (st st') in
theorem files_update {v : Option (File φ)} (hnext : st'.next = st.next)
    (hfile : st'.file = update st.file f v) (hf : f < st.next) :
    st'.files + dataOf (st.file f) = st.files + dataOf v := by
  have hmem : f ∈ Finset.range st.next := Finset.mem_range.mpr hf
  have hrest : ∑ g ∈ (Finset.range st.next).erase f, dataOf (st'.file g) =
      ∑ g ∈ (Finset.range st.next).erase f, dataOf (st.file g) :=
    Finset.sum_congr rfl fun g hg => by
      rw [hfile, update_of_ne (Finset.ne_of_mem_erase hg)]
  rw [State.files, State.files, hnext, ← Finset.add_sum_erase _ _ hmem, hrest,
    ← Finset.add_sum_erase _ (fun g => dataOf (st.file g)) hmem, hfile, update_self]
  simp only [add_comm, add_left_comm]

theorem files_newFile (hfresh : st.Fresh) (data : φ) :
    (st.newFile data).files = st.files + {data} ∧ (st.newFile data).Fresh := by
  refine ⟨?_, fun f hf => ?_⟩
  · rw [State.files, newFile, Finset.sum_range_succ]
    dsimp only
    rw [update_self]
    refine congrArg (· + ({data} : Multiset φ)) ?_
    exact Finset.sum_congr rfl fun f hf => by
      rw [update_of_ne (Finset.mem_range.mp hf).ne]
  · have hne : f ≠ st.next := by
      rintro rfl
      exact absurd hf (Nat.not_succ_le_self _)
    rw [newFile]
    exact (update_of_ne hne _ _).trans (hfresh f (Nat.le_of_succ_le hf))

theorem State.Fresh.lt (h : st.Fresh) {file : File φ} (hfile : st.file f = some file) :
    f < st.next := by
  by_contra hlt
  rw [h f (Nat.le_of_not_lt hlt)] at hfile
  cases hfile

/-- The outcome of a function: the data from before is still there or gone. -/
structure Kept (st st' : State φ) (gone : List φ) : Prop where
  files : st'.files + ↑gone = st.files
  fresh : st'.Fresh

theorem Kept.of_eq (hfresh : st.Fresh) (hfile : st'.file = st.file) (hnext : st'.next = st.next) :
    Kept st st' [] where
  files := by rw [State.files, State.files, hfile, hnext, coe_nil, add_zero]
  fresh f hf := by rw [hfile]; exact hfresh f (hnext ▸ hf)

theorem Kept.trans {st'' : State φ} {gone gone' : List φ} (h : Kept st st' gone)
    (h' : Kept st' st'' gone') : Kept st st'' (gone ++ gone') where
  files := by
    rw [← h.files, ← h'.files, ← coe_add]
    simp only [add_assoc, add_comm]
  fresh := h'.fresh

/-- The same of a function that leaves the processes as they are. -/
structure Carried (st st' : State φ) (gone : List φ) : Prop extends Kept st st' gone where
  live : st'.live = st.live

theorem Carried.of_eq (hfresh : st.Fresh) (hfile : st'.file = st.file)
    (hnext : st'.next = st.next) (hlive : st'.live = st.live) : Carried st st' [] :=
  ⟨.of_eq hfresh hfile hnext, hlive⟩

theorem Carried.trans {st'' : State φ} {gone gone' : List φ} (h : Carried st st' gone)
    (h' : Carried st' st'' gone') : Carried st st'' (gone ++ gone') :=
  ⟨h.toKept.trans h'.toKept, h'.live.trans h.live⟩

theorem State.Fresh.update (h : st.Fresh) (hf : f < st.next) {v : Option (File φ)}
    (hnext : st'.next = st.next) (hfile : st'.file = update st.file f v) : st'.Fresh := by
  intro g hg
  rw [hnext] at hg
  rw [hfile, update_of_ne (by omega), h g hg]

theorem kept_vfsClose {r : State φ × List φ} (hfresh : st.Fresh)
    (h : st.vfsClose ptr = some r) : Carried st r.1 r.2 := by
  unfold vfsClose at h
  split at h
  · cases h
  next f =>
  split at h
  · cases h
  next file hfile =>
  have hlt := hfresh.lt hfile
  split at h
  · cases h
    have hfiles := files_update st { st with
      file := update st.file f none, released := st.released ++ [f] } rfl rfl hlt
    rw [hfile] at hfiles
    exact ⟨⟨hfiles.trans (add_zero _), hfresh.update hlt rfl rfl⟩, rfl⟩
  · cases h
    have hfiles := files_update st { st with
      file := update st.file f (some { file with refcount := file.refcount - 1 }) } rfl rfl hlt
    rw [hfile] at hfiles
    exact ⟨⟨(add_zero _).trans (add_right_cancel hfiles), hfresh.update hlt rfl rfl⟩, rfl⟩

theorem kept_incRef (hfresh : st.Fresh) (h : st.incRef ptr = some st') :
    Carried st st' [] := by
  unfold incRef at h
  split at h
  · cases h
  next f =>
  obtain ⟨file, hfile, rfl⟩ := map_eq_some_iff.mp h
  have hlt := hfresh.lt hfile
  have hfiles := files_update st { st with
    file := update st.file f (some { file with refcount := file.refcount + 1 }) } rfl rfl hlt
  rw [hfile] at hfiles
  exact ⟨⟨(add_zero _).trans (add_right_cancel hfiles), hfresh.update hlt rfl rfl⟩, rfl⟩

/-- A descriptor comes to hold a file that is open already. -/
theorem kept_share {x : Nat × Nat} {v : Option Ptr} (hfresh : st.Fresh)
    (h : (st.setSlot x v).incRef ptr = some st') : Carried st st' [] := by
  have hinc : Carried (st.setSlot x v) st' [] := kept_incRef hfresh h
  exact ⟨⟨hinc.files, hinc.fresh⟩, hinc.live⟩

/-! ## Calls -/

variable {p child : Nat} {r : Result φ} {opened : Option φ} {is : List Nat} {fd : Int}

theorem kept_fdClose (hfresh : st.Fresh) (h : st.fdClose p fd = some r) :
    Carried st r.st r.gone := by
  unfold fdClose at h
  split at h
  · cases h
    exact .of_eq hfresh rfl rfl rfl
  · obtain ⟨s, hs, rfl⟩ := map_eq_some_iff.mp h
    have hslot : Carried st (st.setSlot (p, fd.toNat) none) [] := .of_eq hfresh rfl rfl rfl
    exact hslot.trans (kept_vfsClose hfresh hs)

theorem kept_closeEach {r : State φ × List φ} (hfresh : st.Fresh)
    (h : st.closeEach p is = some r) : Carried st r.1 r.2 := by
  induction is generalizing st r with
  | nil =>
    cases h
    exact .of_eq hfresh rfl rfl rfl
  | cons i rest ih =>
    obtain ⟨a, ha, hrest⟩ := bind_eq_some_iff.mp h
    obtain ⟨b, hb, rfl⟩ := map_eq_some_iff.mp hrest
    have hclose := kept_fdClose hfresh ha
    exact hclose.trans (ih hclose.fresh hb)

theorem kept_copyEach (hfresh : st.Fresh) (h : st.copyEach p child is = some st') :
    Carried st st' [] := by
  induction is generalizing st with
  | nil =>
    cases h
    exact .of_eq hfresh rfl rfl rfl
  | cons i rest ih =>
    obtain ⟨a, ha, hrest⟩ := bind_eq_some_iff.mp h
    have hcopy : Carried st a [] := by
      unfold copySlot at ha
      split at ha
      · cases ha
        exact .of_eq hfresh rfl rfl rfl
      · exact kept_share hfresh ha
    exact hcopy.trans (ih hcopy.fresh hrest)

/-- The data that a call brings in, if it gets as far as making a file object. -/
structure Gained (st st' : State φ) (new : Multiset φ) (gone : List φ) : Prop where
  files : st'.files + ↑gone = st.files + new
  fresh : st'.Fresh

theorem Kept.gained {gone : List φ} (h : Kept st st' gone) : Gained st st' 0 gone :=
  ⟨h.files.trans (add_zero _).symm, h.fresh⟩

theorem Gained.trans {st'' : State φ} {new : Multiset φ} {gone gone' : List φ}
    (h : Gained st st' new gone) (h' : Kept st' st'' gone') :
    Gained st st'' new (gone ++ gone') where
  files := by
    rw [← h.files, ← h'.files, ← coe_add]
    simp only [add_assoc, add_comm]
  fresh := h'.fresh

theorem gained_sysOpen (hfresh : st.Fresh) (h : st.sysOpen p opened = some r) :
    Gained st r.st (opened.elim 0 fun data => {data}) r.gone ∧ r.st.live = st.live := by
  unfold sysOpen at h
  cases opened with
  | none =>
    cases h
    exact ⟨(Kept.of_eq hfresh rfl rfl).gained, rfl⟩
  | some data =>
    obtain ⟨hfiles, hfresh'⟩ := files_newFile hfresh data
    have hnew : Gained st (st.newFile data) {data} [] := ⟨(add_zero _).trans hfiles, hfresh'⟩
    dsimp only at h
    split at h
    · obtain ⟨s, hs, rfl⟩ := map_eq_some_iff.mp h
      have hclose := kept_vfsClose hfresh' hs
      exact ⟨hnew.trans hclose.toKept, hclose.live⟩
    · cases h
      exact ⟨hnew.trans (.of_eq hfresh' rfl rfl), rfl⟩

/-- `sys_pipe` makes both files or none. -/
theorem gained_sysPipe (reader writer : φ) (hfresh : st.Fresh) :
    ∃ new : Multiset φ, (∀ x ∈ new, x = reader ∨ x = writer) ∧
      Gained st (st.sysPipe p reader writer).st new (st.sysPipe p reader writer).gone := by
  have hnone : ∀ st', st'.file = st.file → st'.next = st.next →
      ∃ new : Multiset φ, (∀ x ∈ new, x = reader ∨ x = writer) ∧ Gained st st' new [] :=
    fun st' hfile hnext => ⟨0, fun x hx => absurd hx (notMem_zero x),
      (Kept.of_eq hfresh hfile hnext).gained⟩
  unfold sysPipe
  split
  · exact hnone st rfl rfl
  next a _ =>
  dsimp only
  split
  · exact hnone _ rfl rfl
  have hfresh₁ : (st.setSlot (p, a) (some .fake)).Fresh := hfresh
  obtain ⟨hfiles, hfresh₂⟩ := files_newFile hfresh₁ reader
  obtain ⟨hfiles', hfresh₃⟩ := files_newFile hfresh₂ writer
  refine ⟨{reader} + {writer}, fun x hx => ?_, ?_, hfresh₃⟩
  · rcases mem_add.mp hx with hx | hx
    · exact .inl (mem_singleton.mp hx)
    · exact .inr (mem_singleton.mp hx)
  · rw [coe_nil, add_zero, ← add_assoc]
    exact hfiles'.trans (congrArg (· + ({writer} : Multiset φ)) hfiles)

theorem kept_sysDup (hfresh : st.Fresh) (h : st.sysDup p fd = some r) :
    Carried st r.st r.gone := by
  unfold sysDup at h
  split at h
  · cases h
    exact .of_eq hfresh rfl rfl rfl
  · split at h
    · cases h
      exact .of_eq hfresh rfl rfl rfl
    · obtain ⟨s, hs, rfl⟩ := map_eq_some_iff.mp h
      exact kept_share hfresh hs

theorem kept_sysDup2 {oldfd newfd : Int} (hfresh : st.Fresh)
    (h : st.sysDup2 p oldfd newfd = some r) : Carried st r.st r.gone := by
  have hstay : Carried st st [] := .of_eq hfresh rfl rfl rfl
  unfold sysDup2 at h
  split at h
  · cases h
    exact hstay
  split at h
  · cases h
    exact hstay
  split at h
  · cases h
    exact hstay
  split at h
  · cases h
    exact hstay
  · obtain ⟨a, ha, hrest⟩ := bind_eq_some_iff.mp h
    obtain ⟨s, hs, rfl⟩ := map_eq_some_iff.mp hrest
    have hclose := kept_fdClose hfresh ha
    have hall := hclose.trans (kept_share hclose.fresh hs)
    rwa [List.append_nil] at hall

theorem kept_forkEnter (hfresh : st.Fresh) (h : st.forkEnter p child = some r) :
    Kept st r.st r.gone := by
  unfold forkEnter at h
  split at h
  · cases h
    exact .of_eq hfresh rfl rfl
  · obtain ⟨s, hs, rfl⟩ := map_eq_some_iff.mp h
    have hcopy : Carried (st.putThread child false) s [] := kept_copyEach hfresh hs
    exact ⟨hcopy.files, hcopy.fresh⟩

theorem kept_freeTask (hfresh : st.Fresh) (h : st.freeTask p = some r) :
    Kept st r.st r.gone := by
  obtain ⟨s, hs, rfl⟩ := map_eq_some_iff.mp h
  have hclose := kept_closeEach hfresh hs
  exact ⟨hclose.files, hclose.fresh⟩

/-- A call of `sys_open` that gives a descriptor frees nothing. -/
theorem gone_sysOpen (h : st.sysOpen p opened = some r) (hret : ¬r.ret < 0) : r.gone = [] := by
  unfold sysOpen at h
  cases opened with
  | none =>
    cases h
    rfl
  | some data =>
    dsimp only at h
    split at h
    · obtain ⟨s, hs, rfl⟩ := map_eq_some_iff.mp h
      exact absurd (show (-1 : Int) < 0 by decide) hret
    · cases h
      rfl

theorem gained_sysExecv {argsOk executable : Bool}
    (hfresh : st.Fresh) (h : st.sysExecv p argsOk opened executable = some r) :
    Gained st r.st (if argsOk then opened.elim 0 fun data => {data} else 0) r.gone ∧
      r.st.live = st.live := by
  unfold sysExecv at h
  split at h
  · next hargs =>
    cases h
    rw [hargs]
    exact ⟨(Kept.of_eq hfresh rfl rfl).gained, rfl⟩
  next hargs =>
  rw [Bool.eq_true_of_not_eq_false hargs]
  obtain ⟨o, ho, h⟩ := bind_eq_some_iff.mp h
  obtain ⟨hopen, hlive⟩ := gained_sysOpen hfresh ho
  split at h
  · cases h
    exact ⟨hopen, hlive⟩
  next hret =>
  obtain ⟨c, hc, h⟩ := bind_eq_some_iff.mp h
  have hfd := kept_fdClose hopen.fresh hc
  have hclose := hopen.trans hfd.toKept
  rw [gone_sysOpen ho hret, List.nil_append] at hclose
  split at h
  · cases h
    exact ⟨hclose, hfd.live.trans hlive⟩
  · obtain ⟨s, hs, rfl⟩ := map_eq_some_iff.mp h
    have heach := kept_closeEach hclose.fresh hs
    have hall := hclose.trans heach.toKept
    exact ⟨⟨hall.files, hall.fresh⟩, heach.live.trans (hfd.live.trans hlive)⟩

/-! ## Processes -/

theorem live_sysPipe {reader writer : φ} : (st.sysPipe p reader writer).st.live = st.live := by
  unfold sysPipe
  split
  · rfl
  · dsimp only
    split <;> rfl

/-- The processes after a call. -/
def Event.survivors (st : State φ) : Event φ → Finset Nat
  | .spawn p => insert p st.live
  | .fork p child => if st.isKer p then st.live else insert child st.live
  | .reap p => st.live.erase p
  | _ => st.live

theorem live_exec {e : Event φ} (hfresh : st.Fresh) (h : exec st e = some r) :
    r.st.live = e.survivors st := by
  cases e with
  | spawn p =>
    cases h
    rfl
  | «open» p opened => exact (gained_sysOpen hfresh h).2
  | close p fd => exact (kept_fdClose hfresh h).live
  | pipe p reader writer =>
    cases h
    exact live_sysPipe
  | dup p fd => exact (kept_sysDup hfresh h).live
  | dup2 p oldfd newfd => exact (kept_sysDup2 hfresh h).live
  | fork p child =>
    change st.forkEnter p child = some r at h
    unfold forkEnter at h
    split at h
    · next hker =>
      cases h
      exact (if_pos hker).symm
    · next hker =>
      obtain ⟨s, hs, rfl⟩ := map_eq_some_iff.mp h
      have hchild : (st.putThread child false).Fresh := hfresh
      exact (kept_copyEach hchild hs).live.trans (if_neg hker).symm
  | execv p argsOk opened executable => exact (gained_sysExecv hfresh h).2
  | reap p =>
    obtain ⟨s, hs, rfl⟩ := map_eq_some_iff.mp h
    exact congrArg (Finset.erase · p) (kept_closeEach hfresh hs).live

end Osx64.Fd
