import Osx64.Mm.PageTree

/-!
# Page tables as a partial map

What a root translates is a partial map from pages to frames.  `put_page_4k` adds one page to it,
`rm_page_4k` takes one away, and `exist_page_4k` asks whether one is there, in every state that
calls of these functions, of `put_page_2M`, `io_remap` and `io_unmap` can lead to.  Several roots
may share tables, as the address spaces of the kernel share those of the upper half.
-/

namespace Osx64.Mm

open TableTree List Option

variable {phy type usrDefine t n : Nat} {p ls : List Nat}

section Ops

variable {m m' : Machine} {roots : Nat → Prop} {r v : Nat}

/-! ## One call -/

/-- The path to the last entry for an address. -/
theorem indices_eq_append (h : Canonical v) :
    indices v = [layer0 v, layer1 v, layer2 v] ++ layer3 v :: [] :=
  indices_of_canonical h

/-- A path of the same length passes an entry of the last table only if it ends there. -/
theorem eq_of_indices_append {w : Nat} (hv : Canonical v) {q : List Nat}
    (h : indices w = [layer0 v, layer1 v, layer2 v] ++ layer3 v :: q) : indices w = indices v := by
  cases q with
  | nil => rw [h, indices_eq_append hv]
  | cons j q => cases congrArg length h

section

variable (h : TablesOk m roots) (hr : roots r)
include h hr

/-- `__put_page_4k_locked` writes the last entry for the address, and changes nothing else that can
be found. -/
theorem TablesOk.putPage4kLocked
    (hv : Canonical v) (hput : putPage4kLocked m phy v r type usrDefine = .ok m') :
    TablesOk m' roots ∧
      find decode m'.mem 3 r (indices v) =
        (if isPresent (phy ||| itemType type usrDefine)
          then some (phy ||| itemType type usrDefine, []) else none) ∧
      ∀ r' w, roots r' → indices w ≠ indices v →
        find decode m'.mem 3 r' (indices w) = find decode m.mem 3 r' (indices w) := by
  unfold Mm.putPage4kLocked at hput
  split at hput
  · cases hput
  obtain ⟨⟨t, m₁⟩, hdescend, hput⟩ := bind_eq_ok.mp hput
  obtain ⟨h₁, ht, hfind, hext⟩ := h.descend (p := []) (isLink_link4k type) hr rfl (by simp) hdescend
  split at hput
  · cases hput
  cases hput
  rw [nil_append] at ht
  refine ⟨h₁.write hr ht (next_decode_zero _) (fun hlen => absurd hlen (by simp)), ?_,
    fun r' w hr' hw => ?_⟩
  · rw [indices_eq_append hv, find_write_through h₁.forest hr ht]
    have hlevel : 3 - [layer0 v, layer1 v, layer2 v].length = 0 := rfl
    rw [hlevel]
    generalize phy ||| itemType type usrDefine = e
    cases hpresent : isPresent e with
    | true =>
      rw [decode_leaf hpresent]
      rfl
    | false =>
      rw [decode_of_not_present hpresent]
      rfl
  · exact (path_write h₁.forest hr hr' ht fun hq =>
      hq.elim fun _ hq => hw (eq_of_indices_append hv hq.1)).2.trans (hfind r' _ hr')

/-- The loop of `rm_page_4k` follows the pointers. -/
theorem TablesOk.follow {s : Nat}
    (ht : reach decode m.mem 3 r p = some t) (hlen : p.length + ls.length ≤ 3)
    (hfollow : follow m.mem ls t = .ok s) : reach decode m.mem 3 r (p ++ ls) = some s := by
  induction ls generalizing p t with
  | nil =>
    cases hfollow
    rwa [append_nil]
  | cons l ls ih =>
    rw [length_cons] at hlen
    rw [Mm.follow] at hfollow
    split at hfollow
    · next hpresent =>
      obtain ⟨hpresent, hbig⟩ := hpresent
      rcases h.dir r p t l hr ht (by omega) hpresent with ⟨hbig', _⟩ | ⟨hbig', hbound⟩
      · exact absurd hbig' hbig
      · have hnext : reach decode m.mem 3 r (p ++ [l]) = some (m.mem t l / 4096) := by
          rw [reach_append_of_reach ht, reach, decode_table (by omega) hpresent hbig' hbound]
          rfl
        have hs := ih hnext (by rw [length_append, length_singleton]; omega) hfollow
        rwa [append_assoc, singleton_append] at hs
    · cases hfollow

theorem TablesOk.rmPage4k (hv : Canonical v) (hrm : rmPage4k m v r = .ok m') :
    TablesOk m' roots ∧ find decode m'.mem 3 r (indices v) = none ∧
      ∀ r' w, roots r' → indices w ≠ indices v →
        find decode m'.mem 3 r' (indices w) = find decode m.mem 3 r' (indices w) := by
  unfold Mm.rmPage4k at hrm
  split at hrm
  · cases hrm
  cases hfollow : Mm.follow m.mem [layer0 v, layer1 v, layer2 v] r with
  | error halt =>
    rw [hfollow] at hrm
    cases hrm
  | ok t =>
    have ht := h.follow (p := []) hr rfl (by simp) hfollow
    rw [hfollow] at hrm
    simp only [Except.bind] at hrm
    split at hrm
    · cases hrm
      rw [nil_append] at ht
      refine ⟨h.write hr ht (next_decode_zero _) (fun hlen => absurd hlen (by simp)), ?_,
        fun r' w hr' hw => ?_⟩
      · rw [indices_eq_append hv, find_write_through h.forest hr ht]
        rfl
      · exact (path_write h.forest hr hr' ht fun hq =>
          hq.elim fun _ hq => hw (eq_of_indices_append hv hq.1)).2
    · cases hrm

theorem TablesOk.putPage2M (hput : putPage2M m phy v r = .ok m') : TablesOk m' roots := by
  unfold Mm.putPage2M at hput
  split at hput
  · cases hput
  next halign =>
  obtain ⟨⟨t, m₁⟩, hdescend, hput⟩ := bind_eq_ok.mp hput
  obtain ⟨h₁, ht, _, _⟩ := h.descend (p := []) isLink_link2M hr rfl (by simp) hdescend
  cases hput
  have hentry : isPresent (phy ||| pageKernel2M) = true ∧ isBig (phy ||| pageKernel2M) = true := by
    rw [or_flags (by omega) (by decide)]
    unfold isPresent isBig pageKernel2M
    rw [decide_eq_true_eq, decide_eq_true_eq]
    omega
  refine h₁.write hr ht ?_ fun _ _ => .inl ⟨hentry.2, rfl⟩
  change (decode 1 (phy ||| pageKernel2M)).next = none
  rw [decode_bigLeaf hentry.1 hentry.2]
  rfl

/-- `exist_page_4k` finds what the processor finds. -/
theorem TablesOk.existPage
    (ht : reach decode m.mem 3 r p = some t) (hlen : p.length + ls.length = 4) (hne : ls ≠ []) :
    existPage m.mem ls t =
      if (find decode m.mem (3 - p.length) t ls).isSome then 1 else 0 := by
  induction ls generalizing p t with
  | nil => exact absurd rfl hne
  | cons l ls ih =>
    rw [length_cons] at hlen
    rw [Mm.existPage, find]
    by_cases hpresent : isPresent (m.mem t l) = true
    · rw [if_pos hpresent]
      by_cases hls : ls = []
      · -- the last level
        have hlevel : 3 - p.length = 0 := by
          rw [hls, length_nil] at hlen
          omega
        rw [if_neg (by simp [hls]), hlevel, decode_leaf hpresent, hls]
        rfl
      · have hlen' : p.length < 3 := by
          have := length_pos_of_ne_nil hls
          omega
        rcases h.dir r p t l hr ht hlen' hpresent with ⟨hbig, hdepth⟩ | ⟨hbig, hbound⟩
        · rw [if_pos ⟨hls, hbig⟩, hdepth, decode_bigLeaf hpresent hbig]
          rfl
        · have hslot : decode (3 - p.length) (m.mem t l) = .table (m.mem t l / 4096) :=
            decode_table (by omega) hpresent hbig hbound
          rw [if_neg (by simp [hbig]), hslot]
          have hnext : reach decode m.mem 3 r (p ++ [l]) = some (m.mem t l / 4096) := by
            rw [reach_append_of_reach ht, reach, hslot]
            rfl
          have hlast := ih hnext (by rw [length_append, length_singleton]; omega) hls
          rwa [length_append, length_singleton, ← Nat.sub_sub] at hlast
    · have hpresent := Bool.not_eq_true _ ▸ hpresent
      rw [if_neg (by simp [hpresent]), decode_of_not_present hpresent]
      rfl

theorem TablesOk.existPage4k (hv : Canonical v) (halign : v % 4096 = 0) :
    existPage4k m v r = .ok (if (walk m r v).isSome then 1 else 0) := by
  have hexist := h.existPage (p := []) hr rfl (rfl : 0 + (indices v).length = 4) nofun
  rw [indices_of_canonical hv] at hexist
  rw [Mm.existPage4k, if_neg (by omega), walk, isSome_map, indices_of_canonical hv, hexist]
  rfl

/-! ## Mapping and unmapping a window -/

theorem TablesOk.ioRemapPages (hcanonical : ∀ k < n, Canonical (v + k * 4096))
    (hmap : ioRemapPages m phy v r n = .ok m') : TablesOk m' roots := by
  induction n generalizing m' with
  | zero =>
    cases hmap
    exact h
  | succ n ih =>
    rw [Mm.ioRemapPages] at hmap
    obtain ⟨m₁, hbefore, hmap⟩ := bind_eq_ok.mp hmap
    have h₁ := ih (fun k hk => hcanonical k (by omega)) hbefore
    exact (h₁.putPage4kLocked hr (hcanonical n (by omega)) hmap).1

theorem TablesOk.ioRemap {size vir : Nat}
    (hmap : ioRemap m phy size r = .ok (vir, m')) : TablesOk m' roots := by
  unfold Mm.ioRemap at hmap
  dsimp only at hmap
  split at hmap
  · cases hmap
    exact h
  · next page hfound =>
    split at hfound
    · cases hfound
    next hpos =>
    have hrun := Scan.isRun_of_firstRun hfound
    obtain ⟨m₁, hpages, hmap⟩ := bind_eq_ok.mp hmap
    cases hmap
    refine h.ioRemapPages hr (fun k hk => .inr ?_) hpages
    obtain ⟨hlo, hhi, _⟩ := hrun
    unfold ioRemapEnd ioRemapStart virtualAddr0 at hhi
    unfold ioRemapStart virtualAddr0 at hlo
    unfold virtualAddr0
    omega

theorem TablesOk.ioUnmapPages (hcanonical : ∀ k < n, Canonical (u64 (v + k * 4096)))
    (hunmap : ioUnmapPages m v r n = .ok m') : TablesOk m' roots := by
  induction n generalizing m' with
  | zero =>
    cases hunmap
    exact h
  | succ n ih =>
    rw [Mm.ioUnmapPages] at hunmap
    obtain ⟨m₁, hbefore, hunmap⟩ := bind_eq_ok.mp hunmap
    have h₁ := ih (fun k hk => hcanonical k (by omega)) hbefore
    exact (h₁.rmPage4k hr (hcanonical n (by omega)) hunmap).1

end

end Ops

/-! ## Runs -/

inductive TableOp where
  | putPage4k (phy vir cr3 type : Nat)
  | putPage2M (phy vir cr3 : Nat)
  | rmPage4k (vir cr3 : Nat)
  | ioRemap (phy size : Nat)
  | ioUnmap (vir size : Nat)

/-- The calls are for roots and canonical addresses. -/
def TableOp.Allowed (roots : Nat → Prop) : TableOp → Prop
  | .putPage4k _ vir cr3 _ => roots cr3 ∧ Canonical vir
  | .putPage2M _ vir cr3 => roots cr3 ∧ Canonical vir
  | .rmPage4k vir cr3 => roots cr3 ∧ Canonical vir
  | .ioRemap _ _ => True
  | .ioUnmap vir size =>
    ∀ k < u64 (size + vir % 4096 + 4095) / 4096, Canonical (u64 (pageDown vir + k * 4096))

/-- `kernel` is `vir_ptable4`. -/
def TableOp.run (kernel : Nat) (m : Machine) : TableOp → Except Halt Machine
  | .putPage4k phy vir cr3 type => Mm.putPage4k m phy vir cr3 type
  | .putPage2M phy vir cr3 => Mm.putPage2M m phy vir cr3
  | .rmPage4k vir cr3 => Mm.rmPage4k m vir cr3
  | .ioRemap phy size => (Mm.ioRemap m phy size kernel).map Prod.snd
  | .ioUnmap vir size => Mm.ioUnmap m vir size kernel

def TableStep (roots : Nat → Prop) (kernel : Nat) (m m' : Machine) : Prop :=
  ∃ op : TableOp, op.Allowed roots ∧ op.run kernel m = .ok m'

section Runs

variable {m m' : Machine} {roots : Nat → Prop} {kernel : Nat}

theorem TablesOk.step (h : TablesOk m roots) (hkernel : roots kernel)
    (hstep : TableStep roots kernel m m') : TablesOk m' roots := by
  obtain ⟨op, hallowed, hrun⟩ := hstep
  cases op with
  | putPage4k phy vir cr3 type => exact (h.putPage4kLocked hallowed.1 hallowed.2 hrun).1
  | putPage2M phy vir cr3 => exact h.putPage2M hallowed.1 hrun
  | rmPage4k vir cr3 => exact (h.rmPage4k hallowed.1 hallowed.2 hrun).1
  | ioRemap phy size =>
    rw [TableOp.run] at hrun
    obtain ⟨res, hmap, hrun⟩ := bind_eq_ok.mp hrun
    cases hrun
    exact h.ioRemap hkernel hmap
  | ioUnmap vir size => exact h.ioUnmapPages hkernel hallowed hrun

theorem TablesOk.run (h : TablesOk m roots) (hkernel : roots kernel)
    (hrun : Relation.ReflTransGen (TableStep roots kernel) m m') : TablesOk m' roots := by
  induction hrun with
  | refl => exact h
  | tail _ hstep ih => exact ih.step hkernel hstep

end Runs

/-! ## The partial map -/

theorem walk_congr {m m' : Machine} {r v : Nat}
    (h : find decode m'.mem 3 r (indices v) = find decode m.mem 3 r (indices v)) :
    walk m' r v = walk m r v := by
  rw [walk, walk, h]

theorem isPresent_item (hphy : phy % 4096 = 0) :
    isPresent (phy ||| itemType type 0) = decide (type ≤ 2) := by
  rw [or_flags hphy]
  · unfold itemType pageKernel4k pageUser4k pageUser4kCopyOnWrite u16 isPresent
    split_ifs <;> simp <;> omega
  · unfold itemType pageKernel4k pageUser4k pageUser4kCopyOnWrite u16
    split_ifs <;> omega

theorem itemType_lt (type : Nat) : itemType type 0 < 4096 := by
  unfold itemType pageKernel4k pageUser4k pageUser4kCopyOnWrite u16
  split_ifs <;> omega

/-- In every state that the calls lead to, `put_page_4k` with one of its three types maps the page
and nothing else, `rm_page_4k` unmaps it and nothing else, and `exist_page_4k` tells whether it is
mapped.  With another type `put_page_4k` writes an entry without flags, which maps nothing. -/
theorem pageTable_partialMap {m₀ m : Machine} {roots : Nat → Prop} {kernel cr3 v : Nat}
    (hok : TablesOk m₀ roots) (hkernel : roots kernel)
    (hrun : Relation.ReflTransGen (TableStep roots kernel) m₀ m) (hroot : roots cr3)
    (halign : v % 4096 = 0) (hv : Canonical v) :
    (∀ phy type m', phy % 4096 = 0 → phy < 2 ^ 52 → putPage4k m phy v cr3 type = .ok m' →
      walk m' cr3 v = (if type ≤ 2 then some (phy, itemType type 0) else none) ∧
      ∀ w, w % 4096 = 0 → Canonical w → w ≠ v → walk m' cr3 w = walk m cr3 w) ∧
    (∀ m', rmPage4k m v cr3 = .ok m' →
      walk m' cr3 v = none ∧
      ∀ w, w % 4096 = 0 → Canonical w → w ≠ v → walk m' cr3 w = walk m cr3 w) ∧
    (existPage4k m v cr3 = .ok 1 ↔ (walk m cr3 v).isSome) := by
  have h := hok.run hkernel hrun
  have hother {w : Nat} (hwalign : w % 4096 = 0) (hw : Canonical w) (hne : w ≠ v) :
      indices w ≠ indices v := fun heq => hne (eq_of_indices_eq hw hv hwalign halign heq)
  refine ⟨fun phy type m' hphy hbound hput => ?_, fun m' hrm => ?_, ?_⟩
  · obtain ⟨_, hfind, hframe⟩ := h.putPage4kLocked hroot hv hput
    refine ⟨?_, fun w hwalign hw hne => walk_congr (hframe cr3 w hroot (hother hwalign hw hne))⟩
    rw [walk, hfind, isPresent_item hphy]
    by_cases htype : type ≤ 2
    · have hitem := itemType_lt type
      simp only [htype, decide_true, if_true, map_some, leafAddr]
      rw [or_flags hphy hitem, some_inj, Prod.mk.injEq]
      omega
    · simp [htype]
  · obtain ⟨_, hfind, hframe⟩ := h.rmPage4k hroot hv hrm
    refine ⟨by rw [walk, hfind]; rfl, fun w hwalign hw hne => ?_⟩
    exact walk_congr (hframe cr3 w hroot (hother hwalign hw hne))
  · rw [h.existPage4k hroot hv halign]
    cases hwalk : walk m cr3 v <;> simp

/-! ## An empty table -/

/-- Roots without entries are right. -/
theorem tablesOk_empty {m : Machine} {roots : Nat → Prop} (hpool : PoolOk m.pool)
    (hbelow : m.pool.Below (2 ^ 52)) (hempty : ∀ r, roots r → ∀ i, m.mem r i = 0)
    (hused : ∀ r, roots r → m.pool.mrt r ≠ 0) : TablesOk m roots := by
  have hreach {r p s} (hr : roots r) (hs : reach decode m.mem 3 r p = some s) : p = [] ∧ s = r := by
    cases p with
    | nil => exact ⟨rfl, (some_inj.mp hs).symm⟩
    | cons i p =>
      rw [reach, hempty r hr i, decode_of_not_present rfl] at hs
      cases hs
  refine ⟨hpool, hbelow, ?_, ?_, fun r p s i hr hs _ => ?_⟩
  · intro r r' s p p' hr hr' hp hp'
    rw [(hreach hr hp).1, (hreach hr' hp').1]
  · rintro s ⟨r, p, hr, hs⟩
    rw [(hreach hr hs).2]
    exact hused r hr
  · rw [(hreach hr hs).2, hempty r hr i]
    rintro ⟨⟩

/-- Eight free pages, and an empty table in page 12. -/
def sampleMachine : Machine where
  pool := ⟨0x10000, 16, 8, [⟨0x1000, 0x9000, 8, 0x1000⟩],
    fun p => if 1 ≤ p ∧ p < 9 then 0 else 0xff⟩
  mem := fun _ _ => 0

theorem sampleMachine_poolOk : PoolOk sampleMachine.pool where
  areas a ha := by
    rw [mem_singleton.mp ha]
    refine ⟨rfl, rfl, by decide, fun _ =>
      ⟨1, rfl, ⟨by decide, by decide, by decide⟩, fun q hq => ?_⟩⟩
    exact hq.1
  sorted := pairwise_singleton _ _
  pageZero := rfl

theorem sampleMachine_ok : TablesOk sampleMachine (· = 12) := by
  refine tablesOk_empty sampleMachine_poolOk (fun a ha => ?_) (fun _ _ _ => rfl) fun r hr => ?_
  · rw [mem_singleton.mp ha]
    decide
  · rw [hr]
    decide

/-- A user page is mapped. -/
theorem pageTable_partialMap_sample :
    ∃ m', putPage4k sampleMachine 0x2000 0x400000 12 1 = .ok m' ∧
      walk m' 12 0x400000 = some (0x2000, 7) := by
  have hdone : (putPage4k sampleMachine 0x2000 0x400000 12 1).toBool = true := by decide +kernel
  cases hput : putPage4k sampleMachine 0x2000 0x400000 12 1 with
  | error halt =>
    rw [hput] at hdone
    cases hdone
  | ok m' =>
    have hmap := (pageTable_partialMap sampleMachine_ok rfl .refl rfl
      (by decide : 0x400000 % 4096 = 0)
      (by decide)).1 0x2000 1 m' (by decide) (by decide) hput
    exact ⟨m', rfl, hmap.1⟩

/-- With the type for flags of the caller's own, `put_page_4k` maps nothing. -/
theorem putPage4k_noFlags :
    ∃ m', TablesOk sampleMachine (· = 12) ∧
      putPage4k sampleMachine 0x2000 0x400000 12 3 = .ok m' ∧ walk m' 12 0x400000 = none := by
  have hdone : (putPage4k sampleMachine 0x2000 0x400000 12 3).toOption.any
      (fun m' => decide (walk m' 12 0x400000 = none)) = true := by decide +kernel
  obtain ⟨m', hput, hwalk⟩ := (any_eq_true _ _).mp hdone
  refine ⟨m', sampleMachine_ok, ?_, of_decide_eq_true hwalk⟩
  cases hres : putPage4k sampleMachine 0x2000 0x400000 12 3 with
  | error halt =>
    rw [hres] at hput
    cases hput
  | ok m₁ =>
    rw [hres] at hput
    cases hput
    rfl

end Osx64.Mm
