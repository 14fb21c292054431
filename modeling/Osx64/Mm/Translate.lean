import Mathlib.Data.Finset.Card
import Osx64.Mm.PageMap

/-!
# Translating the address of a buffer

`mem_linear2phy_get` follows the tables, and maps a new page where it finds none.  Every entry that
is missing on the way to the address costs a page of the allocator, for a table or for the page
itself.  So calls for a list of addresses return exactly if there are as many free pages as missing
entries.
-/

namespace Osx64.Mm

open TableTree List Function

/-- `SLAB_START_32` -/
def slabStart32 : Nat := virtualAddr0 + 2 ^ 40

/-- The address is in the direct map. -/
def isDirect (addr : Nat) : Bool := addr < slabStart32 ∧ virtualAddr0 ≤ addr

/-- The walk of `mem_linear2phy_get`, which ends where it finds no page of 4 KiB. -/
def lookup (mem : Nat → Nat → Nat) (addr cr3 : Nat) : Option Nat :=
  let entry1 := mem cr3 (layer0 addr)
  if isPresent entry1 then
    let entry2 := mem (entry1 / 4096) (layer1 addr)
    if isPresent entry2 ∧ ¬ isBig entry2 then
      let entry3 := mem (entry2 / 4096) (layer2 addr)
      if isPresent entry3 ∧ ¬ isBig entry3 then
        let entry4 := mem (entry3 / 4096) (layer3 addr)
        if isPresent entry4 then some (entry4 / 4096 * 4096 + addr % 4096) else none
      else none
    else none
  else none

/-- `mem_linear2phy_get`; a page from `kmalloc(4096)` is one of `alloc_page_4k`. -/
def memLinear2phyGet (m : Machine) (addr cr3 : Nat) : Except Halt (Nat × Machine) :=
  if isDirect addr then .ok (addr - virtualAddr0, m)
  else
    match lookup m.mem addr cr3 with
    | some phy => .ok (phy, m)
    | none =>
      match allocPage4k m.pool with
      | .error stop => .error (.pool stop)
      | .ok (phy, pool) =>
        (putPage4k { m with pool := pool } phy (pageDown addr) cr3 1).bind fun m => .ok (phy, m)

/-- The physical addresses of several parts of a buffer, one after the other. -/
def memLinear2phyGetAll (m : Machine) (cr3 : Nat) : List Nat → Except Halt (List Nat × Machine)
  | [] => .ok ([], m)
  | addr :: addrs =>
    (memLinear2phyGet m addr cr3).bind fun r =>
      (memLinear2phyGetAll r.2 cr3 addrs).bind fun s => .ok (r.1 :: s.1, s.2)

/-! ## Entries by their path -/

/-- The path to a table and an index in it. -/
abbrev Place := List Nat × Nat

/-- What is there, if it is present. -/
def entryAt (mem : Nat → Nat → Nat) (r : Nat) (e : Place) : Option Nat :=
  (reach decode mem 3 r e.1).bind fun t => if isPresent (mem t e.2) then some (mem t e.2) else none

/-- The places below `p` on a way down. -/
def along (p : List Nat) : List Nat → Finset Place
  | [] => ∅
  | l :: ls => insert (p, l) (along (p ++ [l]) ls)

/-- The places that the walk to an address passes. -/
def onPath (addr : Nat) : Finset Place :=
  along [] [layer0 addr, layer1 addr, layer2 addr, layer3 addr]

/-- The places where there is no entry. -/
def missing (mem : Nat → Nat → Nat) (r : Nat) (es : Finset Place) : Finset Place :=
  es.filter fun e => entryAt mem r e = none

/-- No big page is in the way. -/
def Small (mem : Nat → Nat → Nat) (r : Nat) (es : Finset Place) : Prop :=
  ∀ e ∈ es, ∀ x, e.1.length < 3 → entryAt mem r e = some x → isBig x = false

/-- From `m` to `m'` the missing entries have been made, each with one page. -/
structure Filled (m m' : Machine) (r : Nat) (es : Finset Place) : Prop where
  total : m'.pool.freeTotal + (missing m.mem r es).card = m.pool.freeTotal
  filled : ∀ e ∈ es, entryAt m'.mem r e ≠ none
  entry : ∀ e, entryAt m'.mem r e = entryAt m.mem r e ∨
    e ∈ es ∧ entryAt m.mem r e = none ∧
      ∃ x, entryAt m'.mem r e = some x ∧ (e.1.length < 3 → isBig x = false)

/-- The operation makes the entries, or there are too few pages and the machine stops. -/
def Supplies {α : Type} (op : Except Halt (α × Machine)) (m : Machine)
    (roots : Nat → Prop) (r : Nat) (es : Finset Place) : Prop :=
  (∃ halt, op = .error halt) ∧ m.pool.freeTotal < (missing m.mem r es).card ∨
    ∃ a m', op = .ok (a, m') ∧ TablesOk m' roots ∧ Filled m m' r es

section Supplies

variable {α β : Type} {m m₁ m₂ m' : Machine} {roots : Nat → Prop} {r : Nat} {es es' : Finset Place}
  {op : Except Halt (α × Machine)} {f : α × Machine → Except Halt (β × Machine)}

theorem Small.filled (hsmall : Small m.mem r es') (h : Filled m m' r es) : Small m'.mem r es' := by
  intro e he x hlen hx
  rcases h.entry e with hsame | ⟨_, _, y, hy, hbig⟩
  · exact hsmall e he x hlen (hsame ▸ hx)
  · rw [hy, Option.some_inj] at hx
    exact hx ▸ hbig hlen

theorem Filled.refl (h : ∀ e ∈ es, entryAt m.mem r e ≠ none) : Filled m m r es := by
  refine ⟨?_, h, fun _ => .inl rfl⟩
  rw [missing, Finset.filter_false_of_mem h, Finset.card_empty, Nat.add_zero]

theorem Filled.missing_union (h : Filled m m₁ r es) :
    (missing m.mem r (es ∪ es')).card =
      (missing m.mem r es).card + (missing m₁.mem r es').card := by
  have hunion : missing m.mem r (es ∪ es') = missing m.mem r es ∪ missing m₁.mem r es' := by
    ext e
    simp only [missing, Finset.mem_filter, Finset.mem_union]
    have hfilled := h.filled e
    rcases h.entry e with hsame | ⟨he, hnone, _⟩
    · rw [hsame]
      tauto
    · tauto
  rw [hunion, Finset.card_union_of_disjoint]
  rw [Finset.disjoint_left]
  intro e he he'
  exact h.filled e (Finset.mem_filter.mp he).1 (Finset.mem_filter.mp he').2

theorem Filled.trans (h : Filled m m₁ r es) (h' : Filled m₁ m' r es') :
    Filled m m' r (es ∪ es') := by
  refine ⟨?_, fun e he => ?_, fun e => ?_⟩
  · have htotal := h.total
    have htotal' := h'.total
    rw [h.missing_union]
    omega
  · rcases h'.entry e with hsame | ⟨_, _, x, hx, _⟩
    · rcases Finset.mem_union.mp he with he | he
      · rw [hsame]
        exact h.filled e he
      · exact h'.filled e he
    · rw [hx]
      nofun
  · rcases h'.entry e with hsame | ⟨he, hnone, hx⟩
    · rw [hsame]
      exact (h.entry e).imp_right fun ⟨he, hnew⟩ => ⟨Finset.mem_union_left _ he, hnew⟩
    · refine .inr ⟨Finset.mem_union_right _ he, ?_, hx⟩
      rcases h.entry e with hsame | ⟨_, hnone₀, _⟩
      · rw [← hsame, hnone]
      · exact hnone₀

theorem card_missing_insert {mem : Nat → Nat → Nat} {e : Place} (hnone : entryAt mem r e = none)
    (hnot : e ∉ es) : (missing mem r (insert e es)).card = (missing mem r es).card + 1 := by
  rw [missing, Finset.filter_insert, if_pos hnone, Finset.card_insert_of_notMem]
  · rfl
  · intro he
    exact hnot (Finset.mem_filter.mp he).1

/-- With a page that was taken before, the last entry is made. -/
theorem Filled.last (h : Filled m₁ m₂ r es) {last : Place} {x : Nat} (hmem : m₁.mem = m.mem)
    (htaken : m₁.pool.freeTotal + 1 = m.pool.freeTotal) (hpool : m'.pool = m₂.pool)
    (hnone : entryAt m.mem r last = none) (hnot : last ∉ es) (hlen : last.1.length = 3)
    (hupdate : entryAt m'.mem r = update (entryAt m₂.mem r) last (some x)) :
    Filled m m' r (insert last es) := by
  refine ⟨?_, fun e he => ?_, fun e => ?_⟩
  · have htotal := h.total
    rw [hmem] at htotal
    rw [card_missing_insert hnone hnot, hpool]
    omega
  · rw [hupdate]
    by_cases hlast : e = last
    · rw [hlast, update_self]
      nofun
    · rw [update_of_ne hlast]
      exact h.filled e ((Finset.mem_insert.mp he).resolve_left hlast)
  · rw [hupdate]
    by_cases hlast : e = last
    · refine .inr ⟨Finset.mem_insert.mpr (.inl hlast), hlast ▸ hnone, x, ?_, fun hlt => ?_⟩
      · rw [hlast, update_self]
      · rw [hlast] at hlt
        omega
    · rw [update_of_ne hlast]
      have hentry := h.entry e
      rw [hmem] at hentry
      exact hentry.imp_right fun ⟨he, hnew⟩ => ⟨Finset.mem_insert_of_mem he, hnew⟩

theorem Supplies.bind (h : Supplies op m roots r es)
    (hf : ∀ a m₁, op = .ok (a, m₁) → TablesOk m₁ roots → Filled m m₁ r es →
      Supplies (f (a, m₁)) m₁ roots r es') :
    Supplies (op.bind f) m roots r (es ∪ es') := by
  rcases h with ⟨⟨halt, hop⟩, hfew⟩ | ⟨a, m₁, hop, htables, hfilled⟩
  · refine .inl ⟨⟨halt, by rw [hop]; rfl⟩, hfew.trans_le (Finset.card_le_card ?_)⟩
    exact Finset.filter_subset_filter _ Finset.subset_union_left
  · have hbind : op.bind f = f (a, m₁) := by
      rw [hop]
      rfl
    rw [hbind]
    rcases hf a m₁ hop htables hfilled with ⟨herror, hfew⟩ | ⟨b, m', hop', htables', hfilled'⟩
    · refine .inl ⟨herror, ?_⟩
      have htotal := hfilled.total
      rw [hfilled.missing_union]
      omega
    · exact .inr ⟨b, m', hop', htables', hfilled.trans hfilled'⟩

end Supplies

/-! ## The functions on tables -/

section Tables

variable {m m' : Machine} {roots : Nat → Prop} {r t l : Nat} {p : List Nat}
  {link : Machine → Nat → Nat → Nat → Machine} {flags : Nat}

theorem entryAt_of_reach {mem : Nat → Nat → Nat} (ht : reach decode mem 3 r p = some t) :
    entryAt mem r (p, l) = if isPresent (mem t l) then some (mem t l) else none := by
  rw [entryAt, ht]
  rfl

variable (m') in
/-- Only the entry at one place has changed. -/
theorem entryAt_write (h : TablesOk m roots) (hr : roots r) (ht : reach decode m.mem 3 r p = some t)
    {e : Nat} (hsame : ∀ q s, reach decode m'.mem 3 r q = some s →
      reach decode m.mem 3 r q = some s ∨ ∀ i, isPresent (m'.mem s i) = false)
    (hgrows : ∀ q s, reach decode m.mem 3 r q = some s → reach decode m'.mem 3 r q = some s)
    (hmem : ∀ s i, m.pool.mrt s ≠ 0 → m'.mem s i = TableTree.write m.mem t l e s i)
    (he : isPresent e = true) :
    entryAt m'.mem r = update (entryAt m.mem r) (p, l) (some e) := by
  funext ⟨q, i⟩
  cases hreach : reach decode m.mem 3 r q with
  | none =>
    have hne : (q, i) ≠ (p, l) := by
      intro heq
      rw [(Prod.mk.inj heq).1, ht] at hreach
      cases hreach
    rw [update_of_ne hne, entryAt, entryAt, hreach]
    cases hreach' : reach decode m'.mem 3 r q with
    | none => rfl
    | some s =>
      rcases hsame q s hreach' with hold | hempty
      · rw [hreach] at hold
        cases hold
      · simp [hempty i]
  | some s =>
    have hused := h.used s ⟨r, q, hr, hreach⟩
    rw [entryAt_of_reach (hgrows q s hreach), hmem s i hused]
    by_cases hplace : (q, i) = (p, l)
    · obtain ⟨rfl, rfl⟩ := Prod.mk.inj hplace
      rw [ht, Option.some_inj] at hreach
      rw [← hreach, write_self, if_pos he, update_self]
    · have hwrite : TableTree.write m.mem t l e s i = m.mem s i := by
        by_contra hne
        obtain ⟨rfl, rfl⟩ := eq_of_write_ne hne
        exact hplace (Prod.mk.injEq .. ▸ ⟨h.forest hr hr hreach ht, rfl⟩)
      rw [hwrite, update_of_ne hplace, entryAt_of_reach hreach]

/-- The entry for a new table is made. -/
theorem TablesOk.enter_absent (h : TablesOk m roots) (hlink : IsLink link flags) (hr : roots r)
    (ht : reach decode m.mem 3 r p = some t) (hlen : p.length < 3)
    (habsent : isPresent (m.mem t l) = false) :
    (∃ halt, Mm.enter link t l m = .error halt) ∧ m.pool.freeTotal = 0 ∨
      ∃ page m', Mm.enter link t l m = .ok (page, m') ∧ TablesOk m' roots ∧
        m'.pool.freeTotal + 1 = m.pool.freeTotal ∧
        entryAt m'.mem r = update (entryAt m.mem r) (p, l) (some (page * 4096 ||| flags)) := by
  rcases h.pool.allocPage4k_spec with ⟨halloc, htotal⟩ |
    ⟨page, pool, halloc, hfree, _, hmrt, _, _, htotal⟩
  · refine .inl ⟨⟨.pool .outOfMemory, ?_⟩, htotal⟩
    rw [Mm.enter, habsent, halloc]
    rfl
  have henter : Mm.enter link t l m =
      .ok (page, link { m with pool := pool } t l (page * 4096)) := by
    rw [Mm.enter, habsent, halloc, if_neg Bool.false_ne_true]
    dsimp only
    rw [Nat.mul_div_cancel _ (by decide : 0 < 4096)]
  rw [henter]
  obtain ⟨h', _, _, hext⟩ := h.enter hlink hr ht hlen henter
  have hne : t ≠ page := by
    rintro rfl
    exact h.used t ⟨r, p, hr, ht⟩ hfree
  have hmem := hlink.mem { m with pool := pool } t l page hne
  have hpool := hlink.pool { m with pool := pool } t l (page * 4096)
  generalize link { m with pool := pool } t l (page * 4096) = m' at h' hext hmem hpool
  refine .inr ⟨page, m', rfl, h', by rw [hpool]; exact htotal,
    entryAt_write m' h hr ht (fun q s hs => ?_) (fun q s hs => ?_) (fun s i hs => ?_)
      (hlink.isDirType.entry (p := page)).1⟩
  · -- what was not reached before is the new page, which is empty
    refine (hext.reached r q s hr hs).imp_right fun hzero i => ?_
    have hused' := h'.used s ⟨r, q, hr, hs⟩
    rw [hpool, hmrt] at hused'
    have hspage : s = page := by
      by_contra hne'
      rw [update_of_ne hne'] at hused'
      exact hused' hzero
    rw [hspage, hmem, write_of_ne hne.symm, update_self]
    rfl
  · have hnot : ¬ Reached decode m.mem 3 roots page := fun hreached => h.used page hreached hfree
    have hclear {r' q'} (hr' : roots r') := path_update_of_not_reached (q := q') hnot hr' fun _ => 0
    have hforest : IsForest decode (update m.mem page fun _ => 0) 3 roots :=
      h.forest.mono fun r' q' s' hr' hs' => (hclear hr').1 ▸ hs'
    rw [hmem]
    refine reach_write_of_reach hforest hr hr ((hclear hr).1.trans ht) ?_ ((hclear hr).1.trans hs)
    rw [update_of_ne hne, decode_of_not_present habsent]
    rfl
  · have hspage : s ≠ page := by
      rintro rfl
      exact hs hfree
    rw [hmem]
    unfold TableTree.write
    by_cases hst : s = t
    · rw [hst, update_self, update_self, update_of_ne hne]
    · rw [update_of_ne hst, update_of_ne hst, update_of_ne hspage]

/-- One level down. -/
theorem TablesOk.enter_supplies (h : TablesOk m roots) (hlink : IsLink link flags) (hr : roots r)
    (ht : reach decode m.mem 3 r p = some t) (hlen : p.length < 3)
    (hsmall : Small m.mem r {(p, l)}) : Supplies (Mm.enter link t l m) m roots r {(p, l)} := by
  have hentry := entryAt_of_reach (l := l) ht
  cases hpresent : isPresent (m.mem t l) with
  | true =>
    rw [hpresent, if_pos rfl] at hentry
    have hbig := hsmall (p, l) (Finset.mem_singleton_self _) _ hlen hentry
    rw [Mm.enter, if_pos hpresent, hbig]
    refine .inr ⟨_, m, rfl, h, .refl fun e he => ?_⟩
    rw [Finset.mem_singleton.mp he, hentry]
    nofun
  | false =>
    rw [hpresent, if_neg Bool.false_ne_true] at hentry
    have hcard : (missing m.mem r {(p, l)}).card = 1 := by
      rw [missing, Finset.filter_singleton, if_pos hentry, Finset.card_singleton]
    rcases h.enter_absent hlink hr ht hlen hpresent with ⟨herror, htotal⟩ |
      ⟨page, m', henter, h', htotal, hupdate⟩
    · exact .inl ⟨herror, by omega⟩
    · refine .inr ⟨_, m', henter, h', ⟨by rw [hcard]; exact htotal, fun e he => ?_, fun e => ?_⟩⟩
      · rw [Finset.mem_singleton.mp he, hupdate, update_self]
        nofun
      · rw [hupdate]
        by_cases he : e = (p, l)
        · refine .inr ⟨Finset.mem_singleton.mpr he, he ▸ hentry, _, ?_,
            fun _ => (hlink.isDirType.entry (p := page)).2.1⟩
          rw [he, update_self]
        · exact .inl (update_of_ne he ..)

theorem TablesOk.descend_supplies (h : TablesOk m roots) (hlink : IsLink link flags) (hr : roots r)
    (ls : List Nat) (ht : reach decode m.mem 3 r p = some t) (hlen : p.length + ls.length ≤ 3)
    (hsmall : Small m.mem r (along p ls)) :
    Supplies (Mm.descend link ls t m) m roots r (along p ls) := by
  induction ls generalizing m t p with
  | nil => exact .inr ⟨t, m, rfl, h, .refl (by simp [along])⟩
  | cons l ls ih =>
    rw [length_cons] at hlen
    have hfirst : Small m.mem r {(p, l)} := fun e he =>
      hsmall e (Finset.mem_insert.mpr (.inl (Finset.mem_singleton.mp he)))
    rw [along, Finset.insert_eq]
    refine (h.enter_supplies hlink hr ht (by omega) hfirst).bind fun s m₁ henter h₁ hfilled => ?_
    refine ih h₁ (h.enter hlink hr ht (by omega) henter).2.1
      (by rw [length_append, length_singleton]; omega) ?_
    exact Small.filled (fun e he => hsmall e (Finset.mem_insert_of_mem he)) hfilled

theorem TablesOk.reach_snoc (h : TablesOk m roots) (hr : roots r)
    (ht : reach decode m.mem 3 r p = some t) (hlen : p.length < 3) :
    reach decode m.mem 3 r (p ++ [l]) =
      if isPresent (m.mem t l) ∧ ¬ isBig (m.mem t l) then some (m.mem t l / 4096) else none := by
  rw [reach_append_of_reach ht, reach]
  split
  · next hentry =>
    rcases h.dir r p t l hr ht hlen hentry.1 with ⟨hbig, _⟩ | ⟨hbig, hbound⟩
    · exact absurd hbig hentry.2
    · rw [decode_table (by omega) hentry.1 hbig hbound]
      rfl
  · next hentry =>
    have hnext : (decode (3 - p.length) (m.mem t l)).next = none := by
      unfold decode
      split_ifs <;> first | rfl | tauto
    rw [hnext]
    rfl

/-- What leads to a table is present. -/
theorem entryAt_of_mem_along {mem : Nat → Nat → Nat} {ls : List Nat} {s : Nat} {e : Place}
    (hs : reach decode mem 3 r (p ++ ls) = some s) (he : e ∈ along p ls) :
    entryAt mem r e ≠ none := by
  induction ls generalizing p with
  | nil => cases he
  | cons l ls ih =>
    rcases Finset.mem_insert.mp he with rfl | he
    · rw [reach_append, Option.bind_eq_some_iff] at hs
      obtain ⟨t, ht, hs⟩ := hs
      rw [entryAt_of_reach ht]
      cases hpresent : isPresent (mem t l) with
      | true => nofun
      | false =>
        rw [reach, decode_of_not_present hpresent] at hs
        cases hs
    · exact ih (by rwa [append_assoc, singleton_append]) he

/-- The place of the last entry for an address. -/
def lastPlace (v : Nat) : Place := ([layer0 v, layer1 v, layer2 v], layer3 v)

theorem onPath_eq (v : Nat) :
    onPath v = insert (lastPlace v) (along [] [layer0 v, layer1 v, layer2 v]) := by
  ext e
  simp only [onPath, along, lastPlace, nil_append, cons_append, Finset.mem_insert,
    Finset.notMem_empty, or_false]
  tauto

theorem lastPlace_notMem (v : Nat) : lastPlace v ∉ along [] [layer0 v, layer1 v, layer2 v] := by
  simp [along, lastPlace]

/-- The walk of the kernel finds what is at the end of the path. -/
theorem TablesOk.lookup_eq (h : TablesOk m roots) (hr : roots r) (v : Nat) :
    lookup m.mem v r =
      (entryAt m.mem r (lastPlace v)).map fun e => e / 4096 * 4096 + v % 4096 := by
  have hnone {p q : List Nat} (hp : reach decode m.mem 3 r p = none) :
      reach decode m.mem 3 r (p ++ q) = none := by
    rw [reach_append, hp]
    rfl
  have hstop (hreach : reach decode m.mem 3 r [layer0 v, layer1 v, layer2 v] = none) :
      entryAt m.mem r (lastPlace v) = none := by
    rw [lastPlace, entryAt, hreach]
    rfl
  have h1 := h.reach_snoc (l := layer0 v) (p := []) hr rfl (by decide)
  unfold lookup
  dsimp only
  split
  · next hp1 =>
    have hbig1 : isBig (m.mem r (layer0 v)) = false := by
      rcases h.dir r [] r (layer0 v) hr rfl (by decide) hp1 with ⟨_, hdepth⟩ | ⟨hbig, _⟩
      · cases hdepth
      · exact hbig
    rw [if_pos ⟨hp1, by rw [hbig1]; nofun⟩] at h1
    have h2 := h.reach_snoc (l := layer1 v) hr h1 (by simp)
    split
    · next hp2 =>
      rw [if_pos hp2] at h2
      have h3 := h.reach_snoc (l := layer2 v) hr h2 (by simp)
      split
      · next hp3 =>
        rw [if_pos hp3] at h3
        rw [lastPlace, entryAt_of_reach (p := [layer0 v, layer1 v, layer2 v]) h3]
        split <;> rfl
      · next hp3 =>
        rw [if_neg hp3] at h3
        rw [hstop h3]
        rfl
    · next hp2 =>
      rw [if_neg hp2] at h2
      rw [hstop (hnone h2)]
      rfl
  · next hp1 =>
    rw [if_neg fun hp => hp1 hp.1] at h1
    rw [hstop (hnone h1)]
    rfl

/-- The allocator may take pages that are no tables. -/
theorem TablesOk.setPool (h : TablesOk m roots) {pool : PagePool} (hpool : PoolOk pool)
    (hlayout : pool.layout = m.pool.layout) (hused : ∀ p, m.pool.mrt p ≠ 0 → pool.mrt p ≠ 0) :
    TablesOk { m with pool := pool } roots :=
  ⟨hpool, h.below.layout hlayout, h.forest, fun s hs => hused s (h.used s hs), h.dir⟩

theorem layers_pageDown (v : Nat) :
    layer0 (pageDown v) = layer0 v ∧ layer1 (pageDown v) = layer1 v ∧
      layer2 (pageDown v) = layer2 v ∧ layer3 (pageDown v) = layer3 v := by
  unfold layer0 layer1 layer2 layer3 pageDown virtualAddr0
  refine ⟨?_, by omega, by omega, by omega⟩
  split_ifs <;> omega

/-- The last entry is made. -/
theorem TablesOk.write_last (h : TablesOk m roots) (hr : roots r)
    (ht : reach decode m.mem 3 r p = some t) (hlen : p.length = 3)
    (hlast : entryAt m.mem r (p, l) = none) {e : Nat} (he : isPresent e = true) :
    isPresent (m.mem t l) = false ∧
      TablesOk { m with mem := TableTree.write m.mem t l e } roots ∧
      entryAt (TableTree.write m.mem t l e) r = update (entryAt m.mem r) (p, l) (some e) := by
  have hlevel : 3 - p.length = 0 := by omega
  have habsent : isPresent (m.mem t l) = false := by
    rw [entryAt_of_reach ht] at hlast
    cases hpresent : isPresent (m.mem t l) with
    | false => rfl
    | true =>
      rw [hpresent] at hlast
      cases hlast
  have hnext : (decode (3 - p.length) e).next = none := by
    rw [hlevel]
    exact next_decode_zero e
  have hwrite := entryAt_write { m with mem := TableTree.write m.mem t l e } h hr ht
    (fun q s hs => .inl (reach_of_reach_write h.forest hr hr ht hnext hs))
    (fun q s hs => reach_write_of_reach h.forest hr hr ht
      (by rw [hlevel]; exact next_decode_zero _) hs) (fun _ _ _ => rfl) he
  exact ⟨habsent, h.write hr ht hnext fun hlt => absurd hlt (by omega), hwrite⟩

/-- One call of `mem_linear2phy_get`. -/
theorem TablesOk.memLinear2phyGet_supplies (h : TablesOk m roots) (hr : roots r) {v : Nat}
    (hdirect : isDirect v = false) (hsmall : Small m.mem r (onPath v)) :
    Supplies (memLinear2phyGet m v r) m roots r (onPath v) := by
  rw [memLinear2phyGet, if_neg (by rw [hdirect]; nofun), h.lookup_eq hr]
  cases hlast : entryAt m.mem r (lastPlace v) with
  | some e =>
    refine .inr ⟨_, m, rfl, h, .refl fun place hplace => ?_⟩
    rw [onPath_eq, Finset.mem_insert] at hplace
    rcases hplace with rfl | hplace
    · rw [hlast]
      nofun
    · obtain ⟨t, ht, _⟩ := Option.bind_eq_some_iff.mp hlast
      exact entryAt_of_mem_along (p := []) ht hplace
  | none =>
    rw [onPath_eq] at hsmall ⊢
    have hnot := lastPlace_notMem v
    have hcard := card_missing_insert hlast hnot
    rcases h.pool.allocPage4k_spec with ⟨halloc, htotal⟩ |
      ⟨page, pool, halloc, _, _, hmrt, hpool, hlayout, htotal⟩
    · refine .inl ⟨⟨.pool .outOfMemory, ?_⟩, by omega⟩
      rw [halloc]
      rfl
    -- the page is taken first, then the tables
    have h₁ := h.setPool hpool hlayout fun p hp => by
      rw [hmrt]
      by_cases hpage : p = page
      · rw [hpage, update_self]
        decide
      · rwa [update_of_ne hpage]
    obtain ⟨hl0, hl1, hl2, hl3⟩ := layers_pageDown v
    have halign : ¬ pageDown v % 4096 ≠ 0 := by
      unfold pageDown
      omega
    simp only [Option.map_none, halloc, putPage4k, Mm.putPage4kLocked, if_neg halign, hl0, hl1, hl2,
      hl3]
    rcases h₁.descend_supplies (p := []) (isLink_link4k 1) hr [layer0 v, layer1 v, layer2 v] rfl
      (by simp) fun e he => hsmall e (Finset.mem_insert_of_mem he) with
      ⟨⟨halt, herror⟩, hfew⟩ | ⟨t, m₂, hdescend, h₂, hfilled⟩
    · rw [herror]
      refine .inl ⟨⟨halt, rfl⟩, ?_⟩
      dsimp only at hfew
      omega
    · have ht := (h₁.descend (p := []) (isLink_link4k 1) hr rfl (by simp) hdescend).2.1
      have hlast₂ : entryAt m₂.mem r (lastPlace v) = none := by
        rcases hfilled.entry (lastPlace v) with hsame | ⟨hmem, _⟩
        · rw [hsame, ← hlast]
        · exact absurd hmem hnot
      have hitem : isPresent (page * 4096 ||| itemType 1 0) = true :=
        isPresent_item (Nat.mul_mod_left ..)
      obtain ⟨habsent, h', hupdate⟩ := h₂.write_last hr ht rfl hlast₂ hitem
      rw [hdescend]
      refine .inr ⟨page * 4096, _, ?_, h', hfilled.last rfl htotal rfl hlast hnot rfl hupdate⟩
      simp [Except.bind, habsent]

/-- The places that have to be passed for an address. -/
def placesOf (v : Nat) : Finset Place := if isDirect v then ∅ else onPath v

/-- Calls for several addresses. -/
theorem TablesOk.memLinear2phyGetAll_supplies (h : TablesOk m roots) (hr : roots r) (vs : List Nat)
    (hsmall : Small m.mem r (vs.toFinset.biUnion placesOf)) :
    Supplies (memLinear2phyGetAll m r vs) m roots r (vs.toFinset.biUnion placesOf) := by
  induction vs generalizing m with
  | nil => exact .inr ⟨[], m, rfl, h, .refl (by simp)⟩
  | cons v vs ih =>
    rw [toFinset_cons, Finset.biUnion_insert] at hsmall ⊢
    have hfirst : Supplies (memLinear2phyGet m v r) m roots r (placesOf v) := by
      cases hdirect : isDirect v with
      | true =>
        rw [memLinear2phyGet, if_pos hdirect, placesOf, if_pos hdirect]
        exact .inr ⟨_, m, rfl, h, .refl (by simp)⟩
      | false =>
        rw [placesOf, hdirect] at hsmall ⊢
        exact h.memLinear2phyGet_supplies hr hdirect fun e he =>
          hsmall e (Finset.mem_union_left _ he)
    refine hfirst.bind fun phy m₁ _ h₁ hfilled => ?_
    have hrest := ih h₁ (Small.filled (fun e he => hsmall e (Finset.mem_union_right _ he)) hfilled)
    rw [← Finset.union_empty (vs.toFinset.biUnion placesOf)]
    exact hrest.bind fun phys m' _ h' _ => .inr ⟨_, m', rfl, h', .refl (by simp)⟩

end Tables

end Osx64.Mm
