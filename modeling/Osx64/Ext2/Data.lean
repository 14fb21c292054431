import Osx64.Ext2.FileOwned

/-!
# Data of an inode

`leafData fs ei l` is what the inode `ei` has at logical block `l`: a block of data, or a
hole.  The relations `Grew` and `Shrunk` speak about pointers and disk blocks; here they
are turned into statements about data, of the inode that changes and of all others.
-/

namespace Osx64.Ext2

open Function

/-- The data at logical block `l`; `none` for a hole. -/
def leafData (fs : Fs) (ei : Buf) (l : Nat) : Option Buf :=
  if ptr fs ei (leafPos fs.geo.perBlock l) = 0 then none
  else some (fs.disk (ptr fs ei (leafPos fs.geo.perBlock l)))

section LeafData

variable {reserved : Nat → Prop} {L : Nat → Option Buf} {ino j l k : Nat} {fs fs' : Fs}
  {ei ei' ej buf : Buf} {S D : Pos → Prop}

theorem leafData_eq_none : leafData fs ei l = none ↔ ptr fs ei (leafPos fs.geo.perBlock l) = 0 := by
  unfold leafData
  split <;> simp_all

/-- Where the pointer and the block it leads to are the same, so is the data. -/
theorem leafData_congr (hgeo : fs'.geo = fs.geo)
    (hptr : ptr fs' ei' (leafPos fs.geo.perBlock l) = ptr fs ei (leafPos fs.geo.perBlock l))
    (hdisk : ptr fs ei (leafPos fs.geo.perBlock l) ≠ 0 →
      fs'.disk (ptr fs ei (leafPos fs.geo.perBlock l)) =
        fs.disk (ptr fs ei (leafPos fs.geo.perBlock l))) :
    leafData fs' ei' l = leafData fs ei l := by
  unfold leafData
  rw [hgeo, hptr]
  split
  · rfl
  · next hne => rw [hdisk hne]

/-- The way to a logical block passes no other logical block. -/
theorem leafPos_of_onChain {n : Nat} (h : OnChain (leafPos n k) (leafPos n l)) : l = k := by
  have hl := leafPos_leaf n l
  have hk := leafPos_leaf n k
  have hpath : (leafPos n l).path = (leafPos n k).path := by
    refine h.2.eq_of_length ?_
    rw [Pos.Leaf] at hl hk
    rw [hl, hk, h.1]
  refine leafPos_inj (n := n) ?_
  cases hp : leafPos n l
  cases hq : leafPos n k
  rw [hp, hq] at h hpath
  obtain rfl := h.1
  obtain rfl := hpath
  rfl

/-- Extending the map of an inode leaves the data alone that it does not write. -/
theorem Grew.leafData (h : Grew reserved S D fs ei fs' ei') (ho : Owned reserved fs L)
    (hlive : L ino = some ei) (hl : l < mapBlocks fs.geo.perBlock)
    (hS : ¬ S (leafPos fs.geo.perBlock l) ∨ leafData fs ei l ≠ none)
    (hD : ¬ D (leafPos fs.geo.perBlock l)) : leafData fs' ei' l = leafData fs ei l := by
  have hvalid := leafPos_valid hl
  refine leafData_congr h.geo ?_ fun hne => ?_
  · rcases hS with hS | hS
    · exact h.only _ hvalid hS
    · exact h.keep _ hvalid (mt leafData_eq_none.mpr hS)
  · refine h.disk _ (ho.dataUsed hlive hvalid hne) fun q hq hin heq => ?_
    obtain rfl := (ho.inj hlive hvalid hlive hq hne heq.symm).2
    rcases hin with hin | hin
    · exact (leafPos_leaf _ l).not_inner hin
    · exact hD hin

/-- Writing the block at one position. -/
theorem leafData_writeLeaf {b : Nat} (ho : Owned reserved fs (update L ino (some ei)))
    (hk : k < mapBlocks fs.geo.perBlock) (hb : ptr fs ei (leafPos fs.geo.perBlock k) = b)
    (hne : b ≠ 0) (hfs' : { fs with disk := update fs.disk b buf } = fs')
    (hl : l < mapBlocks fs.geo.perBlock) :
    leafData fs' ei l = if l = k then some buf else leafData fs ei l := by
  subst hb hfs'
  have hptr := ptr_writeLeaf ho (leafPos_valid hk) (leafPos_leaf _ k) buf (leafPos_valid hl)
  by_cases hlk : l = k
  · subst hlk
    unfold leafData
    rw [hptr, if_neg hne, if_pos rfl]
    simp only [update_self]
  · rw [if_neg hlk]
    refine leafData_congr rfl hptr fun h0 => update_of_ne (fun heq => hlk ?_) _ _
    exact leafPos_inj (ho.pos_eq (leafPos_valid hl) (leafPos_valid hk) h0 heq)

end LeafData

end Osx64.Ext2
