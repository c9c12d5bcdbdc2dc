import Xv6.Fs.Codec
import Xv6.Fs.Read

namespace Xv6.Fs

open Function Lib

-- The layout that mkfs gives a disk: the inode blocks, the bitmap and the data
-- do not overlap, and inode and block numbers fit in their types.
structure Super.Valid (sb : Super) : Prop where
  iblock_lt : ∀ i, i < sb.ninodes → sb.iblock i < sb.bmapstart
  bblock_lt : ∀ b, b < sb.size → sb.bblock b < sb.nmeta
  size_pos : 0 < sb.size
  size_le : sb.size ≤ 2 ^ 32
  root_lt : ROOTINO < sb.ninodes
  ninodes_le : sb.ninodes ≤ 2 ^ 16

-- What the disk says: inodes, bitmap and data blocks.
@[ext] structure Store where
  dino : Nat → Dinode
  bit : Nat → Bool
  data : Nat → Block

def bitAt (sb : Super) (disk : Nat → Block) (b : Nat) : Bool :=
  testBit (disk (sb.bblock b)) (b % BPB)

def store (sb : Super) (disk : Nat → Block) : Store :=
  { dino := fun i => if i < sb.ninodes then dinodeAt sb disk i else Dinode.fresh 0
    bit := fun b => if b < sb.size then bitAt sb disk b else false
    data := fun b => if sb.nmeta ≤ b ∧ b < sb.size then disk b else zeroBlock }

namespace Store

variable {sb : Super} {disk : Nat → Block}

theorem dino_eq {i : Nat} (hi : i < sb.ninodes) : (store sb disk).dino i = dinodeAt sb disk i :=
  if_pos hi

variable {b : Nat}

theorem bit_eq (hb : b < sb.size) : (store sb disk).bit b = bitAt sb disk b := if_pos hb

theorem data_eq (hmeta : sb.nmeta ≤ b) (hb : b < sb.size) :
    (store sb disk).data b = disk b := if_pos ⟨hmeta, hb⟩

variable {blk : Block}

-- Writes to blocks that are not inode blocks, not bitmap blocks or not data
-- blocks.
theorem dino_update {c : Nat} (h : ∀ i, i < sb.ninodes → sb.iblock i ≠ c) :
    (store sb (update disk c blk)).dino = (store sb disk).dino := by
  funext i
  by_cases hi : i < sb.ninodes
  · rw [dino_eq hi, dino_eq hi, dinodeAt, dinodeAt, update_of_ne (h i hi)]
  · exact (if_neg hi).trans (if_neg hi).symm

theorem bit_update {c : Nat} (h : ∀ b, b < sb.size → sb.bblock b ≠ c) :
    (store sb (update disk c blk)).bit = (store sb disk).bit := by
  funext b
  by_cases hb : b < sb.size
  · rw [bit_eq hb, bit_eq hb, bitAt, bitAt, update_of_ne (h b hb)]
  · exact (if_neg hb).trans (if_neg hb).symm

theorem data_update {c : Nat} (h : c < sb.nmeta) :
    (store sb (update disk c blk)).data = (store sb disk).data := by
  funext b
  by_cases hb : sb.nmeta ≤ b ∧ b < sb.size
  · have hne : b ≠ c := by omega
    rw [data_eq hb.1 hb.2, data_eq hb.1 hb.2, update_of_ne hne]
  · exact (if_neg hb).trans (if_neg hb).symm

section

variable (hsb : sb.Valid)
include hsb

theorem iblock_lt_nmeta {i : Nat} (hi : i < sb.ninodes) : sb.iblock i < sb.nmeta := by
  have h := hsb.iblock_lt i hi
  have h0 := hsb.bblock_lt 0 hsb.size_pos
  have hzero : sb.bblock 0 = sb.bmapstart := by simp [Super.bblock]
  omega

theorem iblock_ne_bblock {i b : Nat} (hi : i < sb.ninodes) : sb.iblock i ≠ sb.bblock b := by
  have h := hsb.iblock_lt i hi
  have hb : sb.bmapstart ≤ sb.bblock b := Nat.le_add_left ..
  omega

theorem putDinode {i : Nat} (hi : i < sb.ninodes) (d : Dinode) :
    store sb (update disk (sb.iblock i)
      (Fs.putDinode (disk (sb.iblock i)) (i % IPB) d)) =
    { store sb disk with dino := update (store sb disk).dino i d } := by
  have hmod : i % IPB < IPB := Nat.mod_lt _ (by decide)
  ext1
  · funext j
    by_cases hj : j < sb.ninodes
    · rw [dino_eq hj, dinodeAt]
      by_cases hij : j = i
      · subst hij
        change _ = update (store sb disk).dino j d j
        rw [update_self, update_self, getDinode_putDinode_same _ _ _ hmod]
      · change _ = update (store sb disk).dino i d j
        rw [update_of_ne hij, dino_eq hj, dinodeAt]
        by_cases hblk : sb.iblock j = sb.iblock i
        · have hk : j % IPB ≠ i % IPB := by
            simp only [Super.iblock, IPB, BSIZE, DINODE] at *
            omega
          rw [hblk, update_self, getDinode_putDinode_other _ _ _ _ hk]
        · rw [update_of_ne hblk]
    · have hij : j ≠ i := by omega
      change _ = update (store sb disk).dino i d j
      rw [update_of_ne hij]
      exact (if_neg hj).trans (if_neg hj).symm
  · exact bit_update fun b _ => (iblock_ne_bblock hsb hi).symm
  · exact data_update (iblock_lt_nmeta hsb hi)

theorem putBit (hb : b < sb.size) (v : Bool) (hself : testBit blk (b % BPB) = v)
    (hother : ∀ j, j ≠ b % BPB → testBit blk j = testBit (disk (sb.bblock b)) j) :
    store sb (update disk (sb.bblock b) blk) =
    { store sb disk with bit := update (store sb disk).bit b v } := by
  ext1
  · exact dino_update fun i hi => iblock_ne_bblock hsb hi
  · funext c
    by_cases hc : c < sb.size
    · rw [bit_eq hc, bitAt]
      by_cases hcb : c = b
      · subst hcb
        change _ = update (store sb disk).bit c v c
        rw [update_self, update_self, hself]
      · change _ = update (store sb disk).bit b v c
        rw [update_of_ne hcb, bit_eq hc, bitAt]
        by_cases hblk : sb.bblock c = sb.bblock b
        · have hk : c % BPB ≠ b % BPB := by
            simp only [Super.bblock, BPB, BSIZE] at *
            omega
          rw [hblk, update_self, hother _ hk]
        · rw [update_of_ne hblk]
    · have hcb : c ≠ b := by omega
      change _ = update (store sb disk).bit b v c
      rw [update_of_ne hcb]
      exact (if_neg hc).trans (if_neg hc).symm
  · exact data_update (hsb.bblock_lt b hb)

theorem setBit (hb : b < sb.size) :
    store sb (update disk (sb.bblock b) (Fs.setBit (disk (sb.bblock b)) (b % BPB))) =
    { store sb disk with bit := update (store sb disk).bit b true } := by
  have hmod : b % BPB < BPB := Nat.mod_lt _ (by decide)
  refine putBit hsb hb true ?_ fun j hj => ?_
  · rw [testBit_setBit _ _ _ hmod]
    simp
  · rw [testBit_setBit _ _ _ hmod]
    simp [hj.symm]

theorem clearBit (hb : b < sb.size) :
    store sb (update disk (sb.bblock b) (Fs.clearBit (disk (sb.bblock b)) (b % BPB))) =
    { store sb disk with bit := update (store sb disk).bit b false } := by
  have hmod : b % BPB < BPB := Nat.mod_lt _ (by decide)
  refine putBit hsb hb false ?_ fun j hj => ?_
  · rw [testBit_clearBit _ _ _ hmod]
    simp
  · rw [testBit_clearBit _ _ _ hmod]
    simp [hj.symm]

theorem putData (hmeta : sb.nmeta ≤ b) (hb : b < sb.size) (blk : Block) :
    store sb (update disk b blk) =
    { store sb disk with data := update (store sb disk).data b blk } := by
  ext1
  · refine dino_update fun i hi => ?_
    have h := iblock_lt_nmeta hsb hi
    omega
  · refine bit_update fun c hc => ?_
    have h := hsb.bblock_lt c hc
    omega
  · funext c
    change _ = update (store sb disk).data b blk c
    by_cases hcb : c = b
    · subst hcb
      rw [data_eq hmeta hb, update_self, update_self]
    · rw [update_of_ne hcb]
      by_cases hc : sb.nmeta ≤ c ∧ c < sb.size
      · rw [data_eq hc.1 hc.2, data_eq hc.1 hc.2, update_of_ne hcb]
      · exact (if_neg hc).trans (if_neg hc).symm

end

end Store
end Xv6.Fs
