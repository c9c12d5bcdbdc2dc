import Xv6.Fs.Layout

namespace Xv6.Fs

open Lib

theorem flatMap_le32_split (ws : List UInt32) (j : Nat) (hj : j < ws.length) :
    ws.flatMap Bytes.le32 =
      (ws.take j).flatMap Bytes.le32 ++ (Bytes.le32 ws[j] ++ (ws.drop (j + 1)).flatMap Bytes.le32) := by
  have hsplit : ws = ws.take j ++ ws[j] :: ws.drop (j + 1) := by
    rw [List.getElem_cons_drop, List.take_append_drop]
  conv_lhs => rw [hsplit]
  rw [List.flatMap_append, List.flatMap_cons]

theorem length_flatMap_le32 (ws : List UInt32) : (ws.flatMap Bytes.le32).length = 4 * ws.length := by
  induction ws with
  | nil => rfl
  | cons w ws ih =>
    rw [List.flatMap_cons, List.length_append, ih, Bytes.length_le32, List.length_cons]
    omega

theorem Dinode.length_bytes (d : Dinode) : d.bytes.length = DINODE := by
  simp only [Dinode.bytes, List.length_append, Bytes.length_le16, Bytes.length_le32,
    length_flatMap_le32, List.length_ofFn]
  rfl

variable (blk : Block)

theorem getDinode_putDinode_same (k : Nat) (d : Dinode) (hk : k < IPB) :
    getDinode (putDinode blk k d) k = d := by
  have hn : DINODE * k + 64 ≤ BSIZE := by
    simp only [IPB, DINODE, BSIZE] at *
    omega
  have h16 : ∀ xs w ys, d.bytes = xs ++ (Bytes.le16 w ++ ys) → xs.length + 2 ≤ 64 →
      (putDinode blk k d).getU16 (DINODE * k + xs.length) = w := by
    intro xs w ys hd hxs
    rw [putDinode, hd]
    exact Bytes.getU16_put_middle _ _ _ _ _ (by omega)
  have h32 : ∀ xs w ys, d.bytes = xs ++ (Bytes.le32 w ++ ys) → xs.length + 4 ≤ 64 →
      (putDinode blk k d).getU32 (DINODE * k + xs.length) = w := by
    intro xs w ys hd hxs
    rw [putDinode, hd]
    exact Bytes.getU32_put_middle _ _ _ _ _ (by omega)
  ext1
  · exact h16 [] d.type _ (by simp only [Dinode.bytes, List.append_assoc]; rfl) (by simp)
  · exact h16 (Bytes.le16 d.type) d.major _ (by simp only [Dinode.bytes, List.append_assoc]; rfl) (by simp)
  · exact h16 (Bytes.le16 d.type ++ Bytes.le16 d.major) d.minor _
      (by simp only [Dinode.bytes, List.append_assoc]; rfl) (by simp)
  · exact h16 (Bytes.le16 d.type ++ Bytes.le16 d.major ++ Bytes.le16 d.minor) d.nlink _
      (by simp only [Dinode.bytes, List.append_assoc]; rfl) (by simp)
  · exact h32 (Bytes.le16 d.type ++ Bytes.le16 d.major ++ Bytes.le16 d.minor ++ Bytes.le16 d.nlink)
      d.size _ (by simp only [Dinode.bytes, List.append_assoc]; rfl) (by simp)
  · funext j
    have hj := j.isLt
    have hlen : (List.ofFn d.addrs).length = NDIRECT + 1 := List.length_ofFn
    have hj' : j.val < (List.ofFn d.addrs).length := by omega
    have hsplit := flatMap_le32_split (List.ofFn d.addrs) j.val hj'
    have hget : (List.ofFn d.addrs)[j.val] = d.addrs j := List.getElem_ofFn hj'
    have htake : (((List.ofFn d.addrs).take j.val).flatMap Bytes.le32).length = 4 * j.val := by
      rw [length_flatMap_le32, List.length_take, hlen]
      omega
    have h := h32 (Bytes.le16 d.type ++ Bytes.le16 d.major ++ Bytes.le16 d.minor ++
      Bytes.le16 d.nlink ++ Bytes.le32 d.size ++
      ((List.ofFn d.addrs).take j.val).flatMap Bytes.le32) (d.addrs j) _
      (by rw [Dinode.bytes, hsplit, hget]; simp only [List.append_assoc]; rfl)
      (by simp only [List.length_append, htake, Bytes.length_le16, Bytes.length_le32]
          simp only [NDIRECT] at hj
          omega)
    simp only [List.length_append, htake, Bytes.length_le16, Bytes.length_le32] at h
    rw [← Nat.add_assoc] at h
    exact h

theorem getDinode_putDinode_other (k k' : Nat) (d : Dinode) (hk : k' ≠ k) :
    getDinode (putDinode blk k d) k' = getDinode blk k' := by
  have hlen := d.length_bytes
  have hsep : DINODE * k' + 64 ≤ DINODE * k ∨ DINODE * k + 64 ≤ DINODE * k' := by
    simp only [DINODE]
    omega
  unfold getDinode putDinode
  have h16 : ∀ o, o + 2 ≤ 64 → (blk.put (DINODE * k) d.bytes).getU16 (DINODE * k' + o) =
      blk.getU16 (DINODE * k' + o) := by
    intro o ho
    apply Bytes.getU16_put_disjoint
    rw [hlen]
    simp only [DINODE] at *
    omega
  have h32 : ∀ o, o + 4 ≤ 64 → (blk.put (DINODE * k) d.bytes).getU32 (DINODE * k' + o) =
      blk.getU32 (DINODE * k' + o) := by
    intro o ho
    apply Bytes.getU32_put_disjoint
    rw [hlen]
    simp only [DINODE] at *
    omega
  ext1
  · exact h16 0 (by omega)
  · exact h16 2 (by omega)
  · exact h16 4 (by omega)
  · exact h16 6 (by omega)
  · exact h32 8 (by omega)
  · funext j
    have hj := j.isLt
    have h := h32 (12 + 4 * j.val) (by simp only [NDIRECT] at hj; omega)
    simpa only [Nat.add_assoc] using h

theorem mask_ne_zero (x : UInt8) (r : Fin 8) :
    ((x &&& (1 <<< UInt8.ofNat r.val)) != 0) = x.toNat.testBit r.val := by
  have h : ∀ n : Fin 256, ∀ r : Fin 8,
      ((UInt8.ofNat n.val &&& (1 <<< UInt8.ofNat r.val)) != 0) = n.val.testBit r.val := by
    decide +kernel
  have hx := h ⟨x.toNat, x.toNat_lt⟩ r
  simpa using hx

theorem testBit_mask (r r' : Fin 8) :
    (1 <<< UInt8.ofNat r.val : UInt8).toNat.testBit r'.val = decide (r = r') := by
  revert r r'
  decide +kernel

theorem testBit_not_mask (r r' : Fin 8) :
    (~~~(1 <<< UInt8.ofNat r.val) : UInt8).toNat.testBit r'.val = decide (r ≠ r') := by
  revert r r'
  decide +kernel

def bitIndex (i : Nat) : Fin 8 := ⟨i % 8, Nat.mod_lt _ (by decide)⟩

theorem testBit_eq (i : Nat) :
    testBit blk i = (blk.get (i / 8)).toNat.testBit (bitIndex i).val := mask_ne_zero _ (bitIndex i)

theorem bitIndex_inj {i j : Nat} (hdiv : i / 8 = j / 8) : bitIndex i = bitIndex j ↔ i = j := by
  rw [Fin.ext_iff]
  show i % 8 = j % 8 ↔ i = j
  omega

theorem testBit_put (i j : Nat) (x : UInt8) (hi : i < BPB) : testBit (blk.put (i / 8) [x]) j =
    if i / 8 = j / 8 then x.toNat.testBit (bitIndex j).val else testBit blk j := by
  have hoff : i / 8 < BSIZE := by
    simp only [BPB, BSIZE] at *
    omega
  rw [testBit_eq, testBit_eq]
  split_ifs with hdiv
  · have hget := Bytes.get_put_inside blk (i / 8) [x] 0 (by simp) (by omega)
    simp only [Nat.add_zero, List.getElem_cons_zero] at hget
    rw [← hdiv, hget]
  · rw [Bytes.get_put_outside _ _ _ _ (by simp only [List.length_singleton]; omega)]

theorem testBit_setBit (i j : Nat) (hi : i < BPB) :
    testBit (setBit blk i) j = (decide (i = j) || testBit blk j) := by
  rw [setBit, testBit_put _ _ _ _ hi, testBit_eq]
  split_ifs with hdiv
  · rw [UInt8.toNat_or, Nat.testBit_or, show i % 8 = (bitIndex i).val from rfl, testBit_mask, hdiv,
      decide_eq_decide.2 (bitIndex_inj hdiv), Bool.or_comm]
  · have hne : i ≠ j := fun h => hdiv (by rw [h])
    simp [hne]

theorem testBit_clearBit (i j : Nat) (hi : i < BPB) :
    testBit (clearBit blk i) j = (decide (i ≠ j) && testBit blk j) := by
  rw [clearBit, testBit_put _ _ _ _ hi, testBit_eq]
  split_ifs with hdiv
  · rw [UInt8.toNat_and, Nat.testBit_and, show i % 8 = (bitIndex i).val from rfl, testBit_not_mask, hdiv,
      decide_eq_decide.2 (not_congr (bitIndex_inj hdiv)), Bool.and_comm]
  · have hne : i ≠ j := fun h => hdiv (by rw [h])
    simp [hne]

end Xv6.Fs
