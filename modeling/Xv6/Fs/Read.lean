import Xv6.Fs.Inode
import Xv6.Lib.Hoare

namespace Xv6.Fs

open Lib

def dinodeAt (sb : Super) (disk : Nat → Block) (inum : Nat) : Dinode :=
  getDinode (disk (sb.iblock inum)) (inum % IPB)

namespace Dinode

variable (disk : Nat → Block) (d : Dinode)

def blockAt (bn : Nat) : UInt32 :=
  if h : bn < NDIRECT then d.addrs ⟨bn, Nat.lt_succ_of_lt h⟩
  else if d.addrs indirect = 0 then 0
  else (disk (d.addrs indirect).toNat).getU32 (4 * (bn - NDIRECT))

-- No hole up to the end of the file.
structure Full (disk : Nat → Block) (d : Dinode) : Prop where
  size_le : d.size.toNat ≤ MAXFILE * BSIZE
  blockAt_ne : ∀ bn, bn * BSIZE < d.size.toNat → d.blockAt disk bn ≠ 0

def byteAt (x : Nat) : UInt8 :=
  (disk (d.blockAt disk (x / BSIZE)).toNat).get (x % BSIZE)

def bytesAt (off n : Nat) : List UInt8 :=
  (List.range n).map fun k => d.byteAt disk (off + k)

@[simp] theorem length_bytesAt (off n : Nat) :
    (d.bytesAt disk off n).length = n := by simp [bytesAt]

theorem bytesAt_add (off m n : Nat) :
    d.bytesAt disk off (m + n) = d.bytesAt disk off m ++ d.bytesAt disk (off + m) n := by
  simp [bytesAt, List.range_add, Function.comp_def, Nat.add_assoc]

theorem bytesAt_block (off m : Nat) (h : off % BSIZE + m ≤ BSIZE) :
    d.bytesAt disk off m = (disk (d.blockAt disk (off / BSIZE)).toNat).slice (off % BSIZE) m := by
  unfold bytesAt Bytes.slice
  refine List.map_congr_left fun k hk => ?_
  have hk : k < m := List.mem_range.1 hk
  have hdiv : (off + k) / BSIZE = off / BSIZE := by simp only [BSIZE] at *; omega
  have hmod : (off + k) % BSIZE = off % BSIZE + k := by simp only [BSIZE] at *; omega
  rw [byteAt, hdiv, hmod]

end Dinode

variable (sb : Super) {s : Kernel} {ip : Fin NINODE}

theorem addrAt_eq {i : Fin (NDIRECT + 1)} (h : (s.icache ip).copy.addrs i ≠ 0) :
    addrAt sb ip i s = .ok ((s.icache ip).copy.addrs i) s := by
  change (if (s.icache ip).copy.addrs i = 0 then _ else pure _ : FsM UInt32) s = _
  rw [if_neg h]
  rfl

theorem bmap_eq {bn : Nat} (hbn : bn < MAXFILE) (h : (s.icache ip).copy.blockAt s.disk bn ≠ 0) :
    bmap sb ip bn s = .ok ((s.icache ip).copy.blockAt s.disk bn) s := by
  unfold Dinode.blockAt at h ⊢
  unfold bmap
  by_cases hd : bn < NDIRECT
  · rw [dif_pos hd] at h ⊢
    rw [dif_pos hd]
    exact addrAt_eq sb h
  · have hi : bn - NDIRECT < NINDIRECT := by
      simp only [MAXFILE] at hbn
      omega
    rw [dif_neg hd] at h ⊢
    rw [dif_neg hd, if_pos hi]
    by_cases ha : (s.icache ip).copy.addrs indirect = 0
    · rw [if_pos ha] at h
      exact absurd rfl h
    · rw [if_neg ha] at h ⊢
      change EStateM.bind (addrAt sb ip indirect) _ s = _
      unfold EStateM.bind
      rw [addrAt_eq sb ha]
      change (if (s.disk ((s.icache ip).copy.addrs indirect).toNat).getU32 _ = 0 then _ else
        pure _ : FsM UInt32) s = _
      rw [if_neg h]
      rfl

theorem readiLoop_range (fuel off n : Nat) (hfuel : n ≤ fuel) (hmapped : ∀ bn, off / BSIZE ≤ bn → bn * BSIZE < off + n →
    bn < MAXFILE ∧ (s.icache ip).copy.blockAt s.disk bn ≠ 0) :
    readiLoop sb ip fuel off n s = .ok ((s.icache ip).copy.bytesAt s.disk off n) s := by
  induction fuel generalizing off n with
  | zero =>
    have hn : n = 0 := by omega
    subst hn
    rfl
  | succ fuel ih =>
    by_cases hn : n = 0
    · subst hn
      rfl
    · let m := min n (BSIZE - off % BSIZE)
      have hb : off / BSIZE * BSIZE < off + n := by
        simp only [BSIZE]
        omega
      obtain ⟨hmax, haddr⟩ := hmapped _ (Nat.le_refl _) hb
      have hm : 0 < m ∧ m ≤ n ∧ off % BSIZE + m ≤ BSIZE := by
        simp only [BSIZE, m]
        omega
      have hrest := ih (off + m) (n - m) (by omega) fun bn hlow hbn =>
        hmapped bn (by simp only [BSIZE] at *; omega) (by omega)
      have hsplit : m + (n - m) = n := by omega
      rw [← hsplit, Dinode.bytesAt_add, Dinode.bytesAt_block _ _ _ _ hm.2.2, hsplit]
      change (if n = 0 then pure [] else _ : FsM (List UInt8)) s = _
      rw [if_neg hn, bind_of_ok (bmap_eq sb hmax haddr)]
      change EStateM.bind (readiLoop sb ip fuel (off + m) (n - m)) _ s = _
      unfold EStateM.bind
      rw [hrest]
      rfl

theorem readiLoop_eq (fuel off n : Nat) (hfuel : n ≤ fuel)
    (hfull : (s.icache ip).copy.Full s.disk) (hend : off + n ≤ (s.icache ip).copy.size.toNat) :
    readiLoop sb ip fuel off n s = .ok ((s.icache ip).copy.bytesAt s.disk off n) s := by
  refine readiLoop_range sb fuel off n hfuel fun bn _ hbn => ⟨?_, hfull.blockAt_ne bn (by omega)⟩
  have hsize := hfull.size_le
  simp only [BSIZE, MAXFILE, NDIRECT, NINDIRECT] at *
  omega

theorem wraps_iff (off n : UInt32) : off + n < off ↔ 2 ^ 32 ≤ off.toNat + n.toNat := by
  have ho := off.toNat_lt
  have hn := n.toNat_lt
  rw [UInt32.lt_iff_toNat_lt, UInt32.toNat_add]
  omega

theorem toNat_add_of_not_wraps {off n : UInt32} (h : ¬ off + n < off) :
    (off + n).toNat = off.toNat + n.toNat := by
  rw [wraps_iff] at h
  rw [UInt32.toNat_add]
  omega

theorem readi_eq (dev : Devsw) (off n : UInt32) (hdev : (s.icache ip).copy.type ≠ T_DEV)
    (hfull : (s.icache ip).copy.Full s.disk) :
    readi sb dev ip off n s =
      .ok (if (s.icache ip).copy.size < off ∨ off + n < off then none
        else some ((s.icache ip).copy.bytesAt s.disk off.toNat
          (min n.toNat ((s.icache ip).copy.size.toNat - off.toNat)))) s := by
  change (if (s.icache ip).copy.type = T_DEV then _ else
    if (s.icache ip).copy.size < off ∨ off + n < off then pure none else _ :
      FsM (Option (List UInt8))) s = _
  rw [if_neg hdev]
  by_cases hbad : (s.icache ip).copy.size < off ∨ off + n < off
  · rw [if_pos hbad, if_pos hbad]
    rfl
  · rw [if_neg hbad, if_neg hbad]
    obtain ⟨hoff, hwrap⟩ := not_or.1 hbad
    have hsum := toNat_add_of_not_wraps hwrap
    have hle : off.toNat ≤ (s.icache ip).copy.size.toNat := by
      rw [UInt32.lt_iff_toNat_lt] at hoff
      omega
    have hlen : (if (s.icache ip).copy.size < off + n then (s.icache ip).copy.size - off
        else n).toNat = min n.toNat ((s.icache ip).copy.size.toNat - off.toNat) := by
      split
      · rename_i hlt
        rw [UInt32.lt_iff_toNat_lt] at hlt
        rw [UInt32.toNat_sub_of_le _ _ (UInt32.le_iff_toNat_le.2 hle)]
        omega
      · rename_i hlt
        rw [UInt32.lt_iff_toNat_lt] at hlt
        omega
    have hloop := readiLoop_eq sb _ off.toNat _ le_rfl hfull
      (show off.toNat + min n.toNat ((s.icache ip).copy.size.toNat - off.toNat) ≤ _ by omega)
    rw [← hlen] at hloop ⊢
    change EStateM.bind (readiLoop sb ip _ _ _) _ s = _
    unfold EStateM.bind
    rw [hloop]
    rfl

theorem readi_range (dev : Devsw) {off n : Nat} (hdev : (s.icache ip).copy.type ≠ T_DEV)
    (hend : off + n ≤ (s.icache ip).copy.size.toNat) (hmapped : ∀ bn, off / BSIZE ≤ bn → bn * BSIZE < off + n →
      bn < MAXFILE ∧ (s.icache ip).copy.blockAt s.disk bn ≠ 0) :
    readi sb dev ip (UInt32.ofNat off) (UInt32.ofNat n) s =
      .ok (some ((s.icache ip).copy.bytesAt s.disk off n)) s := by
  have hsize := (s.icache ip).copy.size.toNat_lt
  have hoff : (UInt32.ofNat off).toNat = off := by
    rw [UInt32.toNat_ofNat']
    omega
  have hn : (UInt32.ofNat n).toNat = n := by
    rw [UInt32.toNat_ofNat']
    omega
  have hsum : (UInt32.ofNat off + UInt32.ofNat n).toNat = off + n := by
    rw [UInt32.toNat_add, hoff, hn]
    omega
  have hok : ¬ ((s.icache ip).copy.size < UInt32.ofNat off ∨ UInt32.ofNat off + UInt32.ofNat n < UInt32.ofNat off) := by
    rw [UInt32.lt_iff_toNat_lt, wraps_iff, hoff, hn]
    omega
  have hwhole : ¬ (s.icache ip).copy.size < UInt32.ofNat off + UInt32.ofNat n := by
    rw [UInt32.lt_iff_toNat_lt, hsum]
    omega
  have hloop := readiLoop_range sb n off n (Nat.le_refl _) hmapped
  change (if (s.icache ip).copy.type = T_DEV then _ else
    if (s.icache ip).copy.size < UInt32.ofNat off ∨ UInt32.ofNat off + UInt32.ofNat n < UInt32.ofNat off then pure none
    else _ : FsM (Option (List UInt8))) s = _
  rw [if_neg hdev, if_neg hok, if_neg hwhole, hoff, hn, bind_of_ok hloop]
  rfl

end Xv6.Fs
