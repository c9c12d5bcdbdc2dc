import Xv6.Fs.Contents
import Xv6.Fs.Counts

namespace Xv6.Fs

open Function Lib

variable {sb : Super} {s t : Kernel} {ip : Fin NINODE}

def Keeps (ip : Fin NINODE) (s t : Kernel) : Prop :=
  (s.icache ip).copy.addrs indirect ≠ 0 → (t.icache ip).copy.addrs indirect = (s.icache ip).copy.addrs indirect

theorem ballocFrom_logs (hsb : sb.Valid) (bs : List Nat) (hbs : ∀ b ∈ bs, b % BPB = 0) :
    Returns (ballocFrom sb bs) s fun r t => t.icache = s.icache ∧ Logs (insert r.toNat sb.bitmap) s t := by
  induction bs with
  | nil => exact Sat.throw trivial
  | cons b bs ih =>
    refine sat_bread ?_
    split
    · rename_i bi hfind
      obtain ⟨hbi, -⟩ := find_range_some hfind
      have hlt : b + bi < sb.size := by omega
      have hnat : (UInt32.ofNat (b + bi)).toNat = b + bi := by
        have hsize := hsb.size_le
        rw [UInt32.toNat_ofNat']
        omega
      let t := s.wrote (sb.bblock b) (setBit (s.disk (sb.bblock b)) bi)
      change t.icache = s.icache ∧ Logs _ s (t.wrote (b + bi) zeroBlock)
      rw [hnat]
      have hbit : Logs (insert (b + bi) sb.bitmap) s t :=
        Logs.write (Finset.mem_insert_of_mem (sb.bblock_mem (by omega))) _
      exact ⟨rfl, hbit.trans (Logs.write (Finset.mem_insert_self _ _) _)⟩
    · exact ih fun b' hb' => hbs b' (List.mem_cons_of_mem _ hb')

theorem balloc_logs (hsb : sb.Valid) :
    Returns (balloc sb) s fun r t => t.icache = s.icache ∧ Logs (insert r.toNat sb.bitmap) s t := by
  refine ballocFrom_logs hsb _ fun b hb => ?_
  obtain ⟨k, -, rfl⟩ := List.mem_map.1 hb
  exact Nat.mul_mod_left ..

theorem addrAt_logs (hsb : sb.Valid) (k : Fin (NDIRECT + 1)) :
    Returns (addrAt sb ip k) s fun r t => (t.icache ip).copy.addrs k = r ∧ Keeps ip s t ∧
      Logs (insert r.toNat sb.bitmap) s t := by
  refine sat_getInode (Sat.ite (fun h0 => ?_) fun _ => Sat.pure ⟨rfl, fun _ => rfl, Logs.refl s⟩)
  refine (balloc_logs hsb).bind fun r t ht => sat_setCopy (Sat.pure ?_)
  obtain ⟨hic, hlogs⟩ := ht
  have hcopy : ((t.setCopy ip ((s.icache ip).copy.setAddr k r)).icache ip).copy = (s.icache ip).copy.setAddr k r := by
    rw [Kernel.setCopy_self]
  refine ⟨?_, fun hne => ?_, hlogs.of_eq rfl⟩
  · rw [hcopy]
    exact update_self ..
  · rw [hcopy]
    refine update_of_ne (fun hk => hne ?_) ..
    rw [hk]
    exact h0

theorem entryAt_logs (hsb : sb.Valid) (addr : UInt32) (j : Nat) :
    Returns (entryAt sb addr j) s fun r t => t.icache = s.icache ∧
      Logs (insert addr.toNat (insert r.toNat sb.bitmap)) s t := by
  refine sat_bread (Sat.ite (fun _ => ?_) fun _ => Sat.pure ⟨rfl, Logs.refl s⟩)
  refine (balloc_logs hsb).bind fun r t ht => sat_logWrite (Sat.pure ?_)
  obtain ⟨hic, hlogs⟩ := ht
  exact ⟨hic, (hlogs.mono (Finset.subset_insert _ _)).trans (Logs.write (Finset.mem_insert_self _ _) _)⟩

-- The indirect block of the inode, if blocks behind the direct ones are concerned.
def indirects (ip : Fin NINODE) (t : Kernel) (far : Prop) [Decidable far] : Finset Nat :=
  if far then { ((t.icache ip).copy.addrs indirect).toNat } else ∅

theorem bmap_logs (hsb : sb.Valid) (h : (s.mem sb ip).Sound sb) (htype : (s.icache ip).copy.type ≠ 0) (bn : Nat) :
    Returns (bmap sb ip bn) s fun r t => Keeps ip s t ∧ (NDIRECT ≤ bn → (t.icache ip).copy.addrs indirect ≠ 0) ∧
      Logs (insert r.toNat sb.bitmap ∪ indirects ip t (NDIRECT ≤ bn)) s t := by
  unfold bmap
  by_cases hd : bn < NDIRECT
  · rw [dif_pos hd]
    refine (addrAt_logs hsb _).post fun r t ht => ?_
    obtain ⟨-, hkeep, hlogs⟩ := ht
    exact ⟨hkeep, fun hle => absurd hd (Nat.not_lt_of_le hle), hlogs.mono Finset.subset_union_left⟩
  · rw [dif_neg hd]
    refine Sat.ite (fun _ => ?_) fun _ => Sat.throw trivial
    have hsat := addrAt_sat (E := fun _ => True) hsb trivial h htype indirect
    refine (Sat.and hsat (addrAt_logs hsb indirect)).mono (fun _ _ hq => hq) (fun _ _ _ => trivial) |>.bind fun r t ht => ?_
    obtain ⟨⟨-, hr, -⟩, haddr, hkeep, hlogs⟩ := ht
    refine (entryAt_logs hsb r _).post fun r' u hu => ?_
    obtain ⟨hic, hlogs'⟩ := hu
    have hcopy : (u.icache ip).copy.addrs indirect = r := by rw [hic, haddr]
    refine ⟨fun hne => ?_, fun _ => ?_, ?_⟩
    · rw [hic]
      exact hkeep hne
    · rw [hcopy]
      exact hr
    · unfold indirects
      rw [if_pos (Nat.le_of_not_lt hd), hcopy]
      refine Logs.trans (hlogs.mono fun b hb => ?_) (hlogs'.mono fun b hb => ?_)
      · simp only [Finset.mem_insert, Finset.mem_union, Finset.mem_singleton] at hb ⊢
        tauto
      · simp only [Finset.mem_insert, Finset.mem_union, Finset.mem_singleton] at hb ⊢
        tauto

-- The number of blocks that n bytes from off on are in.
def spanned (off n : Nat) : Nat := if n = 0 then 0 else (off % BSIZE + n + BSIZE - 1) / BSIZE

theorem spanned_split {off m n : Nat} (hm : 0 < m) (hfit : off % BSIZE + m ≤ BSIZE)
    (hcut : n = 0 ∨ off % BSIZE + m = BSIZE) : spanned off m + spanned (off + m) n ≤ spanned off (m + n) := by
  unfold spanned
  simp only [BSIZE] at *
  split_ifs <;> omega

-- What writei logs of the file itself: the blocks with the bytes and the
-- indirect block.
structure Dirty (sb : Super) (ip : Fin NINODE) (off n : Nat) (s t : Kernel) : Prop where
  keeps : Keeps ip s t
  logs : ∃ D I : Finset Nat, D.card ≤ spanned off n ∧ Logs (sb.bitmap ∪ D ∪ I) s t ∧
    (I = ∅ ∨ NDIRECT * BSIZE < off + n ∧ (t.icache ip).copy.addrs indirect ≠ 0 ∧
      I = { ((t.icache ip).copy.addrs indirect).toNat })

theorem writeBlock_logs (hsb : sb.Valid) (h : (s.mem sb ip).Sound sb) (htype : (s.icache ip).copy.type ≠ 0)
    {off : Nat} {src : List UInt8} (hsrc : 0 < src.length) :
    Returns (writeBlock sb ip off src) s fun _ => Dirty sb ip off src.length s := by
  refine (bmap_logs hsb h htype _).bind fun r t ht => sat_bread ?_
  obtain ⟨hkeep, hne, hlogs⟩ := ht
  refine ⟨hkeep, { r.toNat }, indirects ip t (NDIRECT ≤ off / BSIZE), ?_, ?_, ?_⟩
  · rw [Finset.card_singleton]
    unfold spanned
    rw [if_neg (by omega)]
    exact Nat.div_pos (by omega) (by decide)
  · refine Logs.trans (hlogs.mono fun b hb => ?_) (Logs.write (by simp) _)
    simp only [Finset.mem_insert, Finset.mem_union, Finset.mem_singleton] at hb ⊢
    tauto
  · unfold indirects
    split_ifs with hfar
    · refine .inr ⟨?_, hne hfar, rfl⟩
      simp only [BSIZE, NDIRECT] at *
      omega
    · exact .inl rfl

theorem Dirty.trans {u : Kernel} {off m n : Nat} (hm : spanned off m + spanned (off + m) n ≤ spanned off (m + n))
    (h : Dirty sb ip off m s t) (h' : Dirty sb ip (off + m) n t u) : Dirty sb ip off (m + n) s u := by
  obtain ⟨D, I, hD, hlogs, hI⟩ := h.logs
  obtain ⟨D', I', hD', hlogs', hI'⟩ := h'.logs
  refine ⟨fun hne => ?_, D ∪ D', I ∪ I', ?_, ?_, ?_⟩
  · have hkeep := h.keeps hne
    rw [← hkeep] at hne ⊢
    exact h'.keeps hne
  · exact (Finset.card_union_le D D').trans (by omega)
  · refine Logs.trans (hlogs.mono fun b hb => ?_) (hlogs'.mono fun b hb => ?_)
    · simp only [Finset.mem_union] at hb ⊢
      tauto
    · simp only [Finset.mem_union] at hb ⊢
      tauto
  · -- Once there, the indirect block is the same.
    rcases hI with rfl | ⟨hfar, hne, rfl⟩
    · rw [Finset.empty_union]
      exact hI'.imp_right fun ⟨hfar, hne, heq⟩ => ⟨by omega, hne, heq⟩
    · have hkeep := h'.keeps hne
      rw [← hkeep] at hne ⊢
      refine .inr ⟨by omega, hne, ?_⟩
      rcases hI' with rfl | ⟨-, -, rfl⟩
      · rw [Finset.union_empty]
      · rw [Finset.union_self]

theorem writeiLoop_logs (hsb : sb.Valid) (h : (s.mem sb ip).Sound sb) (htype : (s.icache ip).copy.type ≠ 0)
    (fuel off : Nat) (src : List UInt8) (hmax : off + src.length ≤ MAXFILE * BSIZE) :
    Returns (writeiLoop sb ip fuel off src) s fun _ => Dirty sb ip off src.length s := by
  have hnone : ∀ {s : Kernel} {off n : Nat}, Dirty sb ip off n s s := fun {s _ _} =>
    ⟨fun _ => rfl, ∅, ∅, by simp, Logs.refl s, .inl rfl⟩
  induction fuel generalizing s off src with
  | zero => exact hnone
  | succ fuel ih =>
    refine Sat.ite (fun _ => hnone) fun hne => ?_
    have hpos : 0 < src.length := List.length_pos_iff.2 hne
    let m := min src.length (BSIZE - off % BSIZE)
    have hm : 0 < m ∧ m ≤ src.length ∧ off % BSIZE + m ≤ BSIZE := by
      simp only [BSIZE, m]
      omega
    have htake : (src.take m).length = m := by
      rw [List.length_take]
      omega
    have hdrop : (src.drop m).length = src.length - m := List.length_drop
    have hblk : off / BSIZE < MAXFILE := by
      simp only [BSIZE, MAXFILE, NDIRECT, NINDIRECT] at *
      omega
    have hsome : 0 < (src.take m).length := by omega
    have hsat := writeBlock_sat (E := fun _ => True) hsb trivial h htype hsome (by omega) hblk
    have hboth : Returns (writeBlock sb ip off (src.take m)) s fun _ t =>
        Wrote sb ip off (src.take m) s t ∧ Dirty sb ip off m s t := by
      have hlogs := @writeBlock_logs _ _ _ hsb h htype off _ hsome
      rw [htake] at hlogs
      exact (Sat.and hsat hlogs).mono (fun _ _ hq => hq) fun _ _ _ => trivial
    refine hboth.bind fun _ t ht => ?_
    obtain ⟨hw, hd⟩ := ht
    have htypet : (t.icache ip).copy.type ≠ 0 := by
      have hheader : (t.icache ip).copy.type = (s.icache ip).copy.type := congrArg Prod.fst hw.grown.header_eq
      rw [hheader]
      exact htype
    refine (ih hw.grown.sound htypet (off + m) (src.drop m) (by omega)).post fun _ u hu => ?_
    rw [hdrop] at hu
    have hsum : m + (src.length - m) = src.length := by omega
    rw [← hsum]
    refine hd.trans (spanned_split hm.1 hm.2.2 ?_) hu
    simp only [BSIZE, m] at *
    omega

theorem writei_logs (hsb : sb.Valid) (h : Coherent sb s) (hip : Ready s ip) (dev : Devsw) {src : List UInt8}
    (hlen : src.length < 2 ^ 32) (off : UInt32) :
    Returns (writei sb dev ip src off) s fun _ t => ∃ D I : Finset Nat, D.card ≤ spanned off.toNat src.length ∧
      Logs (insert (sb.iblock (s.icache ip).inum) (sb.bitmap ∪ D ∪ I)) s t ∧ I.card ≤ 1 ∧
      (off.toNat + src.length ≤ NDIRECT * BSIZE → I = ∅) := by
  have hnone : ∃ D I : Finset Nat, D.card ≤ spanned off.toNat src.length ∧
      Logs (insert (sb.iblock (s.icache ip).inum) (sb.bitmap ∪ D ∪ I)) s s ∧ I.card ≤ 1 ∧
      (off.toNat + src.length ≤ NDIRECT * BSIZE → I = ∅) :=
    ⟨∅, ∅, by simp, Logs.refl s, by simp, fun _ => rfl⟩
  have hn : (UInt32.ofNat src.length).toNat = src.length := by
    rw [UInt32.toNat_ofNat']
    omega
  refine sat_getInode (Sat.ite (fun _ => ?_) fun _ => Sat.ite (fun _ => hnone)
    fun hc => Sat.ite (fun _ => hnone) fun hmax => ?_)
  · split
    · exact hnone
    · exact hnone
  have hsum := toNat_add_of_not_wraps (not_or.1 hc).2
  rw [hn] at hsum
  have hsound : (s.mem sb ip).Sound sb := by
    rw [h.mem_eq hip]
    exact h.sound
  have htype := h.alloc ip hip.ref hip.valid
  have hsat := writeiLoop_sat (E := fun _ => True) hsb trivial hsound htype src.length off.toNat src (le_refl _) (by omega)
  have hlogs := writeiLoop_logs hsb hsound htype src.length off.toNat src (by omega)
  refine ((Sat.and hsat hlogs).mono (fun _ _ hq => hq) fun _ _ _ => trivial).bind fun _ t ht => sat_getInode ?_
  obtain ⟨hw, hd⟩ := ht
  obtain ⟨D, I, hD, hlog, hI⟩ := hd.logs
  have hcard : I.card ≤ 1 ∧ (off.toNat + src.length ≤ NDIRECT * BSIZE → I = ∅) := by
    rcases hI with rfl | ⟨hfar, -, rfl⟩
    · exact ⟨by simp, fun _ => rfl⟩
    · exact ⟨by simp, fun hle => absurd hfar (Nat.not_lt_of_le hle)⟩
  have hlog := hlog.mono (Finset.subset_insert (sb.iblock (s.icache ip).inum) _)
  have hext : Returns (doIf (0 < UInt32.ofNat src.length ∧ (t.icache ip).copy.size < off + UInt32.ofNat src.length)
      (extend sb ip (off + UInt32.ofNat src.length))) t
      fun _ => Logs (insert (sb.iblock (s.icache ip).inum) (sb.bitmap ∪ D ∪ I)) s := by
    refine sat_doIf (fun _ => sat_getInode (sat_setCopy ?_)) fun _ => hlog
    have hinum : ((t.setCopy ip { (t.icache ip).copy with size := off + UInt32.ofNat src.length }).icache ip).inum =
        (s.icache ip).inum := by
      rw [Kernel.setCopy_self]
      exact hw.grown.inum_eq
    have hlt : (s.icache ip).inum < sb.ninodes := h.inum_lt hip
    refine (iupdate_sat (E := fun _ => True) hsb (by rw [hinum]; exact hlt)).post fun _ u hu => ?_
    obtain ⟨-, -, hulogs⟩ := hu
    rw [hinum] at hulogs
    exact (hlog.of_eq rfl).trans (hulogs.mono (by simp))
  exact hext.bind fun _ u hu => ⟨D, I, hD, hu, hcard.1, hcard.2⟩

end Xv6.Fs
